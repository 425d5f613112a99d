import Reroot.Manifest.Pinned
import Reroot.Proofs.Kept
import Reroot.Proofs.Provenance

set_option autoImplicit false

namespace Reroot

theorem Walk.join_of_free {α β γ : Type} (f : α → β → γ) (first : Walk α) (unchanged : β) (rest : Walk β)
    (free : first.stuck = none) : join f first unchanged rest =
      ⟨f first.result rest.result, first.replaced ++ rest.replaced, rest.stuck⟩ := by
  simp [join, free]

theorem Entries.pinned_iff (entries : Entries) :
    entries.Pinned ↔ entries.Each fun _ node => node.path? = none ∧ node.Pinned := by
  induction entries with
  | nil => simp [Pinned, Each, toList]
  | cons key node tail ih => rw [Pinned, each_cons, ih, and_assoc]

theorem Node.walked_of_plain (target : Target) (name : String) (node : Node) (plain : node.path? = none) :
    node.walked target name = node.redirect target := by
  rw [walked, redirected?]
  cases inner : node.entries? with
  | none => rfl
  | some entries =>
    rw [path?, inner, Option.bind_some] at plain
    simp [Entries.contains, plain]

section Walk

variable (target : Target)

mutual
theorem Node.redirect_of_pinned : (node : Node) → node.Pinned → node.redirect target = .stay node
  | .scalar _ _, _ => rfl
  | .array _ elements, pinned => by
    rw [Node.redirect, Nodes.redirect_of_pinned elements pinned]
    rfl
  | .inline _ entries, pinned => by
    rw [Node.redirect, Entries.redirect_of_pinned entries pinned]
    rfl
  | .table _ entries, pinned => by
    rw [Node.redirect, Entries.redirect_of_pinned entries pinned]
    rfl
  | .tables elements, pinned => by
    rw [Node.redirect, Nodes.redirect_of_pinned elements pinned]
    rfl
theorem Nodes.redirect_of_pinned : (nodes : Nodes) → nodes.Pinned → nodes.redirect target = .stay nodes
  | .nil, _ => rfl
  | .cons head tail, pinned => by
    rw [Nodes.redirect, Node.redirect_of_pinned head pinned.1, Nodes.redirect_of_pinned tail pinned.2]
    rfl
theorem Entries.redirect_of_pinned :
    (entries : Entries) → entries.Pinned → entries.redirect target = .stay entries
  | .nil, _ => rfl
  | .cons key node tail, pinned => by
    obtain ⟨plain, inner, later⟩ := pinned
    change Walk.join (Entries.cons key) (node.walked target key.name) tail (tail.redirect target) = _
    rw [node.walked_of_plain target key.name plain, Node.redirect_of_pinned node inner,
      Entries.redirect_of_pinned tail later]
    rfl
end

end Walk

section Revision

variable (url rev : String)

theorem Node.pinned_walked (name : String) (node : Node)
    (free : (node.redirect (.revision url rev)).stuck = none)
    (pinned : (node.redirect (.revision url rev)).result.Pinned) :
    (node.walked (.revision url rev) name).stuck = none ∧
      (node.walked (.revision url rev) name).result.path? = none ∧
      (node.walked (.revision url rev) name).result.Pinned := by
  cases plain : node.path? with
  | none =>
    rw [node.walked_of_plain _ name plain]
    exact ⟨free, path?_redirect _ node free plain, pinned⟩
  | some path =>
    obtain ⟨entries, inner, carried⟩ := Option.bind_eq_some_iff.mp plain
    have replaced : node.walked (.revision url rev) name =
        ⟨Target.reference [("git", url), ("rev", rev)], [name], none⟩ := by
      rw [walked, redirected?, inner]
      simp [Entries.contains, carried, Target.replacement?]
    rw [replaced]
    exact ⟨rfl, rfl, rfl, trivial, rfl, trivial, trivial⟩

mutual
theorem Node.pinned_redirect : (node : Node) → (node.redirect (.revision url rev)).stuck = none ∧
    (node.redirect (.revision url rev)).result.Pinned
  | .scalar _ _ => ⟨rfl, trivial⟩
  | .array _ elements => Nodes.pinned_redirect elements
  | .inline _ entries => Entries.pinned_redirect entries
  | .table _ entries => Entries.pinned_redirect entries
  | .tables elements => Nodes.pinned_redirect elements
theorem Nodes.pinned_redirect : (nodes : Nodes) → (nodes.redirect (.revision url rev)).stuck = none ∧
    (nodes.redirect (.revision url rev)).result.Pinned
  | .nil => ⟨rfl, trivial⟩
  | .cons head tail => by
    obtain ⟨free, pinned⟩ := Node.pinned_redirect head
    obtain ⟨freeTail, pinnedTail⟩ := Nodes.pinned_redirect tail
    rw [Nodes.redirect, Walk.join_of_free _ _ _ _ free]
    exact ⟨freeTail, pinned, pinnedTail⟩
theorem Entries.pinned_redirect : (entries : Entries) →
    (entries.redirect (.revision url rev)).stuck = none ∧
      (entries.redirect (.revision url rev)).result.Pinned
  | .nil => ⟨rfl, trivial⟩
  | .cons key node tail => by
    obtain ⟨freeInner, pinnedInner⟩ := Node.pinned_redirect node
    obtain ⟨free, plain, pinned⟩ := node.pinned_walked url rev key.name freeInner pinnedInner
    obtain ⟨freeTail, pinnedTail⟩ := Entries.pinned_redirect tail
    change (Walk.join (Entries.cons key) (node.walked (.revision url rev) key.name) tail
      (tail.redirect (.revision url rev))).stuck = none ∧ (Walk.join (Entries.cons key)
      (node.walked (.revision url rev) key.name) tail (tail.redirect (.revision url rev))).result.Pinned
    rw [Walk.join_of_free _ _ _ _ free]
    exact ⟨freeTail, plain, pinned, pinnedTail⟩
end

end Revision

end Reroot
