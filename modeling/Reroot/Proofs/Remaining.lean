import Reroot.Manifest.PathDependencies
import Reroot.Document.Reader
import Reroot.Document.Said
import Reroot.Proofs.Pinned

set_option autoImplicit false

namespace Reroot

theorem Nodes.forall_below_cons (holds : Node → Prop) (number : Nat) (head : Node) (tail : Nodes) :
    (∀ entry ∈ (cons head tail).entriesBelow number, holds entry.node) ↔
      (∀ entry ∈ head.entriesBelow, holds entry.node) ∧
      ∀ entry ∈ tail.entriesBelow (number + 1), holds entry.node := by
  rw [entriesBelow, List.forall_mem_append, List.forall_mem_map]
  rfl

theorem Entries.forall_below_cons (holds : Node → Prop) (key : Key) (node : Node) (tail : Entries) :
    (∀ entry ∈ (cons key node tail).entriesBelow, holds entry.node) ↔
      holds node ∧ (∀ entry ∈ node.entriesBelow, holds entry.node) ∧
      ∀ entry ∈ tail.entriesBelow, holds entry.node := by
  rw [entriesBelow, List.cons_append, List.forall_mem_cons, List.forall_mem_append,
    List.forall_mem_map]
  rfl

mutual
theorem Node.pinned_iff_below : (node : Node) →
    (node.Pinned ↔ ∀ entry ∈ node.entriesBelow, entry.node.path? = none)
  | .scalar _ _ => ⟨fun _ => List.forall_mem_nil _, fun _ => trivial⟩
  | .array _ elements => Nodes.pinned_iff_below 0 elements
  | .inline _ entries => Entries.pinned_iff_below entries
  | .table _ entries => Entries.pinned_iff_below entries
  | .tables elements => Nodes.pinned_iff_below 0 elements
theorem Nodes.pinned_iff_below (number : Nat) : (nodes : Nodes) →
    (nodes.Pinned ↔ ∀ entry ∈ nodes.entriesBelow number, entry.node.path? = none)
  | .nil => ⟨fun _ => List.forall_mem_nil _, fun _ => trivial⟩
  | .cons head tail => by
    rw [Nodes.forall_below_cons (·.path? = none), ← Node.pinned_iff_below head,
      ← Nodes.pinned_iff_below (number + 1) tail, Nodes.Pinned]
theorem Entries.pinned_iff_below : (entries : Entries) →
    (entries.Pinned ↔ ∀ entry ∈ entries.entriesBelow, entry.node.path? = none)
  | .nil => ⟨fun _ => List.forall_mem_nil _, fun _ => trivial⟩
  | .cons key node tail => by
    rw [Entries.forall_below_cons (·.path? = none), ← Node.pinned_iff_below node,
      ← Entries.pinned_iff_below tail, Entries.Pinned]
end

def Node.Sent (base : String) (node : Node) : Prop := node.path?.isSome = true → node.OnlyPath base

theorem Node.sent_of_plain (base : String) (node : Node) (plain : node.path? = none) : node.Sent base := by
  intro carries
  rw [plain] at carries
  cases carries

section Checkout

variable (base : String)

theorem Node.sent_walked (name : String) (node : Node)
    (free : (node.walked (.checkout base) name).stuck = none)
    (below : (node.redirect (.checkout base)).stuck = none →
      ∀ entry ∈ (node.redirect (.checkout base)).result.entriesBelow, entry.node.Sent base) :
    (node.walked (.checkout base) name).result.Sent base ∧
      ∀ entry ∈ (node.walked (.checkout base) name).result.entriesBelow, entry.node.Sent base := by
  rcases node.walked_cases (.checkout base) name free with
    ⟨entries, reference, -, replaced, same⟩ | ⟨plain, freeInner, same⟩
  · obtain ⟨path, -, rfl⟩ := Option.map_eq_some_iff.mp replaced
    rw [same]
    refine ⟨fun _ => ⟨_, path, rfl, rfl, rfl⟩, ?_⟩
    exact List.forall_mem_singleton.mpr (Node.sent_of_plain base _ rfl)
  · rw [same]
    exact ⟨Node.sent_of_plain base _ (path?_redirect _ node freeInner plain), below freeInner⟩

mutual
theorem Node.sent_redirect : (node : Node) → (node.redirect (.checkout base)).stuck = none →
    ∀ entry ∈ (node.redirect (.checkout base)).result.entriesBelow, entry.node.Sent base
  | .scalar _ _, _ => List.forall_mem_nil _
  | .array _ elements, free => Nodes.sent_redirect 0 elements free
  | .inline _ entries, free => Entries.sent_redirect entries free
  | .table _ entries, free => Entries.sent_redirect entries free
  | .tables elements, free => Nodes.sent_redirect 0 elements free
theorem Nodes.sent_redirect (number : Nat) : (nodes : Nodes) →
    (nodes.redirect (.checkout base)).stuck = none →
    ∀ entry ∈ (nodes.redirect (.checkout base)).result.entriesBelow number, entry.node.Sent base
  | .nil, _ => List.forall_mem_nil _
  | .cons head tail, free => by
    rw [Nodes.redirect] at free ⊢
    obtain ⟨freeHead, freeTail, result⟩ := Walk.join_free _ _ _ _ free
    rw [result, Nodes.forall_below_cons (Node.Sent base)]
    exact ⟨Node.sent_redirect head freeHead, Nodes.sent_redirect (number + 1) tail freeTail⟩
theorem Entries.sent_redirect : (entries : Entries) →
    (entries.redirect (.checkout base)).stuck = none →
    ∀ entry ∈ (entries.redirect (.checkout base)).result.entriesBelow, entry.node.Sent base
  | .nil, _ => List.forall_mem_nil _
  | .cons key node tail, free => by
    rw [Entries.redirect] at free ⊢
    obtain ⟨freeNode, freeTail, result⟩ := Walk.join_free _ _ _ _ free
    obtain ⟨own, below⟩ := node.sent_walked base key.name freeNode (Node.sent_redirect node)
    rw [result, Entries.forall_below_cons (Node.Sent base)]
    exact ⟨own, below, Entries.sent_redirect tail freeTail⟩
end

end Checkout

namespace Walk

variable {α β γ : Type} {δ ε ζ : Type}

def Tells (data : α → δ) (walk : Walk α) (original : α) : Prop :=
  (walk.replaced = [] ∧ walk.result = original) ∨
    (walk.replaced ≠ [] ∧ data walk.result ≠ data original)

theorem tells_map (dataOf : α → δ) (dataOf' : β → ε) (f : α → β)
    (part : ∀ a b, dataOf' (f a) = dataOf' (f b) → dataOf a = dataOf b) (walk : Walk α) (original : α)
    (tells : walk.Tells dataOf original) : (walk.map f).Tells dataOf' (f original) := by
  rcases tells with ⟨none, same⟩ | ⟨some', differs⟩
  · exact .inl ⟨none, congrArg f same⟩
  · exact .inr ⟨some', fun equal => differs (part _ _ equal)⟩

theorem tells_join (dataOf : α → δ) (dataOf' : β → ε) (dataOf'' : γ → ζ) (f : α → β → γ)
    (parts : ∀ a b a' b', dataOf'' (f a b) = dataOf'' (f a' b') →
      dataOf a = dataOf a' ∧ dataOf' b = dataOf' b')
    (first : Walk α) (rest : Walk β) (a : α) (b : β) (tells : first.Tells dataOf a)
    (tells' : rest.Tells dataOf' b) : (join f first b rest).Tells dataOf'' (f a b) := by
  rw [join]
  split
  -- A walk that gets stuck in the first part tells of it alone, and the rest stays as it is.
  · rcases tells with ⟨none, same⟩ | ⟨some', differs⟩
    · exact .inl ⟨none, by rw [same]⟩
    · exact .inr ⟨some', fun equal => differs (parts _ _ _ _ equal).1⟩
  · rcases tells with ⟨none, same⟩ | ⟨some', differs⟩
    · rcases tells' with ⟨none', same'⟩ | ⟨some', differs⟩
      · exact .inl ⟨List.append_eq_nil_iff.mpr ⟨none, none'⟩, by rw [same, same']⟩
      · refine .inr ⟨fun empty => some' (List.append_eq_nil_iff.mp empty).2, fun equal => ?_⟩
        exact differs (parts _ _ _ _ equal).2
    · refine .inr ⟨fun empty => some' (List.append_eq_nil_iff.mp empty).1, fun equal => ?_⟩
      exact differs (parts _ _ _ _ equal).1

end Walk

theorem Node.data_of_string? (node : Node) (value : String) (isString : node.string? = some value) :
    node.data = .string value := by
  unfold string? at isString
  split at isString
  · cases isString
    rfl
  · cases isString

section Tells

variable (target : Target)

theorem Target.data_replacement? (entries : Entries) (reference : Node)
    (carries : entries.contains "path" = true) (replaced : target.replacement? entries = some reference) :
    reference.data ≠ .object entries.data := by
  intro equal
  cases target with
  | revision url rev =>
    cases Option.some.inj replaced
    have gone := congrArg (DataFields.get? "path") (Data.object.inj equal)
    rw [Entries.get?_data "path" entries] at gone
    cases found : entries.get? "path" with
    | none => simp [Entries.contains, found] at carries
    | some value =>
      rw [found] at gone
      cases gone
  | checkout base =>
    obtain ⟨path, found, rfl⟩ := Option.map_eq_some_iff.mp replaced
    obtain ⟨value, there, isString⟩ := Option.bind_eq_some_iff.mp found
    have kept := congrArg (DataFields.get? "path") (Data.object.inj equal)
    rw [Entries.get?_data "path" entries, there, Option.map_some,
      value.data_of_string? path isString] at kept
    -- The new path is longer than the old one, even below an empty base.
    have longer : base ++ "/" ++ path = path := Data.string.inj (Option.some.inj kept)
    have lengths := congrArg String.length longer
    rw [String.length_append, String.length_append] at lengths
    change base.length + 1 + path.length = path.length at lengths
    omega

theorem Node.tells_walked (name : String) (node : Node) (tells : (node.redirect target).Tells data node) :
    (node.walked target name).Tells data node := by
  rw [walked, redirected?]
  cases inner : node.entries? with
  | none => exact tells
  | some entries =>
    dsimp only
    split
    · next carries =>
      cases replaced : target.replacement? entries with
      | none => exact .inl ⟨rfl, rfl⟩
      | some reference =>
        refine .inr ⟨List.cons_ne_nil _ _, fun equal => ?_⟩
        refine target.data_replacement? entries reference carries replaced (equal.trans ?_)
        cases node <;> cases inner <;> rfl
    · exact tells

mutual
theorem Node.tells_redirect : (node : Node) → (node.redirect target).Tells Node.data node
  | .scalar _ _ => .inl ⟨rfl, rfl⟩
  | .array style elements =>
    Walk.tells_map Nodes.data _ (Node.array style) (fun _ _ => Data.list.inj) _ _
      (Nodes.tells_redirect elements)
  | .inline style entries =>
    Walk.tells_map Entries.data _ (Node.inline style) (fun _ _ => Data.object.inj) _ _
      (Entries.tells_redirect entries)
  | .table style entries =>
    Walk.tells_map Entries.data _ (Node.table style) (fun _ _ => Data.object.inj) _ _
      (Entries.tells_redirect entries)
  | .tables elements =>
    Walk.tells_map Nodes.data _ Node.tables (fun _ _ => Data.list.inj) _ _
      (Nodes.tells_redirect elements)
theorem Nodes.tells_redirect : (nodes : Nodes) → (nodes.redirect target).Tells Nodes.data nodes
  | .nil => .inl ⟨rfl, rfl⟩
  | .cons head tail => by
    rw [Nodes.redirect]
    exact Walk.tells_join Node.data Nodes.data Nodes.data .cons
      (fun _ _ _ _ => DataList.cons.inj) _ _ _ _ (Node.tells_redirect head) (Nodes.tells_redirect tail)
theorem Entries.tells_redirect : (entries : Entries) →
    (entries.redirect target).Tells Entries.data entries
  | .nil => .inl ⟨rfl, rfl⟩
  | .cons key node tail => by
    rw [Entries.redirect]
    exact Walk.tells_join Node.data Entries.data Entries.data (.cons key)
      (fun _ _ _ _ equal => (DataFields.cons.inj equal).2) _ _ _ _
      (node.tells_walked target key.name (Node.tells_redirect node)) (Entries.tells_redirect tail)
end

end Tells

namespace Document

-- What holds after redirecting, whatever the document was. After a revision no table under a key has a
-- `path`, and no further walk changes or reports anything. After a checkout that did not get stuck a
-- table under a key with a `path` has only the new one. And a walk counts nothing just where it left
-- the document as it was, formatting included; otherwise it changed the data.
theorem redirect_remaining (document : Document) :
    (∀ url rev, (document.redirect (.revision url rev)).stuck = none ∧
      (∀ entry ∈ (document.redirect (.revision url rev)).result.entries, entry.node.path? = none) ∧
      ∀ target, (document.redirect (.revision url rev)).result.redirect target =
        .stay (document.redirect (.revision url rev)).result) ∧
    (∀ base, (document.redirect (.checkout base)).stuck = none →
      ∀ entry ∈ (document.redirect (.checkout base)).result.entries,
        entry.hasPath = true → entry.node.OnlyPath base) ∧
    ∀ target,
      ((document.redirect target).replaced.length = 0 ↔
        (document.redirect target).result = document) ∧
      ((document.redirect target).replaced.length ≠ 0 →
        (document.redirect target).result.data ≠ document.data) := by
  refine ⟨fun url rev => ?_, fun base free => document.root.sent_redirect base free, fun target => ?_⟩
  · obtain ⟨free, pinned⟩ := document.root.pinned_redirect url rev
    refine ⟨free, (Entries.pinned_iff_below _).mp pinned, fun target => ?_⟩
    exact congrArg (Walk.map _) (Entries.redirect_of_pinned target _ pinned)
  · have tells : (document.redirect target).Tells data document :=
      Walk.tells_map Entries.data data ({ document with root := · }) (fun _ _ => id) _ _
        (document.root.tells_redirect target)
    rw [Ne, List.length_eq_zero_iff]
    rcases tells with ⟨none, same⟩ | ⟨some', differs⟩
    · exact ⟨⟨fun _ => same, fun _ => none⟩, fun some' => absurd none some'⟩
    · exact ⟨⟨fun none => absurd none some', fun same => absurd (congrArg data same) differs⟩,
        fun _ => differs⟩

theorem redirect_remaining_in_elements :
    ∃ document,
      parse? "[[a]]\npath = ''\nx = \x7b path = 'p', k.path = '' \x7d\ny = [\x7b z.path = '' \x7d]\n" =
        some document ∧
      (document.redirect (.checkout "base")).replaced = ["x", "z"] ∧
      (∀ entry ∈ (document.redirect (.checkout "base")).result.entries,
        entry.hasPath = true → entry.node.OnlyPath "base") ∧
      (document.redirect (.checkout "base")).result ≠ document ∧
      ∀ entry ∈ (document.redirect (.revision "u" "r")).result.entries, entry.node.path? = none := by
  have fits : (parse?
      "[[a]]\npath = ''\nx = \x7b path = 'p', k.path = '' \x7d\ny = [\x7b z.path = '' \x7d]\n").map
      (fun document => ((document.redirect (.checkout "base")).replaced,
        (document.redirect (.checkout "base")).stuck)) = some (["x", "z"], none) := by
    decide +kernel
  obtain ⟨document, read, fits⟩ := Option.map_eq_some_iff.mp fits
  obtain ⟨replaced, free⟩ := Prod.mk.inj fits
  obtain ⟨revision, checkout, counted⟩ := document.redirect_remaining
  refine ⟨document, read, replaced, checkout "base" free, fun same => ?_, (revision "u" "r").2.1⟩
  have none := (counted (.checkout "base")).1.mpr same
  rw [replaced] at none
  cases none

end Document

end Reroot
