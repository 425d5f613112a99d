import Reroot.Document.Reader
import Reroot.Proofs.Replaced

set_option autoImplicit false

namespace Reroot

namespace Target

-- The target of a walk, seen from a document whose dependencies are sent to a checkout first.
def behind (base : String) : Target → Target
  | revision url rev => revision url rev
  | checkout other => checkout (other ++ "/" ++ base)

-- What a walk to a checkout puts in place of a table answers as the table does from further off.
theorem answer_behind (base path : String) (target : Target) (entries : Entries)
    (found : (entries.get? "path").bind Node.string? = some path) :
    target.answer (reference [("path", base ++ "/" ++ path)]) =
      (target.behind base).replacement? entries := by
  cases target with
  | revision url rev => rfl
  | checkout other =>
    have joined : other ++ "/" ++ (base ++ "/" ++ path) = other ++ "/" ++ base ++ "/" ++ path := by
      simp only [String.append_assoc]
    rw [behind, replacement?, found, Option.map_some, ← joined]
    rfl

theorem replacement?_of_path (target : Target) (entries : Entries) (path : String)
    (found : (entries.get? "path").bind Node.string? = some path) :
    ∃ reference, target.replacement? entries = some reference := by
  cases target with
  | revision url rev => exact ⟨_, rfl⟩
  | checkout base => exact ⟨_, by rw [replacement?, found, Option.map_some]⟩

end Target

namespace Walk

variable {α β γ : Type}

-- What a walk would leave unchanged does not matter where its first part does not get stuck.
theorem join_unchanged (f : α → β → γ) (first : Walk α) (unchanged other : β) (rest : Walk β)
    (free : first.stuck = none) : join f first unchanged rest = join f first other rest := by
  rw [join_of_free _ _ _ _ free, join_of_free _ _ _ _ free]

structure Repeats (again first : Walk α) : Prop where
  free : again.stuck = none
  replaced : again.replaced = first.replaced

theorem Repeats.map {again first : Walk α} (repeats : again.Repeats first) (f : α → β) :
    (again.map f).Repeats (first.map f) := ⟨repeats.free, repeats.replaced⟩

theorem Repeats.join (f : α → β → γ) {again first : Walk α} {again' rest : Walk β} (unchanged : β)
    (repeats : again.Repeats first) (repeats' : again'.Repeats rest) (free : first.stuck = none) :
    (Walk.join f again unchanged again').Repeats (Walk.join f first unchanged rest) := by
  rw [join_of_free _ _ _ _ repeats.free, join_of_free _ _ _ _ free]
  exact ⟨repeats'.free, congrArg₂ (· ++ ·) repeats.replaced repeats'.replaced⟩

end Walk

section Succession

variable (base : String) (target : Target)

theorem Node.walked_walked (name : String) (node : Node)
    (free : (node.walked (.checkout base) name).stuck = none)
    (inner : (node.redirect (.checkout base)).stuck = none →
      (node.redirect (.checkout base)).result.redirect target = node.redirect (target.behind base) ∧
        (node.redirect (target.behind base)).Repeats (node.redirect (.checkout base))) :
    (node.walked (.checkout base) name).result.walked target name = node.walked (target.behind base) name ∧
      (node.walked (target.behind base) name).Repeats (node.walked (.checkout base) name) := by
  cases carried : node.path? with
  | none =>
    rw [node.walked_of_plain _ name carried] at free ⊢
    obtain ⟨same, repeats⟩ := inner free
    have plain := path?_redirect (.checkout base) node free carried
    rw [walked_of_plain _ name _ plain, node.walked_of_plain _ name carried]
    exact ⟨same, repeats⟩
  | some value =>
    have carries : node.path?.isSome = true := by rw [carried]; rfl
    rw [node.walked_of_path _ name carries] at free ⊢
    cases answered : (Target.checkout base).answer node with
    | none =>
      rw [answered] at free
      cases free
    | some reference =>
      obtain ⟨entries, isTable, replaced⟩ := Option.bind_eq_some_iff.mp answered
      obtain ⟨path, found, rfl⟩ := Option.map_eq_some_iff.mp replaced
      have again := target.answer_behind base path entries found
      obtain ⟨reference, made⟩ := (target.behind base).replacement?_of_path entries path found
      have answer : (target.behind base).answer node = some reference := by
        rw [Target.answer, isTable]
        exact made
      dsimp only
      rw [walked_of_path target name _ rfl, again, node.walked_of_path _ name carries, made, answer]
      exact ⟨rfl, rfl, rfl⟩

mutual
theorem Node.redirect_redirect : (node : Node) → (node.redirect (.checkout base)).stuck = none →
    (node.redirect (.checkout base)).result.redirect target = node.redirect (target.behind base) ∧
      (node.redirect (target.behind base)).Repeats (node.redirect (.checkout base))
  | .scalar _ _, _ => ⟨rfl, rfl, rfl⟩
  | .array style elements, free => by
    obtain ⟨same, repeats⟩ := Nodes.redirect_redirect elements free
    exact ⟨congrArg (Walk.map (Node.array style)) same, repeats.map _⟩
  | .inline style entries, free => by
    obtain ⟨same, repeats⟩ := Entries.redirect_redirect entries free
    exact ⟨congrArg (Walk.map (Node.inline style)) same, repeats.map _⟩
  | .table style entries, free => by
    obtain ⟨same, repeats⟩ := Entries.redirect_redirect entries free
    exact ⟨congrArg (Walk.map (Node.table style)) same, repeats.map _⟩
  | .tables elements, free => by
    obtain ⟨same, repeats⟩ := Nodes.redirect_redirect elements free
    exact ⟨congrArg (Walk.map Node.tables) same, repeats.map _⟩
theorem Nodes.redirect_redirect : (nodes : Nodes) → (nodes.redirect (.checkout base)).stuck = none →
    (nodes.redirect (.checkout base)).result.redirect target = nodes.redirect (target.behind base) ∧
      (nodes.redirect (target.behind base)).Repeats (nodes.redirect (.checkout base))
  | .nil, _ => ⟨rfl, rfl, rfl⟩
  | .cons head tail, free => by
    rw [Nodes.redirect] at free ⊢
    obtain ⟨freeHead, freeTail, result⟩ := Walk.join_free _ _ _ _ free
    obtain ⟨same, repeats⟩ := Node.redirect_redirect head freeHead
    obtain ⟨same', repeats'⟩ := Nodes.redirect_redirect tail freeTail
    rw [result, Nodes.redirect, Nodes.redirect, same, same']
    exact ⟨Walk.join_unchanged _ _ _ _ _ repeats.free, repeats.join _ _ repeats' freeHead⟩
theorem Entries.redirect_redirect : (entries : Entries) →
    (entries.redirect (.checkout base)).stuck = none →
    (entries.redirect (.checkout base)).result.redirect target = entries.redirect (target.behind base) ∧
      (entries.redirect (target.behind base)).Repeats (entries.redirect (.checkout base))
  | .nil, _ => ⟨rfl, rfl, rfl⟩
  | .cons key node tail, free => by
    rw [Entries.redirect_cons_eq] at free ⊢
    obtain ⟨freeNode, freeTail, result⟩ := Walk.join_free _ _ _ _ free
    obtain ⟨same, repeats⟩ :=
      node.walked_walked base target key.name freeNode (Node.redirect_redirect node)
    obtain ⟨same', repeats'⟩ := Entries.redirect_redirect tail freeTail
    rw [result, Entries.redirect_cons_eq, Entries.redirect_cons_eq, same, same']
    exact ⟨Walk.join_unchanged _ _ _ _ _ repeats.free, repeats.join _ _ repeats' freeNode⟩
end

end Succession

namespace Document

-- After a walk to a checkout that did not get stuck, a walk to another one does what a single walk to
-- the two bases joined does, and a walk to a revision does what it would have done without the first.
-- The document is the same down to its formatting, and as many tables are replaced as by the first.
theorem redirect_after_checkout (document : Document) (base : String)
    (free : (document.redirect (.checkout base)).stuck = none) :
    (∀ other, (document.redirect (.checkout base)).result.redirect (.checkout other) =
        document.redirect (.checkout (other ++ "/" ++ base)) ∧
      ((document.redirect (.checkout base)).result.redirect (.checkout other)).Repeats
        (document.redirect (.checkout base))) ∧
    ∀ url rev, (document.redirect (.checkout base)).result.redirect (.revision url rev) =
        document.redirect (.revision url rev) ∧
      ((document.redirect (.checkout base)).result.redirect (.revision url rev)).Repeats
        (document.redirect (.checkout base)) := by
  have again : ∀ target : Target, (document.redirect (.checkout base)).result.redirect target =
        document.redirect (target.behind base) ∧
      ((document.redirect (.checkout base)).result.redirect target).Repeats
        (document.redirect (.checkout base)) := by
    intro target
    obtain ⟨same, repeats⟩ := document.root.redirect_redirect base target free
    have whole : (document.redirect (.checkout base)).result.redirect target =
        document.redirect (target.behind base) := congrArg (Walk.map _) same
    exact ⟨whole, whole ▸ repeats.map _⟩
  exact ⟨fun other => again (.checkout other), fun url rev => again (.revision url rev)⟩

theorem redirect_after_checkout_in_elements :
    ∃ document,
      parse? "[[a]]\npath = ''\nx = \x7b path = 'p', k.path = '' \x7d # c\ny = [\x7b z.path = '' \x7d]\n" =
        some document ∧
      (document.redirect (.checkout "b")).stuck = none ∧
      (document.redirect (.checkout "b")).replaced = ["x", "z"] ∧
      (document.redirect (.checkout "b")).result.redirect (.checkout "c") =
        document.redirect (.checkout ("c" ++ "/" ++ "b")) ∧
      (document.redirect (.checkout "b")).result.redirect (.revision "u" "r") =
        document.redirect (.revision "u" "r") ∧
      (document.redirect (.revision "u" "r")).replaced = ["x", "z"] := by
  have fits : (parse?
      "[[a]]\npath = ''\nx = \x7b path = 'p', k.path = '' \x7d # c\ny = [\x7b z.path = '' \x7d]\n").map
      (fun document => ((document.redirect (.checkout "b")).stuck,
        (document.redirect (.checkout "b")).replaced)) = some (none, ["x", "z"]) := by
    decide +kernel
  obtain ⟨document, read, fits⟩ := Option.map_eq_some_iff.mp fits
  obtain ⟨free, replaced⟩ := Prod.mk.inj fits
  obtain ⟨checkout, revision⟩ := document.redirect_after_checkout "b" free
  obtain ⟨same, repeats⟩ := revision "u" "r"
  refine ⟨document, read, free, replaced, (checkout "c").1, same, ?_⟩
  rw [← same, repeats.replaced, replaced]

end Document

end Reroot
