import Reroot.Document.Reader
import Reroot.Manifest.Workspace

set_option autoImplicit false

namespace Reroot

namespace Entries

theorem names_unbraced (entries : Entries) : entries.unbraced.names = entries.names := by
  induction entries with
  | nil => rfl
  | cons key node tail ih => simp [unbraced, names, Key.bare, ih]

theorem contains_unbraced (name : String) (entries : Entries) :
    entries.unbraced.contains name = entries.contains name := by
  rw [Bool.eq_iff_iff, contains_iff_mem_names, contains_iff_mem_names, names_unbraced]

end Entries

theorem Node.contains_under_header? (name : String) (node : Node) :
    node.underHeader?.map (Entries.contains name) = node.entries?.map (Entries.contains name) := by
  cases node with
  | scalar margin value => rfl
  | array style elements => rfl
  | inline style entries => exact congrArg some (Entries.contains_unbraced name entries)
  | table style entries => rfl
  | tables elements => rfl

namespace Workspace

theorem contains_lift (name : String) (root entries : Entries) :
    (lift root entries).1.contains name =
      (root.contains name || (!membershipKeys.contains name && entries.contains name)) := by
  induction entries generalizing root with
  | nil => simp [lift, Entries.contains, Entries.get?]
  | cons key node tail ih =>
    have head : (Entries.cons key node tail).contains name =
        (decide (key.name = name) || tail.contains name) := by
      by_cases hit : key.name = name <;> simp [Entries.contains, Entries.get?, hit]
    rw [lift, head]
    split
    case isTrue discarded =>
      rw [ih]
      by_cases hit : key.name = name
      · rw [← hit, discarded]
        simp
      · simp [hit]
    case isFalse shared =>
      split
      case isTrue shadowed =>
        rw [ih]
        by_cases hit : key.name = name
        · rw [← hit, shadowed]
          rfl
        · simp [hit]
      case isFalse =>
        rw [ih, Entries.contains_put]
        by_cases hit : key.name = name
        · rw [← hit, Bool.eq_false_iff.mpr shared]
          simp
        · have other : ¬ name = key.name := fun h => hit h.symm
          simp [hit, other]

theorem eq_nil_of_lift_none (root entries : Entries) (quiet : (lift root entries).2 = .none) :
    entries = .nil := by
  cases entries with
  | nil => rfl
  | cons key node tail =>
    rw [lift] at quiet
    split at quiet
    · simp [Lifted.none] at quiet
    · split at quiet <;> simp [Lifted.none] at quiet

end Workspace

namespace Document

def nestsWorkspace (document : Document) : Bool :=
  (((document.root.get? "workspace").bind Node.entries?).map
    (Entries.contains "workspace")).getD false

theorem contains_workspace_lift_workspace (document : Document) :
    document.liftWorkspace.1.root.contains "workspace" = document.nestsWorkspace := by
  rw [liftWorkspace, nestsWorkspace]
  cases found : document.root.get? "workspace" with
  | none => simp [Entries.contains, found]
  | some node =>
    have keys := node.contains_under_header? "workspace"
    have gone := Entries.contains_erase "workspace" "workspace" document.root
    cases inner : node.underHeader? with
    | none =>
      rw [inner] at keys
      simpa [← keys, inner] using gone
    | some entries =>
      rw [inner] at keys
      have member : Workspace.membershipKeys.contains "workspace" = false := by decide
      dsimp only [Option.bind_some]
      rw [← keys, inner]
      dsimp only [Option.map_some, Option.getD_some]
      rw [Workspace.contains_lift, gone, member]
      simp

theorem lift_workspace_of_missing (document : Document)
    (missing : document.root.contains "workspace" = false) :
    document.liftWorkspace = (document, .absent) := by
  have absent : document.root.get? "workspace" = none := by
    simpa [Entries.contains] using missing
  rw [liftWorkspace, absent]

theorem missing_of_lift_workspace_idle (document : Document)
    (same : document.liftWorkspace.1 = document)
    (quiet : document.liftWorkspace.2.keys = .none) :
    document.root.contains "workspace" = false := by
  have gone := Entries.contains_erase "workspace" "workspace" document.root
  rw [liftWorkspace] at same quiet
  cases found : document.root.get? "workspace" with
  | none => simp [Entries.contains, found]
  | some node =>
    rw [found] at same quiet
    dsimp only at same quiet
    have erased : document.root.erase "workspace" = document.root := by
      cases inner : node.underHeader? with
      | none =>
        rw [inner] at same
        exact congrArg Document.root same
      | some entries =>
        rw [inner] at same quiet
        have empty := Workspace.eq_nil_of_lift_none _ entries quiet
        rw [empty] at same
        exact congrArg Document.root same
    rw [← erased]
    simpa using gone

-- No key `workspace` is left, and lifting again changes and reports nothing, exactly for manifests
-- whose section has no such key itself.
theorem lift_workspace_settles_iff (document : Document) :
    (document.liftWorkspace.1.root.contains "workspace" = false ↔
      document.nestsWorkspace = false) ∧
    ((document.liftWorkspace.1.liftWorkspace.1 = document.liftWorkspace.1 ∧
        document.liftWorkspace.1.liftWorkspace.2.keys = .none) ↔
      document.nestsWorkspace = false) := by
  have left := contains_workspace_lift_workspace document
  refine ⟨by rw [left], ?_, ?_⟩
  · rintro ⟨same, quiet⟩
    rw [← left]
    exact missing_of_lift_workspace_idle _ same quiet
  · intro plain
    rw [lift_workspace_of_missing _ (left.trans plain)]
    exact ⟨rfl, rfl⟩

theorem workspace_survives_nested :
    (parse? "[workspace]\nworkspace = 1\n").map
      (fun document => document.liftWorkspace.1.root.contains "workspace") = some true := by
  decide +kernel

end Document

end Reroot
