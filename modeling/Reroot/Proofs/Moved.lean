import Reroot.Proofs.Lifting
import Reroot.Proofs.Settled

set_option autoImplicit false

namespace Reroot

namespace Workspace

def Moves (root : Entries) (name : String) : Prop := name ∉ membershipKeys ∧ name ∉ root.names

instance (root : Entries) : DecidablePred (Moves root) :=
  fun name => inferInstanceAs (Decidable (name ∉ membershipKeys ∧ name ∉ root.names))

theorem lift_discarded (root tail : Entries) (key : Key) (node : Node)
    (shared : key.name ∈ membershipKeys) : lift root (.cons key node tail) =
      ((lift root tail).1, { (lift root tail).2 with
        discarded := key.name :: (lift root tail).2.discarded }) := by
  rw [lift, if_pos (List.contains_iff_mem.mpr shared)]

theorem lift_shadowed (root tail : Entries) (key : Key) (node : Node)
    (own : key.name ∉ membershipKeys) (there : key.name ∈ root.names) :
    lift root (.cons key node tail) =
      ((lift root tail).1, { (lift root tail).2 with
        shadowed := key.name :: (lift root tail).2.shadowed }) := by
  rw [lift, if_neg (List.contains_iff_mem.not.mpr own),
    if_pos ((Entries.contains_iff_mem_names _ _).mpr there)]

theorem lift_moved (root tail : Entries) (key : Key) (node : Node) (moves : Moves root key.name) :
    lift root (.cons key node tail) = ((lift (root.put key.name node) tail).1,
      { (lift (root.put key.name node) tail).2 with
        moved := key.name :: (lift (root.put key.name node) tail).2.moved }) := by
  rw [lift, if_neg (List.contains_iff_mem.not.mpr moves.1),
    if_neg ((Entries.contains_iff_mem_names _ _).not.mpr moves.2)]

theorem mem_names_put (root : Entries) (name other : String) (node : Node) (differs : other ≠ name) :
    other ∈ (root.put name node).names ↔ other ∈ root.names := by
  rw [← Entries.contains_iff_mem_names, Entries.contains_put, decide_eq_false differs, Bool.false_or,
    Entries.contains_iff_mem_names]

theorem moves_put (root : Entries) (name other : String) (node : Node) (differs : other ≠ name) :
    Moves (root.put name node) other ↔ Moves root other :=
  and_congr_right fun _ => not_congr (mem_names_put root name other node differs)

-- What each key meets is there before any of them moves, since a section has no key twice.
theorem keys_lift (root entries : Entries) (distinct : entries.names.Nodup) :
    (lift root entries).2 =
      ⟨entries.names.filter (Moves root),
        (entries.names.filter (· ∉ membershipKeys)).filter (· ∈ root.names),
        entries.names.filter (· ∈ membershipKeys)⟩ := by
  induction entries generalizing root with
  | nil => rfl
  | cons key node tail ih =>
    obtain ⟨missing, distinctTail⟩ := List.nodup_cons.mp distinct
    rw [Entries.names]
    by_cases shared : key.name ∈ membershipKeys
    · rw [lift_discarded root tail key node shared, ih root distinctTail]
      simp [Moves, shared]
    · by_cases there : key.name ∈ root.names
      · rw [lift_shadowed root tail key node shared there, ih root distinctTail]
        simp [Moves, shared, there]
      · have differs : ∀ name ∈ tail.names, name ≠ key.name := by
          rintro name member rfl
          exact missing member
        have moves : tail.names.filter (Moves (root.put key.name node)) =
            tail.names.filter (Moves root) :=
          List.filter_congr fun name member =>
            decide_eq_decide.mpr (moves_put root key.name name node (differs name member))
        have shadows : (tail.names.filter (· ∉ membershipKeys)).filter
              (· ∈ (root.put key.name node).names) =
            (tail.names.filter (· ∉ membershipKeys)).filter (· ∈ root.names) :=
          List.filter_congr fun name member => decide_eq_decide.mpr
            (mem_names_put root key.name name node (differs name (List.mem_of_mem_filter member)))
        rw [lift_moved root tail key node ⟨shared, there⟩, ih _ distinctTail, moves, shadows]
        simp [Moves, shared, there]

theorem perm_sorted (names first second : List String) :
    (names.filter (· ∈ first) ++ ((names.filter (· ∉ first)).filter (· ∈ second) ++
      (names.filter (· ∉ first)).filter (· ∉ second))).Perm names := by
  have rest := List.filter_append_perm (· ∈ second) (names.filter (· ∉ first))
  have all := List.filter_append_perm (· ∈ first) names
  simp only [← decide_not] at rest all
  exact (List.Perm.append_left _ rest).trans all

theorem filter_moves (root : Entries) (names : List String) :
    names.filter (Moves root) = (names.filter (· ∉ membershipKeys)).filter (· ∉ root.names) := by
  rw [List.filter_filter]
  refine List.filter_congr fun name _ => ?_
  rw [← Bool.decide_and]
  exact decide_eq_decide.mpr and_comm

theorem to_list_lift (root entries : Entries) (distinct : entries.names.Nodup) :
    (lift root entries).1.toList = root.toList ++
      (entries.toList.filter fun entry => Moves root entry.1.name).map
        fun entry => (.fresh entry.1.name, entry.2) := by
  induction entries generalizing root with
  | nil => exact (List.append_nil _).symm
  | cons key node tail ih =>
    obtain ⟨missing, distinctTail⟩ := List.nodup_cons.mp distinct
    rw [Entries.toList]
    by_cases moves : Moves root key.name
    · have kept : (tail.toList.filter fun entry => Moves (root.put key.name node) entry.1.name) =
          tail.toList.filter fun entry => Moves root entry.1.name := by
        refine List.filter_congr fun entry member => ?_
        have differs : entry.1.name ≠ key.name := by
          intro same
          rw [← same] at missing
          exact missing (Entries.mem_names_of_mem tail entry member)
        exact decide_eq_decide.mpr (moves_put root key.name _ node differs)
      rw [lift_moved root tail key node moves, ih _ distinctTail, kept,
        Entries.to_list_put_of_missing _ _ _ moves.2, List.filter_cons_of_pos (by simpa using moves),
        List.map_cons, List.append_assoc, List.singleton_append]
    · rw [List.filter_cons_of_neg (by simpa using moves), ← ih root distinctTail]
      by_cases shared : key.name ∈ membershipKeys
      · rw [lift_discarded root tail key node shared]
      · have there : key.name ∈ root.names := by
          by_contra absent
          exact moves ⟨shared, absent⟩
        rw [lift_shadowed root tail key node shared there]

end Workspace

theorem Node.under_header?_data (node : Node) (entries : Entries) (inner : node.entries? = some entries) :
    ∃ bared, node.underHeader? = some bared ∧ bared.names = entries.names ∧
      bared.toList.map (fun entry => (entry.1.name, entry.2.data)) =
        entries.toList.map (fun entry => (entry.1.name, entry.2.data)) ∧
      ∀ style, node = .table style entries → bared = entries := by
  cases node with
  | inline style own =>
    cases inner
    refine ⟨entries.unbraced, rfl, entries.names_unbraced, ?_, fun style same => by cases same⟩
    rw [Entries.to_list_unbraced, List.map_map]
    exact List.map_congr_left fun entry _ => Prod.ext rfl (entry.2.data_with_margin .unset)
  | table style own =>
    cases inner
    exact ⟨entries, rfl, rfl, rfl, fun _ _ => rfl⟩
  | scalar margin value => cases inner
  | array style elements => cases inner
  | tables elements => cases inner

namespace Document

def ownEntries (document : Document) : List (Key × Node) :=
  document.root.toList.filter fun entry => entry.1.name ≠ "workspace"

def ownNames (document : Document) : List String := document.ownEntries.map (·.1.name)

theorem to_list_erase_workspace (document : Document) :
    (document.root.erase "workspace").toList = document.ownEntries :=
  document.root.to_list_erase "workspace"

theorem names_erase_workspace (document : Document) :
    (document.root.erase "workspace").names = document.ownNames := by
  rw [Entries.names_eq_map_to_list, to_list_erase_workspace, ownNames]

theorem lift_workspace_of_value (document : Document) (node : Node)
    (found : document.root.get? "workspace" = some node) (isValue : node.isTable = false) :
    document.liftWorkspace.1.root.toList = document.ownEntries ∧
      document.liftWorkspace.2.keys = .none := by
  have bare : node.underHeader? = none := by
    cases node with
    | inline style entries => cases isValue
    | table style entries => cases isValue
    | scalar margin value => rfl
    | array style elements => rfl
    | tables elements => rfl
  rw [liftWorkspace, found]
  dsimp only
  rw [bare]
  exact ⟨document.to_list_erase_workspace, rfl⟩

theorem lift_workspace_of_section (document : Document) (node : Node) (entries : Entries)
    (found : document.root.get? "workspace" = some node) (inner : node.underHeader? = some entries) :
    document.liftWorkspace =
      ({ document with root := (Workspace.lift (document.root.erase "workspace") entries).1 },
        .lifted (Workspace.lift (document.root.erase "workspace") entries).2) := by
  rw [liftWorkspace, found]
  dsimp only
  rw [inner]

theorem trailing_lift_workspace (document : Document) :
    document.liftWorkspace.1.trailing = document.trailing := by
  rw [liftWorkspace]
  cases document.root.get? "workspace" with
  | none => rfl
  | some node =>
    dsimp only
    cases node.underHeader? <;> rfl

-- Each key of a section `workspace` is told of once: as discarded, else as shadowed by a key at the
-- top, else as moved. The top is what it was beside the section, and behind it what moved, with the
-- data it had and, from under a header, as it was written.
theorem lift_workspace_partition (document : Document) (distinct : document.Distinct) :
    document.liftWorkspace.1.trailing = document.trailing ∧
    (document.root.get? "workspace" = none →
      document.liftWorkspace.1 = document ∧ document.liftWorkspace.2.keys = .none) ∧
    (∀ node, document.root.get? "workspace" = some node → node.isTable = false →
      document.liftWorkspace.1.root.toList = document.ownEntries ∧
        document.liftWorkspace.2.keys = .none) ∧
    ∀ node entries, document.root.get? "workspace" = some node → node.entries? = some entries →
      ∃ keys moved, document.liftWorkspace.2 = .lifted keys ∧
        keys.discarded = entries.names.filter (· ∈ Workspace.membershipKeys) ∧
        keys.shadowed = (entries.names.filter (· ∉ Workspace.membershipKeys)).filter
          (· ∈ document.ownNames) ∧
        keys.moved = (entries.names.filter (· ∉ Workspace.membershipKeys)).filter
          (· ∉ document.ownNames) ∧
        (keys.discarded ++ (keys.shadowed ++ keys.moved)).Perm entries.names ∧
        (keys.discarded ++ (keys.shadowed ++ keys.moved)).Nodup ∧
        document.liftWorkspace.1.root.toList = document.ownEntries ++ moved ∧
        moved.map (fun entry => (entry.1.name, entry.2.data)) =
          (entries.toList.filter fun entry => entry.1.name ∈ keys.moved).map
            (fun entry => (entry.1.name, entry.2.data)) ∧
        ∀ style, node = .table style entries →
          moved.map (fun entry => (entry.1.name, entry.2)) =
            (entries.toList.filter fun entry => entry.1.name ∈ keys.moved).map
              (fun entry => (entry.1.name, entry.2)) := by
  refine ⟨document.trailing_lift_workspace, fun absent => ?_, fun node found isValue =>
    document.lift_workspace_of_value node found isValue, fun node entries found inner => ?_⟩
  · rw [document.lift_workspace_of_missing (by rw [Entries.contains, absent]; rfl)]
    exact ⟨rfl, rfl⟩
  obtain ⟨bared, header, names, data, same⟩ := node.under_header?_data entries inner
  have single : entries.names.Nodup := Entries.names_nodup entries
    (Entries.distinct_entries? node (Entries.distinct_get? _ distinct _ node found) entries inner)
  have keys := Workspace.keys_lift (document.root.erase "workspace") bared (names ▸ single)
  have list := Workspace.to_list_lift (document.root.erase "workspace") bared (names ▸ single)
  rw [names, Workspace.filter_moves, names_erase_workspace] at keys
  rw [to_list_erase_workspace] at list
  -- Which entries move can be told from the keys that do.
  have told : (entries.toList.filter fun entry => entry.1.name ∈
      (entries.names.filter (· ∉ Workspace.membershipKeys)).filter (· ∉ document.ownNames)) =
      entries.toList.filter fun entry =>
        Workspace.Moves (document.root.erase "workspace") entry.1.name := by
    refine List.filter_congr fun entry member => decide_eq_decide.mpr ?_
    have there := Entries.mem_names_of_mem entries entry member
    rw [← names_erase_workspace, ← Workspace.filter_moves, List.mem_filter, decide_eq_true_eq]
    exact and_iff_right there
  have perm := Workspace.perm_sorted entries.names Workspace.membershipKeys document.ownNames
  rw [document.lift_workspace_of_section node bared found header]
  refine ⟨_, _, congrArg WorkspaceFate.lifted keys, rfl, rfl, rfl, perm, perm.nodup_iff.mpr single,
    list, ?_, fun style isTable => ?_⟩
  · have chosen := congrArg (List.filter fun pair : String × Data =>
      Workspace.Moves (document.root.erase "workspace") pair.1) data
    rw [List.filter_map, List.filter_map] at chosen
    rw [told, List.map_map]
    exact chosen
  · rw [told, same style isTable, List.map_map]
    rfl

theorem lift_workspace_partition_braces :
    ∃ document keys moved,
      parse? "a = 1\nworkspace = \x7b members = [], a = 2, b.c = 3 \x7d\n" = some document ∧
      document.liftWorkspace.2 = .lifted keys ∧
      keys.discarded = ["members"] ∧ keys.shadowed = ["a"] ∧ keys.moved = ["b"] ∧
      document.liftWorkspace.1.root.toList = document.ownEntries ++ moved ∧
      moved.map (fun entry => (entry.1.name, entry.2.data)) =
        [("b", .object (.cons "c" (.integer 3) .nil))] := by
  have fits : ((parse? "a = 1\nworkspace = \x7b members = [], a = 2, b.c = 3 \x7d\n").bind
      fun document => (document.root.get? "workspace").bind fun node => node.entries?.map fun entries =>
        (decide document.Distinct, document.ownNames, entries.toList.map fun entry =>
          (entry.1.name, entry.2.data))) =
      some (true, ["a"], [("members", .list .nil), ("a", .integer 2),
        ("b", .object (.cons "c" (.integer 3) .nil))]) := by
    decide +kernel
  obtain ⟨document, read, fits⟩ := Option.bind_eq_some_iff.mp fits
  obtain ⟨node, found, fits⟩ := Option.bind_eq_some_iff.mp fits
  obtain ⟨entries, inner, fits⟩ := Option.map_eq_some_iff.mp fits
  simp only [Prod.mk.injEq, decide_eq_true_eq] at fits
  obtain ⟨distinct, own, data⟩ := fits
  have names : entries.names = ["members", "a", "b"] := by
    have first := congrArg (List.map Prod.fst) data
    rw [List.map_map] at first
    exact (Entries.names_eq_map_to_list _).trans first
  obtain ⟨keys, moved, fate, discarded, shadowed, isMoved, -, -, list, same, -⟩ :=
    (lift_workspace_partition document distinct).2.2.2 node entries found inner
  rw [names, own] at shadowed isMoved
  rw [names] at discarded
  refine ⟨document, keys, moved, read, fate, discarded, shadowed, isMoved, list, ?_⟩
  have chosen := congrArg (List.filter fun pair : String × Data => pair.1 ∈ keys.moved) data
  rw [List.filter_map] at chosen
  rw [same]
  refine chosen.trans ?_
  rw [isMoved]
  rfl

end Document

end Reroot
