import Reroot.Document.Reader
import Reroot.Proofs.Relaid
import Reroot.Proofs.Repeated

set_option autoImplicit false

namespace Reroot

namespace Entries

theorem to_list_injective {first second : Entries} (same : first.toList = second.toList) :
    first = second := by
  induction first generalizing second with
  | nil =>
    cases second with
    | nil => rfl
    | cons key node tail => cases same
  | cons key node tail ih =>
    cases second with
    | nil => cases same
    | cons other value rest =>
      obtain ⟨entry, later⟩ := List.cons.inj same
      cases entry
      rw [ih later]

theorem to_list_erase_all (names : List String) (entries : Entries) :
    (entries.eraseAll names).1.toList = entries.toList.filter (·.1.name ∉ names) := by
  induction names generalizing entries with
  | nil => simp [eraseAll]
  | cons name names ih =>
    -- A name that is not there takes nothing out either.
    have erased : ((entries.erase name).eraseAll names).1.toList =
        entries.toList.filter (·.1.name ∉ name :: names) := by
      rw [ih, to_list_erase, List.filter_filter]
      refine List.filter_congr fun entry _ => ?_
      simp [Bool.and_comm]
    rw [eraseAll]
    by_cases there : entries.contains name = true
    · rw [if_pos there]
      exact erased
    · rw [if_neg there, ← erased]
      have missing := mt (contains_iff_mem_names name entries).mpr there
      rw [show entries.erase name = entries from to_list_injective ?_]
      rw [to_list_erase, List.filter_eq_self]
      intro entry member
      refine decide_eq_true fun same => missing ?_
      exact same ▸ mem_names_of_mem entries entry member

theorem erase_all_congr (names other : List String) (entries : Entries)
    (same : ∀ name, name ∈ names ↔ name ∈ other) :
    (entries.eraseAll names).1 = (entries.eraseAll other).1 := by
  apply to_list_injective
  rw [to_list_erase_all, to_list_erase_all]
  exact List.filter_congr fun entry _ => decide_eq_decide.mpr (not_congr (same entry.1.name))

theorem erase_all_append (first second : List String) (entries : Entries) :
    entries.eraseAll (first ++ second) =
      (((entries.eraseAll first).1.eraseAll second).1,
        (entries.eraseAll first).2 ++ ((entries.eraseAll first).1.eraseAll second).2) := by
  induction first generalizing entries with
  | nil => rfl
  | cons name first ih =>
    rw [List.cons_append, eraseAll, eraseAll]
    by_cases there : entries.contains name = true
    · rw [if_pos there, if_pos there, ih]
      rfl
    · rw [if_neg there, if_neg there, ih]

-- Each decision depends on those before it: a name that was removed is not there any more.
theorem removed_erase_all (names : List String) (entries : Entries) :
    (entries.eraseAll names).2 = (names.filter (· ∈ entries.names)).eraseDups := by
  induction names generalizing entries with
  | nil => rfl
  | cons name names ih =>
    have iff := contains_iff_mem_names name entries
    rw [eraseAll]
    by_cases there : entries.contains name = true
    · rw [if_pos there, List.filter_cons_of_pos (by simpa using iff.mp there), List.eraseDups_cons,
        List.filter_filter]
      change name :: ((entries.erase name).eraseAll names).2 = _
      rw [ih, names_erase]
      refine congrArg (name :: List.eraseDups ·) (List.filter_congr fun other _ => ?_)
      by_cases same : other = name <;> simp [same]
    · rw [if_neg there, ih, List.filter_cons_of_neg (by simpa using mt iff.mpr there)]

theorem to_list_modify (name : String) (node : Node) (entries : Entries)
    (found : entries.get? name = some node) :
    ∃ before key after, key.name = name ∧ (∀ entry ∈ before, entry.1.name ≠ name) ∧
      entries.toList = before ++ (key, node) :: after ∧
      ∀ change : Node → Node,
        (entries.modify name change).toList = before ++ (key, change node) :: after := by
  induction entries with
  | nil => cases found
  | cons key own tail ih =>
    rw [get?] at found
    split at found
    · next same =>
      cases found
      refine ⟨[], key, tail.toList, same, List.forall_mem_nil _, rfl, fun change => ?_⟩
      rw [modify, if_pos same]
      rfl
    · next other =>
      obtain ⟨before, inner, after, same, missing, list, changed⟩ := ih found
      refine ⟨(key, own) :: before, inner, after, same, List.forall_mem_cons.mpr ⟨other, missing⟩, ?_,
        fun change => ?_⟩
      · rw [toList, list]
        rfl
      · rw [modify, if_neg other, toList, changed change]
        rfl

theorem modify_of_missing (name : String) (change : Node → Node) (entries : Entries)
    (missing : entries.get? name = none) : entries.modify name change = entries := by
  induction entries with
  | nil => rfl
  | cons key node tail ih =>
    rw [get?] at missing
    split at missing
    · cases missing
    · next other => rw [modify, if_neg other, ih missing]

theorem modify_modify (name : String) (change change' : Node → Node) (entries : Entries) :
    (entries.modify name change).modify name change' =
      entries.modify name (fun node => change' (change node)) := by
  induction entries with
  | nil => rfl
  | cons key node tail ih =>
    by_cases same : key.name = name
    · simp [modify, same]
    · simp [modify, same, ih]

end Entries

namespace Node

theorem without_of_entries? (names : List String) (node : Node) (entries : Entries)
    (inner : node.entries? = some entries) :
    node.without names = node.withEntries (entries.eraseAll names).1 := by
  rw [without, inner]

theorem without_append (first second : List String) (node : Node) :
    node.without (first ++ second) = (node.without first).without second := by
  cases node with
  | inline style entries => exact congrArg (inline style ·.1) (entries.erase_all_append first second)
  | table style entries => exact congrArg (table style ·.1) (entries.erase_all_append first second)
  | scalar margin value => rfl
  | array style elements => rfl
  | tables elements => rfl

theorem without_congr (names other : List String) (node : Node)
    (same : ∀ name, name ∈ names ↔ name ∈ other) : node.without names = node.without other := by
  cases node with
  | inline style entries => exact congrArg (inline style) (entries.erase_all_congr names other same)
  | table style entries => exact congrArg (table style) (entries.erase_all_congr names other same)
  | scalar margin value => rfl
  | array style elements => rfl
  | tables elements => rfl

end Node

namespace Document

def dependencies? (document : Document) : Option Entries :=
  (document.root.get? "dependencies").bind Node.entries?

theorem drop_dependencies_of_none (names : List String) (document : Document)
    (none : document.dependencies? = none) : document.dropDependencies names = (document, []) := by
  rw [dropDependencies]
  rw [dependencies?] at none
  rw [none]

theorem removed_drop_dependencies (names : List String) (document : Document) (entries : Entries)
    (inner : document.dependencies? = some entries) :
    (document.dropDependencies names).2 = (entries.eraseAll names).2 := by
  rw [dropDependencies]
  rw [dependencies?] at inner
  rw [inner]

theorem drop_dependencies_eq (names : List String) (document : Document) :
    (document.dropDependencies names).1 =
      { document with root := document.root.modify "dependencies" (Node.without names) } := by
  have same (still : document.root.modify "dependencies" (Node.without names) = document.root)
      (none : document.dependencies? = none) : (document.dropDependencies names).1 =
        { document with root := document.root.modify "dependencies" (Node.without names) } := by
    rw [document.drop_dependencies_of_none names none, still]
  cases found : document.root.get? "dependencies" with
  | none =>
    refine same (Entries.modify_of_missing _ _ _ found) ?_
    rw [dependencies?, found]
    rfl
  | some node =>
    cases inner : node.entries? with
    | none =>
      refine same (Entries.modify_of_get? _ _ node _ found ?_) ?_
      · rw [Node.without, inner]
      · rw [dependencies?, found, Option.bind_some, inner]
    | some entries =>
      obtain ⟨before, key, after, -, -, -, changed⟩ := Entries.to_list_modify _ node _ found
      rw [dropDependencies, found, Option.bind_some, inner]
      refine congrArg (fun root => { document with root := root }) (Entries.to_list_injective ?_)
      rw [changed, changed, node.without_of_entries? names entries inner]

theorem dependencies?_drop_dependencies (names : List String) (document : Document) :
    (document.dropDependencies names).1.dependencies? =
      document.dependencies?.map fun entries => (entries.eraseAll names).1 := by
  rw [dependencies?, get?_drop_dependencies, if_pos rfl, dependencies?]
  cases document.root.get? "dependencies" with
  | none => rfl
  | some node => exact node.entries?_without names

theorem drop_dependencies_append (first second : List String) (document : Document) :
    document.dropDependencies (first ++ second) =
      (((document.dropDependencies first).1.dropDependencies second).1,
        (document.dropDependencies first).2 ++
          ((document.dropDependencies first).1.dropDependencies second).2) := by
  refine Prod.ext ?_ ?_
  · have both : Node.without (first ++ second) = fun node => (node.without first).without second :=
      funext fun node => node.without_append first second
    dsimp only
    rw [drop_dependencies_eq, drop_dependencies_eq second, drop_dependencies_eq first,
      Entries.modify_modify, both]
  · dsimp only
    cases inner : document.dependencies? with
    | none =>
      rw [document.drop_dependencies_of_none _ inner, document.drop_dependencies_of_none _ inner,
        document.drop_dependencies_of_none _ inner]
      rfl
    | some entries =>
      have left : (document.dropDependencies first).1.dependencies? =
          some (entries.eraseAll first).1 := by
        rw [dependencies?_drop_dependencies, inner]
        rfl
      rw [removed_drop_dependencies _ _ _ inner, removed_drop_dependencies _ _ _ inner,
        removed_drop_dependencies _ _ _ left, Entries.erase_all_append]

-- Dropping takes the set of the given names out of the section, in which all else keeps its place and its
-- form, and tells those that were there, each once and in the order of the names. Beside the section
-- nothing changes, and nothing at all where there is none. So names can be dropped in any order and in
-- several goes, and none is left to drop.
theorem drop_dependencies_set (document : Document) :
    (∀ names node entries, document.root.get? "dependencies" = some node →
      node.entries? = some entries → ∃ before key after kept,
        key.name = "dependencies" ∧ (∀ entry ∈ before, entry.1.name ≠ "dependencies") ∧
        document.root.toList = before ++ (key, node) :: after ∧
        (document.dropDependencies names).1.root.toList =
          before ++ (key, node.withEntries kept) :: after ∧
        (node.withEntries kept).entries? = some kept ∧
        kept.toList = entries.toList.filter (·.1.name ∉ names) ∧
        (document.dropDependencies names).2 = (names.filter (· ∈ entries.names)).eraseDups) ∧
    ((document.root.get? "dependencies").bind Node.entries? = none →
      ∀ names, document.dropDependencies names = (document, [])) ∧
    (∀ names, (document.dropDependencies names).1.trailing = document.trailing) ∧
    (∀ names other, (∀ name, name ∈ names ↔ name ∈ other) →
      (document.dropDependencies names).1 = (document.dropDependencies other).1) ∧
    (∀ first second,
      ((document.dropDependencies first).1.dropDependencies second).1 =
        (document.dropDependencies (first ++ second)).1 ∧
      ((document.dropDependencies first).1.dropDependencies second).1 =
        (document.dropDependencies (second ++ first)).1 ∧
      (document.dropDependencies first).2 ++
          ((document.dropDependencies first).1.dropDependencies second).2 =
        (document.dropDependencies (first ++ second)).2) ∧
    ∀ names, ((document.dropDependencies names).1.dropDependencies names).2 = [] := by
  have together (names other : List String) (same : ∀ name, name ∈ names ↔ name ∈ other) :
      (document.dropDependencies names).1 = (document.dropDependencies other).1 := by
    rw [drop_dependencies_eq, drop_dependencies_eq]
    rw [show Node.without names = Node.without other from
      funext fun node => node.without_congr names other same]
  refine ⟨fun names node entries found inner => ?_,
    fun none names => document.drop_dependencies_of_none names none, fun names => ?_, together,
    fun first second => ?_, fun names => ?_⟩
  · obtain ⟨before, key, after, same, missing, list, changed⟩ :=
      Entries.to_list_modify "dependencies" node _ found
    have own : document.dependencies? = some entries := by
      rw [dependencies?, found, Option.bind_some, inner]
    have kept := node.without_of_entries? names entries inner
    refine ⟨before, key, after, (entries.eraseAll names).1, same, missing, list, ?_, ?_,
      entries.to_list_erase_all names, ?_⟩
    · rw [drop_dependencies_eq, changed, kept]
    · rw [← kept, Node.entries?_without, inner]
      rfl
    · rw [removed_drop_dependencies _ _ _ own, Entries.removed_erase_all]
  · rw [drop_dependencies_eq]
  · have swapped := together (first ++ second) (second ++ first) fun name => by
      rw [List.mem_append, List.mem_append, or_comm]
    rw [← swapped, drop_dependencies_append]
    exact ⟨rfl, rfl, rfl⟩
  · cases own : document.dependencies? with
    | none => rw [document.drop_dependencies_of_none _ own, document.drop_dependencies_of_none _ own]
    | some entries =>
      have left : (document.dropDependencies names).1.dependencies? =
          some (entries.eraseAll names).1 := by
        rw [dependencies?_drop_dependencies, own]
        rfl
      rw [removed_drop_dependencies _ _ _ left, Entries.erase_all_of_missing]
      intro name member
      rw [Entries.get?_erase_all, if_pos member]

theorem drop_dependencies_set_dotted :
    ∃ document node entries before key after kept,
      parse? "x = 1\ndependencies.a = 1 # c\ndependencies.b.c = 2\n" = some document ∧
      document.root.get? "dependencies" = some node ∧ node.entries? = some entries ∧
      document.root.toList = before ++ (key, node) :: after ∧
      (document.dropDependencies ["b", "z", "b"]).1.root.toList =
        before ++ (key, node.withEntries kept) :: after ∧
      kept.toList = entries.toList.filter (·.1.name ∉ ["b", "z", "b"]) ∧
      (document.dropDependencies ["b", "z", "b"]).2 = ["b"] ∧
      (document.dropDependencies ["b", "z", "b"]).1.text = "x = 1\ndependencies.a = 1 # c\n".toList := by
  have fits : ((parse? "x = 1\ndependencies.a = 1 # c\ndependencies.b.c = 2\n").bind fun document =>
      document.dependencies?.map fun entries =>
        (entries.names, (document.dropDependencies ["b", "z", "b"]).1.text)) =
      some (["a", "b"], "x = 1\ndependencies.a = 1 # c\n".toList) := by
    decide +kernel
  obtain ⟨document, read, fits⟩ := Option.bind_eq_some_iff.mp fits
  obtain ⟨entries, own, fits⟩ := Option.map_eq_some_iff.mp fits
  obtain ⟨names, text⟩ := Prod.mk.inj fits
  obtain ⟨node, found, inner⟩ := Option.bind_eq_some_iff.mp own
  obtain ⟨before, key, after, kept, -, -, list, dropped, -, left, removed⟩ :=
    document.drop_dependencies_set.1 ["b", "z", "b"] node entries found inner
  refine ⟨document, node, entries, before, key, after, kept, read, found, inner, list, dropped, left, ?_,
    text⟩
  rw [removed, names]
  decide

end Document

end Reroot
