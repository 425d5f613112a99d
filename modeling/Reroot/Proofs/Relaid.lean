import Reroot.Document.Reader
import Reroot.Proofs.Union

set_option autoImplicit false

namespace Reroot

namespace Entries

theorem put_put (name : String) (node : Node) (entries : Entries) :
    (entries.put name node).put name node = entries.put name node := by
  induction entries with
  | nil => exact if_pos rfl
  | cons key value tail ih =>
    rw [put]
    split
    · exact if_pos rfl
    · case isFalse differs => rw [put, if_neg differs, ih]

theorem put_put_other (name other : String) (differs : other ≠ name) (node value : Node)
    (entries : Entries) (rests : entries.put name node = entries) :
    (entries.put other value).put name node = entries.put other value := by
  induction entries with
  | nil => cases rests
  | cons key own tail ih =>
    rw [put] at rests
    by_cases same : key.name = name
    · rw [if_pos same] at rests
      have kept : ¬ key.name = other := fun hit => differs (hit.symm.trans same)
      obtain ⟨fresh, here, -⟩ := Entries.cons.inj rests
      rw [put, if_neg kept, put, if_pos same, fresh, here]
    · rw [if_neg same] at rests
      have later := (Entries.cons.inj rests).2.2
      rw [put]
      split
      · rw [put, if_neg (show ¬ (Key.fresh other).name = name from differs), later]
      · rw [put, if_neg same, ih later]

theorem modify_of_get? (name : String) (change : Node → Node) (node : Node) (entries : Entries)
    (found : entries.get? name = some node) (still : change node = node) :
    entries.modify name change = entries := by
  induction entries with
  | nil => cases found
  | cons key own tail ih =>
    rw [get?] at found
    rw [modify]
    split
    · case isTrue same =>
      rw [if_pos same] at found
      cases found
      rw [still]
    · case isFalse differs =>
      rw [if_neg differs] at found
      rw [ih found]

end Entries

namespace Fragment

theorem put_entry_put_entry (name : String) (node place : Node) :
    (place.putEntry name node).putEntry name node = place.putEntry name node := by
  cases place with
  | inline style entries => exact congrArg (Node.inline style) (entries.put_put name node.toValue)
  | table style entries => exact congrArg (Node.table style) (entries.put_put name node)
  | scalar margin value => rfl
  | array style elements => rfl
  | tables elements => rfl

theorem put_entry_put_entry_other (name other : String) (differs : other ≠ name) (node value : Node)
    (place : Node) (rests : place.putEntry name node = place) :
    (place.putEntry other value).putEntry name node = place.putEntry other value := by
  cases place with
  | inline style entries =>
    exact congrArg (Node.inline style)
      (entries.put_put_other name other differs _ _ (Node.inline.inj rests).2)
  | table style entries =>
    exact congrArg (Node.table style)
      (entries.put_put_other name other differs _ _ (Node.table.inj rests).2)
  | scalar margin value => rfl
  | array style elements => rfl
  | tables elements => rfl

theorem put_all_of_rests (entries : Entries) (place : Node)
    (rests : ∀ entry ∈ entries.toList, place.putEntry entry.1.name entry.2 = place) :
    putAll entries place = place := by
  induction entries with
  | nil => rfl
  | cons key node tail ih =>
    obtain ⟨here, later⟩ := List.forall_mem_cons.mp rests
    rw [putAll, here, ih later]

theorem rests_put_all_other (name : String) (node : Node) (entries : Entries) (place : Node)
    (missing : name ∉ entries.names) (rests : place.putEntry name node = place) :
    (putAll entries place).putEntry name node = putAll entries place := by
  induction entries generalizing place with
  | nil => exact rests
  | cons key value tail ih =>
    obtain ⟨differs, later⟩ := not_or.mp (List.mem_cons.not.mp missing)
    exact ih _ later (put_entry_put_entry_other name key.name (Ne.symm differs) node value place rests)

theorem rests_put_all (entries : Entries) (distinct : entries.names.Nodup) (place : Node) :
    ∀ entry ∈ entries.toList,
      (putAll entries place).putEntry entry.1.name entry.2 = putAll entries place := by
  induction entries generalizing place with
  | nil => exact List.forall_mem_nil _
  | cons key node tail ih =>
    obtain ⟨missing, distinctTail⟩ := List.nodup_cons.mp distinct
    refine List.forall_mem_cons.mpr ⟨?_, ih distinctTail _⟩
    exact rests_put_all_other key.name node tail _ missing (put_entry_put_entry key.name node place)

theorem put_all_put_all (entries : Entries) (distinct : entries.names.Nodup) (place : Node) :
    putAll entries (putAll entries place) = putAll entries place :=
  put_all_of_rests entries _ (rests_put_all entries distinct place)

theorem landed_landed (node : Node) (there : Option Node)
    (distinct : ∀ entries, node.entries? = some entries → entries.names.Nodup) :
    ∃ place, (landed node there).1 = some place ∧
      landed node (some place) =
        (some place, if node.isTable then (landed node there).2 else .kept) := by
  cases inner : node.entries? with
  | none =>
    have isValue : node.isTable = false := by rw [Node.isTable, inner]; rfl
    simp only [landed, inner, isValue]
    cases there with
    | none => exact ⟨node, rfl, rfl⟩
    | some place => exact ⟨place, rfl, rfl⟩
  | some entries =>
    have isTable : node.isTable = true := by rw [Node.isTable, inner]; rfl
    simp only [landed, inner, isTable, if_true]
    by_cases joins : (there.getD (emptySection node)).isTable = true
    · refine ⟨putAll entries (there.getD (emptySection node)), by rw [if_pos joins], ?_⟩
      rw [if_pos joins, Option.getD_some, if_pos ((is_table_put_all _ _).trans joins),
        put_all_put_all entries (distinct entries inner)]
    · cases there with
      | none => exact absurd (is_table_empty_section node) joins
      | some place =>
        rw [if_neg joins]
        exact ⟨place, rfl, if_neg joins⟩

theorem overlay_of_landed (name : String) (node place : Node) (root : Entries)
    (there : root.get? name = some place) (still : (landed node (some place)).1 = some place) :
    (overlay name node root).1 = root := by
  have contains : root.contains name = true := by rw [Entries.contains, there]; rfl
  rw [overlay]
  cases inner : node.entries? with
  | none =>
    dsimp only
    rw [if_pos contains]
  | some entries =>
    simp only [landed, inner, Option.getD_some] at still
    dsimp only
    rw [if_pos contains, there, Option.map_some, Option.getD_some]
    by_cases joins : place.isTable = true
    · rw [if_pos joins] at still ⊢
      exact Entries.modify_of_get? name _ place root there (Option.some.inj still)
    · rw [if_neg joins]

theorem overlay_all_of_landed (root entries : Entries)
    (still : ∀ entry ∈ entries.toList, ∃ place, root.get? entry.1.name = some place ∧
      (landed entry.2 (some place)).1 = some place) : (overlayAll root entries).1 = root := by
  induction entries with
  | nil => rfl
  | cons key node tail ih =>
    obtain ⟨⟨place, there, same⟩, later⟩ := List.forall_mem_cons.mp still
    rw [overlayAll]
    dsimp only
    rw [overlay_of_landed key.name node place root there same]
    exact ih later

theorem fates_overlay_all (root entries : Entries) (distinct : entries.names.Nodup) :
    (overlayAll root entries).2 =
      entries.toList.map fun entry => (entry.1.name, (landed entry.2 (root.get? entry.1.name)).2) := by
  induction entries generalizing root with
  | nil => rfl
  | cons key node tail ih =>
    obtain ⟨missing, distinctTail⟩ := List.nodup_cons.mp distinct
    obtain ⟨fate, there⟩ := overlay_landed key.name node root
    rw [overlayAll]
    dsimp only
    rw [ih _ distinctTail, fate, Entries.toList, List.map_cons]
    refine congrArg (List.cons _) (List.map_congr_left fun entry member => ?_)
    have differs : entry.1.name ≠ key.name := by
      intro same
      rw [← same] at missing
      exact missing (tail.mem_names_of_mem entry member)
    rw [there, if_neg differs]

end Fragment

namespace Fates

theorem skipped_eq_filter (fates : Fates) (distinct : (fates.map Prod.fst).Nodup) :
    fates.skipped = (fates.map Prod.fst).filter (· ∉ fates.merged) := by
  rw [skipped, List.filter_map]
  refine congrArg (List.map Prod.fst) (List.filter_congr fun fate member => ?_)
  have told := (fates.mem_iff distinct fate.1 fate.2 member).1
  rw [Function.comp_apply, Bool.eq_iff_iff]
  simp [told]

theorem merged_map (entries : List (Key × Node)) (fate : Key × Node → SectionFate) :
    merged (entries.map fun entry => (entry.1.name, fate entry)) =
      (entries.filter fun entry => fate entry == .merged).map (·.1.name) := by
  rw [merged, List.filter_map, List.map_map]
  rfl

end Fates

namespace Document

-- Laying a fragment over a manifest again leaves the manifest as it is, keys and formatting included.
-- Told of as merged are those of the fragment's tables that were merged at first, and all other keys
-- as skipped.
theorem overlay_overlay (document fragment : Document) (distinct : fragment.Distinct) :
    ((document.overlay fragment).1.overlay fragment).1 = (document.overlay fragment).1 ∧
    ((document.overlay fragment).1.overlay fragment).2.merged =
      (document.overlay fragment).2.merged.filter (fun name =>
        ((fragment.root.get? name).map Node.isTable).getD false) ∧
    ((document.overlay fragment).1.overlay fragment).2.skipped =
      fragment.root.names.filter fun name =>
        name ∉ ((document.overlay fragment).1.overlay fragment).2.merged := by
  have names := fragment.root.names_nodup distinct
  have found := fragment.root.get?_of_mem names
  have each : ∀ entry ∈ fragment.root.toList, ∃ place,
      (document.overlay fragment).1.root.get? entry.1.name = some place ∧
      Fragment.landed entry.2 (some place) = (some place, if entry.2.isTable then
        (Fragment.landed entry.2 (document.root.get? entry.1.name)).2 else .kept) := by
    intro entry member
    have there := Fragment.get?_overlay_all document.root fragment.root names entry.1.name
    rw [found entry member] at there
    obtain ⟨place, landed, again⟩ := Fragment.landed_landed entry.2 (document.root.get? entry.1.name)
      fun entries inner => Entries.names_nodup _ (Entries.distinct_entries? entry.2
        (Entries.distinct_get? _ distinct entry.1.name entry.2 (found entry member)) entries inner)
    exact ⟨place, there.trans landed, again⟩
  have still : (Fragment.overlayAll (document.overlay fragment).1.root fragment.root).1 =
      (document.overlay fragment).1.root := by
    refine Fragment.overlay_all_of_landed _ _ fun entry member => ?_
    obtain ⟨place, there, again⟩ := each entry member
    exact ⟨place, there, by rw [again]⟩
  have fates : ((document.overlay fragment).1.overlay fragment).2 =
      fragment.root.toList.map fun entry => (entry.1.name, if entry.2.isTable then
        (Fragment.landed entry.2 (document.root.get? entry.1.name)).2 else .kept) := by
    rw [fates_overlay, Fragment.fates_overlay_all _ _ names]
    refine List.map_congr_left fun entry member => ?_
    obtain ⟨place, there, again⟩ := each entry member
    rw [there, again]
  refine ⟨congrArg (fun root => { (document.overlay fragment).1 with root := root }) still, ?_, ?_⟩
  · rw [fates, fates_overlay, Fragment.fates_overlay_all _ _ names, Fates.merged_map, Fates.merged_map,
      List.filter_map, List.filter_filter]
    refine congrArg (List.map _) (List.filter_congr fun entry member => ?_)
    rw [Function.comp_apply, found entry member, Option.map_some, Option.getD_some]
    cases entry.2.isTable <;> rfl
  · have told := Fragment.names_fates (document.overlay fragment).1.root fragment.root
    rw [← fates_overlay] at told
    rw [Fates.skipped_eq_filter _ (told ▸ names), told]

theorem overlay_overlay_braces :
    ∃ document fragment,
      parse? "x = \x7b a = 1, b = 2 \x7d\nz = 0\n" = some document ∧
      parse? "v = 3\n[x]\n# c\nb.k = 4\n[x.d]\n[y.e]\n[z]\n" = some fragment ∧
      (document.overlay fragment).2.merged = ["v", "x", "y"] ∧
      ((document.overlay fragment).1.overlay fragment).1 = (document.overlay fragment).1 ∧
      ((document.overlay fragment).1.overlay fragment).2.merged = ["x", "y"] ∧
      ((document.overlay fragment).1.overlay fragment).2.skipped = ["v", "z"] := by
  have fits : ((parse? "x = \x7b a = 1, b = 2 \x7d\nz = 0\n").bind fun document =>
      (parse? "v = 3\n[x]\n# c\nb.k = 4\n[x.d]\n[y.e]\n[z]\n").map fun fragment =>
        (decide fragment.Distinct, fragment.root.names, (document.overlay fragment).2.merged,
          ["v", "x", "y"].map fun name => ((fragment.root.get? name).map Node.isTable).getD false)) =
      some (true, ["v", "x", "y", "z"], ["v", "x", "y"], [false, true, true]) := by
    decide +kernel
  obtain ⟨document, read, fits⟩ := Option.bind_eq_some_iff.mp fits
  obtain ⟨fragment, read', fits⟩ := Option.map_eq_some_iff.mp fits
  simp only [Prod.mk.injEq, decide_eq_true_eq] at fits
  obtain ⟨distinct, names, merged, tables⟩ := fits
  obtain ⟨same, again, skipped⟩ := document.overlay_overlay fragment distinct
  have isMerged : ((document.overlay fragment).1.overlay fragment).2.merged = ["x", "y"] := by
    simp only [List.map_cons, List.map_nil, List.cons.injEq, and_true] at tables
    rw [again, merged]
    simp [tables]
  refine ⟨document, fragment, read, read', merged, same, isMerged, ?_⟩
  rw [skipped, isMerged, names]
  decide

end Document

end Reroot
