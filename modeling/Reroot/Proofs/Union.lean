import Reroot.Document.Data
import Reroot.Document.Reader
import Reroot.Proofs.Merged

set_option autoImplicit false

namespace Reroot

theorem Node.data_adopt (place node : Node) : (place.adopt node).data = node.data := by
  cases place with
  | inline style entries => exact node.data_to_value
  | scalar margin value => rfl
  | array style elements => rfl
  | table style entries => rfl
  | tables elements => rfl

namespace Entries

def keys (entries : Entries) : List Key := entries.toList.map (·.1)

theorem names_eq_map_keys (entries : Entries) : entries.names = entries.keys.map Key.name := by
  rw [names_eq_map_to_list, keys, List.map_map]
  rfl

theorem keys_put_of_missing (name : String) (node : Node) (entries : Entries)
    (missing : name ∉ entries.names) : (entries.put name node).keys = entries.keys ++ [.fresh name] := by
  rw [keys, keys, to_list_put_of_missing name node entries missing, List.map_append, List.map_singleton]

theorem keys_modify (name : String) (change : Node → Node) (entries : Entries) :
    (entries.modify name change).keys = entries.keys := by
  induction entries with
  | nil => rfl
  | cons key node tail ih =>
    rw [modify]
    split
    · rfl
    · rw [keys, keys, toList, toList, List.map_cons, List.map_cons]
      exact congrArg (List.cons key) ih

theorem to_list_put_of_mem (name : String) (node : Node) (entries : Entries)
    (distinct : entries.names.Nodup) (there : name ∈ entries.names) :
    (entries.put name node).toList =
      entries.toList.map fun entry => if entry.1.name = name then (.fresh name, node) else entry := by
  induction entries with
  | nil => cases there
  | cons key value tail ih =>
    obtain ⟨missing, distinctTail⟩ := List.nodup_cons.mp distinct
    rw [put, toList, List.map_cons]
    by_cases same : key.name = name
    · have rest :
          tail.toList.map (fun entry => if entry.1.name = name then (.fresh name, node) else entry) =
          tail.toList := by
        refine (List.map_congr_left fun entry member => if_neg fun hit => ?_).trans (List.map_id _)
        rw [same, ← hit] at missing
        exact missing (mem_names_of_mem tail entry member)
      rw [if_pos same, if_pos same, toList, rest]
    · have later : name ∈ tail.names := (List.mem_cons.mp there).resolve_left (Ne.symm same)
      rw [if_neg same, if_neg same, toList, ih distinctTail later]

end Entries

namespace Fragment

def renewed (take : Node → Node) (own : Entries) (entry : Key × Node) : Key × Node :=
  match own.get? entry.1.name with
  | some node => (.fresh entry.1.name, take node)
  | none => entry

def union (take : Node → Node) (base own : Entries) : List (Key × Node) :=
  base.toList.map (renewed take own) ++
    (own.toList.filter fun entry => entry.1.name ∉ base.names).map
      fun entry => (.fresh entry.1.name, take entry.2)

theorem union_cons (take : Node → Node) (base tail : Entries) (key : Key) (node : Node)
    (distinct : base.names.Nodup) (missing : key.name ∉ tail.names) :
    union take (base.put key.name (take node)) tail = union take base (.cons key node tail) := by
  have absent : tail.get? key.name = none := (Entries.get?_eq_none_iff _ _).mpr missing
  have other : ∀ entry : Key × Node, entry.1.name ≠ key.name →
      renewed take (.cons key node tail) entry = renewed take tail entry := by
    intro entry differs
    rw [renewed, renewed, Entries.get?, if_neg (Ne.symm differs)]
  have differs : ∀ entry ∈ tail.toList, entry.1.name ≠ key.name := by
    intro entry member same
    rw [← same] at missing
    exact missing (Entries.mem_names_of_mem tail entry member)
  rw [union, union, Entries.toList]
  by_cases there : key.name ∈ base.names
  · have names : (base.put key.name (take node)).names = base.names := by
      rw [Entries.names_put, if_pos ((Entries.contains_iff_mem_names _ _).mpr there)]
    rw [names, List.filter_cons_of_neg (by simpa using there),
      Entries.to_list_put_of_mem _ _ base distinct there, List.map_map]
    refine congrArg (· ++ _) (List.map_congr_left fun entry _ => ?_)
    rw [Function.comp_apply]
    split
    · case isTrue same =>
      have found : (Entries.cons key node tail).get? entry.1.name = some node := by
        rw [Entries.get?, if_pos same.symm]
      rw [renewed, renewed, found]
      simp only [Key.fresh, absent, same]
    · case isFalse differs => exact (other entry differs).symm
  · have names : (base.put key.name (take node)).names = base.names ++ [key.name] := by
      rw [Entries.names_put, if_neg ((Entries.contains_iff_mem_names _ _).not.mpr there)]
    have kept : (tail.toList.filter fun entry => entry.1.name ∉ base.names ++ [key.name]) =
        tail.toList.filter fun entry => entry.1.name ∉ base.names :=
      List.filter_congr fun entry member => by simp [differs entry member]
    have old : base.toList.map (renewed take (.cons key node tail)) =
        base.toList.map (renewed take tail) := by
      refine List.map_congr_left fun entry member => other entry fun same => there ?_
      rw [← same]
      exact Entries.mem_names_of_mem base entry member
    have new : renewed take tail (.fresh key.name, take node) =
        (.fresh key.name, take node) := by
      rw [renewed]
      simp only [Key.fresh, absent]
    rw [names, kept, old, List.filter_cons_of_pos (by simpa using there), List.map_cons,
      Entries.to_list_put_of_missing _ _ base there, List.map_append, List.map_singleton, new,
      List.append_assoc, List.singleton_append]

theorem to_list_put_all (own : Entries) (distinct : own.names.Nodup) (place : Node) (base : Entries)
    (inner : place.entries? = some base) (distinct' : base.names.Nodup) :
    ∃ all, putAll own place = place.withEntries all ∧ all.toList = union place.adopt base own := by
  induction own generalizing place base with
  | nil =>
    refine ⟨base, ?_, ?_⟩
    · cases place <;> cases inner <;> rfl
    · have same : base.toList.map (renewed place.adopt .nil) = base.toList := List.map_id _
      rw [union, same]
      exact (List.append_nil _).symm
  | cons key node tail ih =>
    obtain ⟨missing, distinctTail⟩ := List.nodup_cons.mp distinct
    have placed := entries?_put_entry place base inner key.name node
    have adopts : (place.putEntry key.name node).adopt = place.adopt :=
      funext (adopt_put_entry place key.name node)
    obtain ⟨all, result, list⟩ := ih distinctTail _ _ placed (Entries.nodup_put _ _ _ distinct')
    refine ⟨all, ?_, ?_⟩
    · rw [putAll, result, put_entry_eq place base inner]
      cases place <;> rfl
    · rw [list, adopts, union_cons place.adopt base tail key node distinct' missing]

theorem keys_overlay (name : String) (node : Node) (root : Entries) : (overlay name node root).1.keys =
    if name ∈ root.names then root.keys else root.keys ++ [.fresh name] := by
  have iff := Entries.contains_iff_mem_names name root
  rw [overlay]
  by_cases there : name ∈ root.names
  · rw [if_pos there, if_pos (iff.mpr there), if_pos (iff.mpr there)]
    cases node.entries? with
    | none => rfl
    | some entries =>
      dsimp only
      split
      · exact Entries.keys_modify name _ root
      · rfl
  · have put := fun value : Node => Entries.keys_put_of_missing name value root there
    rw [if_neg there, if_neg (iff.not.mpr there), if_neg (iff.not.mpr there)]
    cases node.entries? with
    | none => exact put node
    | some entries =>
      dsimp only
      split
      · exact (Entries.keys_modify name _ _).trans (put _)
      · exact put _

theorem keys_overlay_all (root entries : Entries) (distinct : entries.names.Nodup) :
    (overlayAll root entries).1.keys =
      root.keys ++ (entries.names.filter (· ∉ root.names)).map .fresh := by
  induction entries generalizing root with
  | nil => exact (List.append_nil _).symm
  | cons key node tail ih =>
    obtain ⟨missing, distinctTail⟩ := List.nodup_cons.mp distinct
    have step := keys_overlay key.name node root
    rw [overlayAll, Entries.names]
    dsimp only
    rw [ih _ distinctTail, Entries.names_eq_map_keys (overlay key.name node root).1, step]
    by_cases there : key.name ∈ root.names
    · rw [if_pos there, ← Entries.names_eq_map_keys, List.filter_cons_of_neg (by simpa using there)]
    · have kept : (tail.names.filter (· ∉ (root.keys ++ [Key.fresh key.name]).map Key.name)) =
          tail.names.filter (· ∉ root.names) := by
        refine List.filter_congr fun name member => ?_
        have differs : name ≠ key.name := by
          rintro rfl
          exact missing member
        rw [List.map_append, ← Entries.names_eq_map_keys]
        simp [Key.fresh, differs]
      rw [if_neg there, kept, List.filter_cons_of_pos (by simpa using there), List.map_cons,
        List.append_assoc, List.singleton_append]

theorem names_fates (root entries : Entries) :
    (overlayAll root entries).2.map Prod.fst = entries.names := by
  induction entries generalizing root with
  | nil => rfl
  | cons key node tail ih => exact congrArg (List.cons key.name) (ih _)

-- What becomes of a node of a fragment's top where the manifest has a node of that name or none.
inductive Landing (node : Node) : Option Node → SectionFate → Node → Prop where
  -- A table makes a section, or goes into one, but not into any other value.
  | opened (style : TableStyle) (own all : Entries) (inner : node.entries? = some own)
      (list : all.toList = own.toList.map fun entry => (.fresh entry.1.name, entry.2)) :
      Landing node none .merged (.table style all)
  | joined (place : Node) (own base all : Entries) (inner : node.entries? = some own)
      (inner' : place.entries? = some base) (list : all.toList = union place.adopt base own) :
      Landing node (some place) .merged (place.withEntries all)
  | blocked (place : Node) (isTable : node.isTable = true) (isValue : place.isTable = false) :
      Landing node (some place) .blocked place
  -- What is no table only fills a gap.
  | added (isValue : node.isTable = false) : Landing node none .merged node
  | kept (place : Node) (isValue : node.isTable = false) : Landing node (some place) .kept place

theorem landing_landed (node : Node) (there : Option Node)
    (distinct : ∀ own, node.entries? = some own → own.names.Nodup)
    (distinct' : ∀ place base, there = some place → place.entries? = some base → base.names.Nodup) :
    ∃ result, (landed node there).1 = some result ∧ Landing node there (landed node there).2 result := by
  rw [landed]
  cases inner : node.entries? with
  | none =>
    have isValue : node.isTable = false := by rw [Node.isTable, inner]; rfl
    cases there with
    | none => exact ⟨node, rfl, .added isValue⟩
    | some place => exact ⟨place, rfl, .kept place isValue⟩
  | some own =>
    cases there with
    | none =>
      obtain ⟨style, empty⟩ : ∃ style, emptySection node = .table style .nil := by
        cases node <;> exact ⟨_, rfl⟩
      obtain ⟨all, result, list⟩ :=
        to_list_put_all own (distinct own inner) (emptySection node) .nil (by rw [empty]; rfl) List.nodup_nil
      have kept : (own.toList.filter fun entry => entry.1.name ∉ Entries.nil.names) = own.toList :=
        List.filter_eq_self.mpr fun entry _ => by simp [Entries.names]
      rw [union, kept, empty] at list
      rw [empty] at result
      dsimp only [Option.getD_none]
      rw [if_pos (is_table_empty_section node), empty, result]
      exact ⟨_, rfl, .opened style own all inner list⟩
    | some place =>
      dsimp only [Option.getD_some]
      cases inner' : place.entries? with
      | none =>
        have isValue : place.isTable = false := by rw [Node.isTable, inner']; rfl
        have isTable : node.isTable = true := by rw [Node.isTable, inner]; rfl
        rw [isValue, if_neg Bool.false_ne_true]
        exact ⟨place, rfl, .blocked place isTable isValue⟩
      | some base =>
        obtain ⟨all, result, list⟩ :=
          to_list_put_all own (distinct own inner) place base inner' (distinct' place base rfl inner')
        have isTable : place.isTable = true := by rw [Node.isTable, inner']; rfl
        rw [isTable, if_pos rfl, result]
        exact ⟨_, rfl, .joined place own base all inner inner' list⟩

end Fragment

namespace Fates

theorem perm_merged_skipped (fates : Fates) :
    (fates.merged ++ fates.skipped).Perm (fates.map Prod.fst) := by
  rw [merged, skipped, ← List.map_append]
  exact (List.filter_append_perm (·.2 == .merged) fates).map Prod.fst

theorem mem_iff (fates : Fates) (distinct : (fates.map Prod.fst).Nodup) (name : String)
    (fate : SectionFate) (member : (name, fate) ∈ fates) :
    (name ∈ fates.merged ↔ fate = .merged) ∧ (name ∈ fates.skipped ↔ fate ≠ .merged) := by
  have apart : fates.merged.Disjoint fates.skipped :=
    List.disjoint_of_nodup_append (fates.perm_merged_skipped.nodup_iff.mpr distinct)
  by_cases isMerged : fate = .merged
  · have there : name ∈ fates.merged :=
      List.mem_map.mpr ⟨_, List.mem_filter.mpr ⟨member, by simp [isMerged]⟩, rfl⟩
    exact ⟨iff_of_true there isMerged, iff_of_false (apart there) (not_not.mpr isMerged)⟩
  · have there : name ∈ fates.skipped :=
      List.mem_map.mpr ⟨_, List.mem_filter.mpr ⟨member, by simp [isMerged]⟩, rfl⟩
    exact ⟨iff_of_false (fun other => apart other there) isMerged, iff_of_true there isMerged⟩

end Fates

namespace Document

-- A fragment over a manifest: the keys of the top stay in place and those that only the fragment has
-- follow; names that the fragment lacks are left alone, and each of its own lands as the manifest has
-- it and is told of once.
theorem overlay_union (document fragment : Document) (distinct : document.Distinct)
    (distinct' : fragment.Distinct) :
    (document.overlay fragment).1.trailing = document.trailing ∧
    (document.overlay fragment).1.root.keys = document.root.keys ++
      (fragment.root.names.filter (· ∉ document.root.names)).map .fresh ∧
    (∀ name, name ∉ fragment.root.names →
      (document.overlay fragment).1.root.get? name = document.root.get? name) ∧
    (∀ name node, fragment.root.get? name = some node → ∃ fate result,
      Fragment.Landing node (document.root.get? name) fate result ∧
      (document.overlay fragment).1.root.get? name = some result ∧
      (name ∈ (document.overlay fragment).2.merged ↔ fate = .merged) ∧
      (name ∈ (document.overlay fragment).2.skipped ↔ fate ≠ .merged)) ∧
    (document.overlay fragment).2.merged.Sublist fragment.root.names ∧
    (document.overlay fragment).2.skipped.Sublist fragment.root.names ∧
    (document.overlay fragment).2.merged.Disjoint (document.overlay fragment).2.skipped ∧
    ((document.overlay fragment).2.merged ++ (document.overlay fragment).2.skipped).Perm
      fragment.root.names ∧
    ∀ place value : Node, (place.adopt value).data = value.data := by
  have names := fragment.root.names_nodup distinct'
  have told := Fragment.names_fates document.root fragment.root
  have perm := (document.overlay fragment).2.perm_merged_skipped
  rw [fates_overlay] at perm ⊢
  rw [told] at perm
  have sub : ∀ keep : String × SectionFate → Bool,
      (((Fragment.overlayAll document.root fragment.root).2.filter keep).map Prod.fst).Sublist
        fragment.root.names := fun keep => told ▸ List.filter_sublist.map Prod.fst
  refine ⟨rfl, Fragment.keys_overlay_all _ _ names, fun name missing => ?_, fun name node found => ?_,
    sub _, sub _, List.disjoint_of_nodup_append (perm.nodup_iff.mpr names), perm,
    Node.data_adopt⟩
  · rw [get?_overlay _ _ distinct', (Entries.get?_eq_none_iff _ _).mpr missing]
    rfl
  · obtain ⟨result, there, landing⟩ := Fragment.landing_landed node (document.root.get? name)
      (fun own inner => own.names_nodup (Entries.distinct_entries? node
        (Entries.distinct_get? _ distinct' name node found) own inner))
      (fun place base placed inner => base.names_nodup (Entries.distinct_entries? place
        (Entries.distinct_get? _ distinct name place placed) base inner))
    have member := Fragment.mem_overlay_all document.root fragment.root names name node found
    refine ⟨_, result, landing, ?_, Fates.mem_iff _ (told ▸ names) name _ member⟩
    rw [get?_overlay _ _ distinct', found]
    exact there

theorem overlay_union_braces :
    ∃ document fragment node place result,
      parse? "a = 1\nx = \x7b b = 1, c = 2 \x7d\n" = some document ∧
      parse? "[x]\nb.d = 2\ne = 3\n[a]\nk = 1\n[z]\nq = 1\n" = some fragment ∧
      (document.overlay fragment).1.root.keys = document.root.keys ++ [.fresh "z"] ∧
      fragment.root.get? "x" = some node ∧ document.root.get? "x" = some place ∧
      Fragment.Landing node (some place) .merged result ∧
      (document.overlay fragment).1.root.get? "x" = some result ∧
      ((document.overlay fragment).2.merged ++ (document.overlay fragment).2.skipped).Perm
        ["x", "a", "z"] := by
  have fits : ((parse? "a = 1\nx = \x7b b = 1, c = 2 \x7d\n").bind fun document =>
      (parse? "[x]\nb.d = 2\ne = 3\n[a]\nk = 1\n[z]\nq = 1\n").bind fun fragment =>
      (fragment.root.get? "x").bind fun _ => (document.root.get? "x").map fun _ =>
        (decide document.Distinct, decide fragment.Distinct, document.root.names, fragment.root.names,
          (document.overlay fragment).2.merged)) =
      some (true, true, ["a", "x"], ["x", "a", "z"], ["x", "z"]) := by
    decide +kernel
  obtain ⟨document, read, fits⟩ := Option.bind_eq_some_iff.mp fits
  obtain ⟨fragment, read', fits⟩ := Option.bind_eq_some_iff.mp fits
  obtain ⟨node, found, fits⟩ := Option.bind_eq_some_iff.mp fits
  obtain ⟨place, there, fits⟩ := Option.map_eq_some_iff.mp fits
  simp only [Prod.mk.injEq, decide_eq_true_eq] at fits
  obtain ⟨distinct, distinct', names, names', merged⟩ := fits
  obtain ⟨-, keys, -, lands, -, -, -, perm, -⟩ := overlay_union document fragment distinct distinct'
  obtain ⟨fate, result, landing, placed, isMerged, -⟩ := lands "x" node found
  obtain rfl : fate = .merged := isMerged.mp (by rw [merged]; decide)
  rw [names, names'] at keys
  rw [there] at landing
  exact ⟨document, fragment, node, place, result, read, read', keys, found, there, landing, placed,
    names' ▸ perm⟩

end Document

end Reroot
