import Reroot.Document.Distinct
import Reroot.Document.Place
import Reroot.Manifest.Fragment

set_option autoImplicit false

namespace Reroot

def Node.adopt (place node : Node) : Node :=
  match place with
  | .inline _ _ => node.toValue
  | .scalar _ _ | .array _ _ | .table _ _ | .tables _ => node

namespace Fragment

theorem is_table_put_entry (place : Node) (name : String) (node : Node) :
    (place.putEntry name node).isTable = place.isTable := by
  cases place <;> rfl

theorem adopt_put_entry (place : Node) (name : String) (node value : Node) :
    (place.putEntry name node).adopt value = place.adopt value := by
  cases place <;> rfl

theorem child?_put_entry (place : Node) (isTable : place.isTable = true) (name other : String)
    (node : Node) :
    (place.putEntry name node).child? (.key other) =
      if other = name then some (place.adopt node) else place.child? (.key other) := by
  cases place with
  | inline style entries => exact Entries.get?_put name other node.toValue entries
  | table style entries => exact Entries.get?_put name other node entries
  | scalar margin value => cases isTable
  | array style elements => cases isTable
  | tables elements => cases isTable

theorem is_table_put_all (entries : Entries) (place : Node) :
    (putAll entries place).isTable = place.isTable := by
  induction entries generalizing place with
  | nil => rfl
  | cons key node tail ih => rw [putAll, ih, is_table_put_entry]

theorem child?_put_all (entries : Entries) (distinct : entries.names.Nodup) (place : Node)
    (isTable : place.isTable = true) (name : String) :
    (putAll entries place).child? (.key name) =
      match entries.get? name with
      | some node => some (place.adopt node)
      | none => place.child? (.key name) := by
  induction entries generalizing place with
  | nil => rfl
  | cons key node tail ih =>
    obtain ⟨fresh, distinctTail⟩ := List.nodup_cons.mp distinct
    rw [putAll, ih distinctTail _ ((is_table_put_entry _ _ _).trans isTable),
      child?_put_entry place isTable, Entries.get?]
    simp only [adopt_put_entry]
    by_cases same : key.name = name
    · subst same
      rw [(Entries.get?_eq_none_iff _ _).mpr fresh, if_pos rfl, if_pos rfl]
    · rw [if_neg same, if_neg (Ne.symm same)]

theorem put_all_new (entries : Entries) (distinct : entries.names.Nodup) (style : TableStyle)
    (base : Entries) (new : ∀ name ∈ entries.names, name ∉ base.names) :
    ∃ all, putAll entries (.table style base) = .table style all ∧
      all.toList = base.toList ++ entries.toList.map fun entry => (.fresh entry.1.name, entry.2) := by
  induction entries generalizing base with
  | nil => exact ⟨base, rfl, (List.append_nil _).symm⟩
  | cons key node tail ih =>
    obtain ⟨fresh, distinctTail⟩ := List.nodup_cons.mp distinct
    have missing : key.name ∉ base.names := new key.name List.mem_cons_self
    have put := Entries.to_list_put_of_missing key.name node base missing
    have newTail : ∀ name ∈ tail.names, name ∉ (base.put key.name node).names := by
      intro name member added
      rw [Entries.names_eq_map_to_list, put, List.map_append, ← Entries.names_eq_map_to_list,
        List.mem_append] at added
      obtain old | same := added
      · exact new name (List.mem_cons_of_mem _ member) old
      · rw [List.map_singleton, List.mem_singleton] at same
        have equal : name = key.name := same
        exact fresh (equal ▸ member)
    obtain ⟨all, result, list⟩ := ih distinctTail _ newTail
    refine ⟨all, result, ?_⟩
    rw [list, put, List.append_assoc]
    rfl

def landed (node : Node) (there : Option Node) : Option Node × SectionFate :=
  match node.entries? with
  | none => if there.isSome then (there, .kept) else (some node, .merged)
  | some entries =>
    let place := there.getD (emptySection node)
    if place.isTable then (some (putAll entries place), .merged) else (there, .blocked)

theorem is_table_empty_section (node : Node) : (emptySection node).isTable = true := by
  cases node <;> rfl

theorem overlay_landed (name : String) (node : Node) (root : Entries) :
    (overlay name node root).2 = (landed node (root.get? name)).2 ∧
    ∀ other, (overlay name node root).1.get? other =
      if other = name then (landed node (root.get? name)).1 else root.get? other := by
  rw [overlay, landed]
  cases inner : node.entries? with
  | none =>
    cases there : root.get? name with
    | none =>
      simp only [Entries.contains, there, Option.isSome_none, Bool.false_eq_true, if_false]
      exact ⟨trivial, fun other => Entries.get?_put name other node root⟩
    | some place =>
      simp only [Entries.contains, there, Option.isSome_some, if_true]
      refine ⟨trivial, fun other => ?_⟩
      by_cases hit : other = name
      · rw [if_pos hit, hit, there]
      · rw [if_neg hit]
  | some entries =>
    cases there : root.get? name with
    | none =>
      have found : (root.put name (emptySection node)).get? name = some (emptySection node) := by
        rw [Entries.get?_put, if_pos rfl]
      simp only [Entries.contains, there, Option.isSome_none, Bool.false_eq_true, if_false, found,
        Option.map_some, Option.getD_some, Option.getD_none, is_table_empty_section, if_true]
      refine ⟨trivial, fun other => ?_⟩
      rw [Entries.get?_modify, found, Entries.get?_put]
      by_cases hit : other = name
      · rw [if_pos hit, if_pos hit]
        rfl
      · rw [if_neg hit, if_neg hit, if_neg hit]
    | some place =>
      simp only [Entries.contains, there, Option.isSome_some, if_true, Option.map_some,
        Option.getD_some]
      cases isTable : place.isTable with
      | true =>
        refine ⟨rfl, fun other => ?_⟩
        rw [if_pos rfl, if_pos rfl, Entries.get?_modify, there]
        rfl
      | false =>
        refine ⟨rfl, fun other => ?_⟩
        rw [if_neg Bool.false_ne_true, if_neg Bool.false_ne_true]
        by_cases hit : other = name
        · rw [if_pos hit, hit, there]
        · rw [if_neg hit]

theorem get?_overlay_all (root entries : Entries) (distinct : entries.names.Nodup) (name : String) :
    (overlayAll root entries).1.get? name =
      match entries.get? name with
      | some node => (landed node (root.get? name)).1
      | none => root.get? name := by
  induction entries generalizing root with
  | nil => rfl
  | cons key node tail ih =>
    obtain ⟨fresh, distinctTail⟩ := List.nodup_cons.mp distinct
    obtain ⟨-, there⟩ := overlay_landed key.name node root
    rw [overlayAll, Entries.get?]
    dsimp only
    rw [ih _ distinctTail, there]
    by_cases same : key.name = name
    · subst same
      rw [(Entries.get?_eq_none_iff _ _).mpr fresh, if_pos rfl, if_pos rfl]
    · rw [if_neg same, if_neg (Ne.symm same)]

theorem mem_overlay_all (root entries : Entries) (distinct : entries.names.Nodup) (name : String)
    (node : Node) (found : entries.get? name = some node) :
    (name, (landed node (root.get? name)).2) ∈ (overlayAll root entries).2 := by
  induction entries generalizing root with
  | nil => cases found
  | cons key value tail ih =>
    obtain ⟨fresh, distinctTail⟩ := List.nodup_cons.mp distinct
    obtain ⟨fate, there⟩ := overlay_landed key.name value root
    rw [overlayAll]
    by_cases same : key.name = name
    · rw [Entries.get?, if_pos same] at found
      rw [← Option.some.inj found, ← same, ← fate]
      exact List.mem_cons_self
    · rw [Entries.get?, if_neg same] at found
      have rest := ih (overlay key.name value root).1 distinctTail found
      rw [there, if_neg (Ne.symm same)] at rest
      exact List.mem_cons_of_mem _ rest

theorem mem_merged (root entries : Entries) (distinct : entries.names.Nodup) (name : String)
    (node : Node) (found : entries.get? name = some node)
    (merged : (landed node (root.get? name)).2 = .merged) :
    name ∈ Fates.merged (overlayAll root entries).2 := by
  have member := mem_overlay_all root entries distinct name node found
  rw [merged] at member
  exact List.mem_map_of_mem (f := Prod.fst) (List.mem_filter.mpr ⟨member, rfl⟩)

theorem path?_empty_section (node : Node) : (emptySection node).path? = none := by
  cases node <;> rfl

theorem child?_empty_section (node : Node) (step : Step) :
    (emptySection node).child? step = none := by
  cases node <;> cases step <;> rfl

def fill (own there : Option Node) : Option Node :=
  match own with
  | some node => (landed node there).1
  | none => there

theorem fill_value (node : Node) (isValue : node.entries? = none) (there : Option Node) :
    fill (some node) there = some (there.getD node) := by
  rw [fill, landed, isValue]
  cases there <;> rfl

theorem fill_section (node : Node) (entries : Entries) (inner : node.entries? = some entries)
    (there : Option Node) (isTable : (there.getD (emptySection node)).isTable = true) :
    fill (some node) there = some (putAll entries (there.getD (emptySection node))) := by
  rw [fill, landed, inner]
  dsimp only
  rw [if_pos isTable]

theorem fill_blocked (node : Node) (entries : Entries) (inner : node.entries? = some entries)
    (there : Option Node) (isTable : ¬ (there.getD (emptySection node)).isTable = true) :
    fill (some node) there = there := by
  rw [fill, landed, inner]
  dsimp only
  rw [if_neg isTable]

end Fragment

namespace Document

theorem root_overlay (document fragment : Document) : (document.overlay fragment).1.root =
    (Fragment.overlayAll document.root fragment.root).1 := rfl

theorem fates_overlay (document fragment : Document) : (document.overlay fragment).2 =
    (Fragment.overlayAll document.root fragment.root).2 := rfl

theorem overlay_cases (document fragment : Document) (distinct : fragment.Distinct)
    (name : String) :
    (document.overlay fragment).1.root.get? name = document.root.get? name ∨
    (∃ node, name ∈ (document.overlay fragment).2.merged ∧
      fragment.root.get? name = some node ∧ node.isTable = false ∧
      (document.overlay fragment).1.root.get? name = some node) ∨
    (∃ node entries place, name ∈ (document.overlay fragment).2.merged ∧
      fragment.root.get? name = some node ∧ node.entries? = some entries ∧
      place = (document.root.get? name).getD (Fragment.emptySection node) ∧
      place.isTable = true ∧
      (document.overlay fragment).1.root.get? name = some (Fragment.putAll entries place)) := by
  have distinctNames := Entries.names_nodup fragment.root distinct
  have there := Fragment.get?_overlay_all document.root fragment.root distinctNames name
  have isMerged := Fragment.mem_merged document.root fragment.root distinctNames name
  rw [root_overlay, fates_overlay, there]
  cases found : fragment.root.get? name with
  | none => exact .inl rfl
  | some node =>
    replace isMerged := isMerged node found
    dsimp only
    rw [Fragment.landed] at isMerged ⊢
    cases inner : node.entries? with
    | none =>
      rw [inner] at isMerged
      dsimp only at isMerged ⊢
      cases old : document.root.get? name with
      | some place => exact .inl rfl
      | none =>
        rw [old] at isMerged
        exact .inr (.inl ⟨node, isMerged rfl, rfl, by rw [Node.isTable, inner]; rfl, rfl⟩)
    | some entries =>
      rw [inner] at isMerged
      dsimp only at isMerged ⊢
      cases isTable : ((document.root.get? name).getD (Fragment.emptySection node)).isTable with
      | false => exact .inl rfl
      | true =>
        rw [isTable] at isMerged
        exact .inr (.inr ⟨node, entries, _, isMerged rfl, rfl, inner, rfl, isTable, rfl⟩)

theorem get?_overlay (document fragment : Document) (distinct : fragment.Distinct) (name : String) :
    (document.overlay fragment).1.root.get? name =
      Fragment.fill (fragment.root.get? name) (document.root.get? name) :=
  Fragment.get?_overlay_all document.root fragment.root (fragment.root.names_nodup distinct) name

end Document

end Reroot
