import Reroot.Manifest.Fit
import Reroot.Proofs.Assembled
import Reroot.Proofs.Overlay
import Reroot.Proofs.Stuck

set_option autoImplicit false

namespace Reroot

open Text

theorem Entries.names_to_values (entries : Entries) : entries.toValues.names = entries.names := by
  induction entries with
  | nil => rfl
  | cons key node tail ih => rw [toValues, names, names, ih]; rfl

mutual
theorem Node.whole_to_value : (node : Node) → node.Legible .body → node.Native → node.toValue.Whole
  | .scalar margin value, legible, _ => Node.whole_of_is_value .body _ rfl legible
  | .array style elements, legible, _ => Node.whole_of_is_value .body _ rfl legible
  | .inline style entries, legible, native =>
    Node.whole_of_is_value .body (.inline style entries)
      (by simpa [Node.isValue, Node.Native] using native) legible
  | .table style entries, legible, native =>
    ⟨rfl, fun site margin beside =>
      ⟨beside, is_gap_nil, Entries.legible_to_values entries legible.2.2 native⟩⟩
  | .tables elements, legible, native =>
    ⟨rfl, fun site margin beside =>
      ⟨beside, is_gap_nil, Nodes.legible_to_values true elements legible.2.2.2 native⟩⟩
theorem Nodes.legible_to_values (isFirst : Bool) : (nodes : Nodes) → nodes.Legible .body →
    nodes.Native → (nodes.toValues isFirst).Legible .element
  | .nil, _, _ => trivial
  | .cons head tail, legible, native => by
    refine ⟨(Node.whole_to_value head legible.1 native.1).legible .element _ ?_,
      Nodes.legible_to_values false tail legible.2 native.2⟩
    refine Margin.fits_around _ _ _ _ ?_ is_gap_nil
    cases isFirst <;> rfl
theorem Entries.legible_to_values : (entries : Entries) → entries.Legible .body → entries.Native →
    entries.toValues.Legible .braces
  | .nil, _, _ => trivial
  | .cons key node tail, legible, native => by
    obtain ⟨missing, legibleKey, suits, legibleNode, legibleTail⟩ := legible
    refine ⟨?_, key.legible_bare legibleKey, Node.suits_unset _ _ _ rfl,
      (Node.whole_to_value node legibleNode native.1).legible .braces _ (Site.beside_unset _),
      Entries.legible_to_values tail legibleTail native.2⟩
    rwa [Entries.names_to_values]
end

theorem Margin.Fits.of_straight {before : Text → Prop} {margin : Margin} (fits : margin.Fits before IsGap)
    (straight : IsBlanks (margin.after.getD [])) : margin.Fits before IsBlanks := by
  refine ⟨fits.1, fun text found => ?_⟩
  rwa [found] at straight

theorem Margin.Fits.beside_line {margin : Margin} (fits : margin.Fits IsGap IsGap)
    (straight : IsBlanks (margin.before.getD [])) : Site.line.Beside margin := by
  refine ⟨fun text found => ?_, fun text found => (fits.2 text found).is_tail⟩
  rwa [found] at straight

mutual
theorem Node.legible_straight (parents : List Key) (key : Key) : (node : Node) →
    node.Suits .braces key → node.Legible .braces → (∀ line ∈ node.fields parents key,
      IsBlanks (line.value.margin.before.getD []) ∧ IsBlanks (line.key.outer.after.getD [])) →
    node.Suits .line key ∧ node.Legible .line
  | .scalar margin value, suits, legible, straight => by
    obtain ⟨before, after⟩ := straight _ (List.mem_singleton.mpr rfl)
    exact ⟨Margin.Fits.of_straight suits after, Margin.Fits.beside_line legible.1 before, legible.2⟩
  | .array style elements, suits, legible, straight => by
    obtain ⟨before, after⟩ := straight _ (List.mem_singleton.mpr rfl)
    exact ⟨Margin.Fits.of_straight suits after, Margin.Fits.beside_line legible.1 before, legible.2⟩
  | .inline style entries, suits, legible, straight => by
    rw [Node.fields] at straight
    rw [Node.Legible] at legible ⊢
    cases dotted : style.dotted with
    | true =>
      rw [dotted, if_pos rfl] at straight legible
      rw [if_pos rfl]
      exact ⟨Node.suits_unset _ _ _ (suits.2 dotted), by simp, legible.2.1,
        Entries.legible_straight (parents ++ [key]) entries legible.2.2 straight⟩
    | false =>
      rw [dotted, if_neg Bool.false_ne_true] at straight legible
      rw [if_neg Bool.false_ne_true]
      obtain ⟨before, after⟩ := straight _ (List.mem_singleton.mpr rfl)
      exact ⟨⟨Margin.Fits.of_straight suits.1 after, by simp [dotted]⟩,
        Margin.Fits.beside_line legible.1 before, legible.2⟩
  | .table style entries, _, legible, _ => by cases legible.1
  | .tables elements, _, legible, _ => by cases legible.1
theorem Entries.legible_straight (parents : List Key) : (entries : Entries) →
    entries.Legible .braces → (∀ line ∈ entries.fields parents,
      IsBlanks (line.value.margin.before.getD []) ∧ IsBlanks (line.key.outer.after.getD [])) →
    entries.Legible .line
  | .nil, _, _ => trivial
  | .cons key node tail, legible, straight => by
    obtain ⟨missing, legibleKey, suits, legibleNode, legibleTail⟩ := legible
    obtain ⟨suits', legibleNode'⟩ := Node.legible_straight parents key node suits legibleNode
      fun line member => straight line (List.mem_append_left _ member)
    exact ⟨missing, legibleKey, suits', legibleNode', Entries.legible_straight parents tail legibleTail
      fun line member => straight line (List.mem_append_right _ member)⟩
end

theorem Node.legible_joined (key : Key) (node : Node) (suits : node.Suits .braces key)
    (legible : node.Legible .braces) (straight : ∀ line ∈ node.fields [] key,
      IsBlanks (line.value.margin.before.getD []) ∧
        (line.parents ≠ [] → IsBlanks (line.key.outer.after.getD []))) : node.Legible .body := by
  cases node with
  | scalar margin value =>
    have before := (straight _ (List.mem_singleton.mpr rfl)).1
    exact ⟨Margin.Fits.beside_line legible.1 before, legible.2⟩
  | array style elements =>
    have before := (straight _ (List.mem_singleton.mpr rfl)).1
    exact ⟨Margin.Fits.beside_line legible.1 before, legible.2⟩
  | inline style entries =>
    rw [Node.fields] at straight
    rw [Node.Legible] at legible ⊢
    cases dotted : style.dotted with
    | true =>
      rw [dotted, if_pos rfl] at straight legible
      rw [if_pos rfl]
      refine ⟨by simp, legible.2.1, Entries.legible_straight [key] entries legible.2.2 ?_⟩
      intro line member
      obtain ⟨before, after⟩ := straight line member
      refine ⟨before, after ?_⟩
      rw [← List.append_nil [key], Entries.fields_below] at member
      obtain ⟨own, -, rfl⟩ := List.mem_map.mp member
      exact List.cons_ne_nil _ _
    | false =>
      rw [dotted, if_neg Bool.false_ne_true] at straight legible
      rw [if_neg Bool.false_ne_true]
      have before := (straight _ (List.mem_singleton.mpr rfl)).1
      exact ⟨Margin.Fits.beside_line legible.1 before, legible.2⟩
  | table style entries => cases legible.1
  | tables elements => cases legible.1

theorem Node.legible_to_value (node : Node) (legible : node.Legible .body) (native : node.Native)
    (plain : IsGap (node.margin.after.getD [])) : node.toValue.Legible .braces := by
  have whole := Node.whole_to_value node legible native
  have inside : ∀ margin : Margin, margin.Fits IsBlanks IsTail → IsGap (margin.after.getD []) →
      Site.braces.Beside margin := by
    intro margin fits plain
    refine ⟨fun text found => (fits.1 text found).is_gap, fun text found => ?_⟩
    rwa [found] at plain
  cases node with
  | scalar margin value => exact whole.legible .braces margin (inside margin legible.1 plain)
  | array style elements => exact whole.legible .braces style.margin (inside style.margin legible.1 plain)
  | inline style entries =>
    rw [Node.Legible, if_neg (by simpa [Node.Native] using native)] at legible
    exact whole.legible .braces style.margin (inside style.margin legible.1 plain)
  | table style entries => exact whole.legible .braces .unset (Site.beside_unset _)
  | tables elements => exact whole.legible .braces .unset (Site.beside_unset _)

namespace Fragment

theorem put_entry_eq (place : Node) (base : Entries) (inner : place.entries? = some base)
    (name : String) (node : Node) :
    place.putEntry name node = place.withEntries (base.put name (place.adopt node)) := by
  cases place with
  | inline style entries =>
    cases inner
    rfl
  | table style entries =>
    cases inner
    rfl
  | scalar margin value => cases inner
  | array style elements => cases inner
  | tables elements => cases inner

theorem entries?_put_entry (place : Node) (base : Entries) (inner : place.entries? = some base)
    (name : String) (node : Node) :
    (place.putEntry name node).entries? = some (base.put name (place.adopt node)) := by
  rw [put_entry_eq place base inner]
  cases place <;> cases inner <;> rfl

theorem put_all_keeps (holds : Key → Node → Prop) (entries : Entries) (place : Node) (base : Entries)
    (inner : place.entries? = some base)
    (each : ∀ entry ∈ entries.toList, holds (.fresh entry.1.name) (place.adopt entry.2))
    (distinct : base.names.Nodup) (all : base.Each holds) :
    ∃ out, putAll entries place = place.withEntries out ∧ out.names.Nodup ∧ out.Each holds := by
  induction entries generalizing place base with
  | nil =>
    refine ⟨base, ?_, distinct, all⟩
    cases place <;> cases inner <;> rfl
  | cons key node tail ih =>
    have here := each (key, node) List.mem_cons_self
    have placed := entries?_put_entry place base inner key.name node
    obtain ⟨out, run, distinctOut, allOut⟩ := ih _ _ placed
      (fun entry member => by
        rw [adopt_put_entry]
        exact each entry (List.mem_cons_of_mem _ member))
      (Entries.nodup_put _ _ _ distinct) (Entries.each_put _ _ _ _ all here)
    refine ⟨out, ?_, distinctOut, allOut⟩
    rw [putAll, run, put_entry_eq place base inner]
    cases place <;> rfl

end Fragment

structure Node.Stands (low high : Nat) (key : Key) (node : Node) : Prop where
  read : key.Legible
  suits : node.Suits .body key
  legible : node.Legible .body
  spans : node.Spans low high

theorem Node.Holds.stands {low high : Nat} {key : Key} {node : Node} (holds : node.Holds low high key) :
    node.Stands low high key :=
  ⟨holds.read, holds.suits, holds.legible, holds.spans⟩

namespace Entries

theorem each_stands_iff (low high : Nat) (entries : Entries) :
    entries.names.Nodup ∧ entries.Each (Node.Stands low high) ↔
      entries.Legible .body ∧ entries.Spans low high := by
  rw [legible_iff, spans_iff, and_assoc, and_congr_right_iff]
  intro _
  constructor
  · intro each
    exact ⟨each.imp fun _ _ stands => ⟨stands.read, stands.suits, stands.legible⟩,
      each.imp fun _ _ stands => stands.spans⟩
  · rintro ⟨each, spans⟩ entry member
    obtain ⟨legibleKey, suits, legible⟩ := each entry member
    exact ⟨legibleKey, suits, legible, spans entry member⟩

end Entries

theorem Node.bare_of_line (site : Site) (other : site ≠ .body) (low high : Nat) (node : Node)
    (legible : node.Legible site) : node.Spans low high ∧ node.toValue = node := by
  cases node with
  | scalar margin value => exact ⟨trivial, rfl⟩
  | array style elements => exact ⟨trivial, rfl⟩
  | inline style entries => exact ⟨trivial, rfl⟩
  | table style entries => exact absurd legible.1 other
  | tables elements => exact absurd legible.1 other

def Node.Mixed (low high : Nat) (key : Key) (node : Node) : Prop :=
  node.Stands low high key ∨ key.Legible ∧ key.outer = .unset ∧ node.Legible .braces

def Node.Loose (key : Key) (node : Node) : Prop :=
  (key.Legible ∧ node.Suits .braces key ∧ node.Legible .braces) ∨ Field.Open ⟨[], key, node⟩

inductive Node.Rough (low high : Nat) (key : Key) : Node → Prop where
  | stands (node : Node) (stands : node.Stands low high key) : Rough low high key node
  | table (style : TableStyle) (base entries : Entries)
      (stands : (Node.table style base).Stands low high key) (distinct : entries.names.Nodup)
      (each : entries.Each (Node.Mixed low high)) : Rough low high key (.table style entries)
  | inline (style : InlineStyle) (base entries : Entries) (single : style.dotted = false)
      (stands : (Node.inline style base).Stands low high key) (distinct : entries.names.Nodup)
      (each : entries.Each Node.Loose) : Rough low high key (.inline style entries)

namespace Fragment

variable {low high : Nat} {key own : Key} {node : Node} {entries : Entries}

theorem loose_to_value (name : String) (node : Node) (legible : node.Legible .body)
    (native : node.Native) : node.toValue.Loose (.fresh name) := by
  by_cases plain : IsGap (node.margin.after.getD [])
  · exact .inl ⟨Key.legible_fresh _, Node.suits_unset _ _ _ rfl, node.legible_to_value legible native plain⟩
  · refine .inr ?_
    have isValue : node.isValue = true := by
      cases node with
      | scalar margin value => rfl
      | array style elements => rfl
      | inline style entries => simpa [Node.isValue, Node.Native] using native
      | table style entries => exact absurd is_gap_nil plain
      | tables elements => exact absurd is_gap_nil plain
    have same : node.toValue = node := by
      cases node with
      | table style entries => cases isValue
      | tables elements => cases isValue
      | scalar margin value => rfl
      | array style elements => rfl
      | inline style entries => rfl
    have beside : node.margin.Fits IsBlanks IsTail := node.margin_of_legible .body isValue legible
    have whole := Node.whole_of_is_value .body node isValue legible
    rw [same]
    refine ⟨⟨List.forall_mem_nil _, Key.legible_fresh _, Margin.fits_unset _ _, ?_, ?_⟩, ?_⟩
    · exact (Node.is_value_with_margin _ _).trans isValue
    · refine whole.legible .braces _ ⟨fun text found => (beside.1 text found).is_gap, ?_⟩
      exact fun text found => by cases found
    · have isTail : IsTail (node.margin.after.getD []) := beside.after_get_d [] rfl
      obtain ⟨ends, reaches⟩ := Option.isSome_iff_exists.mp isTail
      cases ends with
      | false => exact absurd reaches plain
      | true => exact reaches

theorem legible_inline (style : InlineStyle) (inside : Entries)
    (holds : (Node.inline style inside).Holds low high own) :
    inside.Each fun _ node => node.Legible .braces ∧
      (Straight inside → ∃ key, node.Suits .braces key ∧ ∀ line ∈ node.fields [] key,
        IsBlanks (line.value.margin.before.getD []) ∧
          (line.parents ≠ [] → IsBlanks (line.key.outer.after.getD []))) := by
  have legible := holds.legible
  rw [Node.Legible, if_neg (by simpa [Node.Native] using holds.native)] at legible
  intro entry member
  obtain ⟨-, suits, legible'⟩ := ((Entries.legible_iff _ _).mp legible.2.2).2 entry member
  refine ⟨legible', fun straight => ⟨entry.1, suits, fun line there => ?_⟩⟩
  exact straight line ((Entries.mem_fields _ _ _).mpr ⟨entry, member, there⟩)

theorem mixed_entry (style : TableStyle) (base : Entries) (holds : node.Holds low high own)
    (inner : node.entries? = some entries) : ∀ entry ∈ entries.toList,
      entry.2.Mixed low high (.fresh entry.1.name) ∧
        (Fits (.table style base) node → entry.2.Stands low high (.fresh entry.1.name)) := by
  intro entry member
  have read := Key.legible_fresh entry.1.name
  have suits := Node.suits_unset .body (.fresh entry.1.name) entry.2 rfl
  cases node with
  | table style' entries' =>
    cases inner
    have holds' := (Entries.sound_of_holds holds).each entry member
    have stands : entry.2.Stands low high (.fresh entry.1.name) :=
      ⟨read, suits, holds'.legible, holds'.spans⟩
    exact ⟨.inl stands, fun _ => stands⟩
  | inline style' entries' =>
    cases inner
    obtain ⟨legible, straight⟩ := legible_inline style' entries holds entry member
    refine ⟨.inr ⟨read, rfl, legible⟩, fun fits => ?_⟩
    obtain ⟨key, suits', lines⟩ := straight fits
    exact ⟨read, suits, Node.legible_joined key entry.2 suits' legible lines,
      (Node.bare_of_line .braces (by simp) low high entry.2 legible).1⟩
  | scalar margin value => cases inner
  | array style' elements => cases inner
  | tables elements => cases inner

theorem loose_entry (style : InlineStyle) (base : Entries) (holds : node.Holds low high own)
    (inner : node.entries? = some entries) : ∀ entry ∈ entries.toList,
      entry.2.toValue.Loose (.fresh entry.1.name) ∧
        (Fits (.inline style base) node → (Key.fresh entry.1.name).Legible ∧
          entry.2.toValue.Suits .braces (.fresh entry.1.name) ∧ entry.2.toValue.Legible .braces) := by
  intro entry member
  have read := Key.legible_fresh entry.1.name
  have suits := Node.suits_unset .braces (.fresh entry.1.name) entry.2.toValue rfl
  cases node with
  | table style' entries' =>
    cases inner
    have holds' := (Entries.sound_of_holds holds).each entry member
    exact ⟨loose_to_value entry.1.name entry.2 holds'.legible holds'.native,
      fun fits => ⟨read, suits, entry.2.legible_to_value holds'.legible holds'.native (fits entry member)⟩⟩
  | inline style' entries' =>
    cases inner
    obtain ⟨legible, -⟩ := legible_inline style' entries holds entry member
    have same := (Node.bare_of_line .braces (by simp) low high entry.2 legible).2
    rw [← same] at legible
    exact ⟨.inl ⟨read, suits, legible⟩, fun _ => ⟨read, suits, legible⟩⟩
  | scalar margin value => cases inner
  | array style' elements => cases inner
  | tables elements => cases inner

theorem put_all_section (place : Node) (isTable : place.isTable = true) (native : place.Native)
    (stands : place.Stands low high key) (holds : node.Holds low high own)
    (inner : node.entries? = some entries) : (putAll entries place).Rough low high key ∧
      (Fits place node → (putAll entries place).Stands low high key) := by
  cases place with
  | table style base =>
    obtain ⟨distinct, all⟩ := (Entries.each_stands_iff low high base).mpr
      ⟨stands.legible.2.2, stands.spans.2⟩
    obtain ⟨out, run, distinctOut, allOut⟩ := put_all_keeps (fun other value =>
        value.Mixed low high other ∧ (Fits (.table style base) node → value.Stands low high other))
      entries (.table style base) base rfl (mixed_entry style base holds inner) distinct
      (all.imp fun _ _ stands => ⟨.inl stands, fun _ => stands⟩)
    rw [run]
    refine ⟨.table style base out stands distinctOut (allOut.imp fun _ _ both => both.1), fun fits => ?_⟩
    obtain ⟨legible, spans⟩ := (Entries.each_stands_iff low high out).mp
      ⟨distinctOut, allOut.imp fun _ _ both => both.2 fits⟩
    exact ⟨stands.read, stands.suits, ⟨rfl, stands.legible.2.1, legible⟩, stands.spans.1, spans⟩
  | inline style base =>
    have single : ¬ style.dotted = true := by simpa [Node.Native] using native
    have legible := stands.legible
    rw [Node.Legible, if_neg single] at legible
    obtain ⟨distinct, all⟩ := (Entries.legible_iff _ _).mp legible.2.2
    obtain ⟨out, run, distinctOut, allOut⟩ := put_all_keeps (fun other value =>
        value.Loose other ∧ (Fits (.inline style base) node →
          other.Legible ∧ value.Suits .braces other ∧ value.Legible .braces))
      entries (.inline style base) base rfl (loose_entry style base holds inner) distinct
      (all.imp fun _ _ legible => ⟨.inl legible, fun _ => legible⟩)
    rw [run]
    refine ⟨.inline style base out native stands distinctOut (allOut.imp fun _ _ both => both.1),
      fun fits => ?_⟩
    refine ⟨stands.read, stands.suits, ?_, trivial⟩
    rw [Node.withEntries, Node.Legible, if_neg single]
    exact ⟨legible.1, legible.2.1, (Entries.legible_iff _ _).mpr
      ⟨distinctOut, allOut.imp fun _ _ both => both.2 fits⟩⟩
  | scalar margin value => cases isTable
  | array style elements => cases isTable
  | tables elements => cases isTable

theorem stands_empty_section (node : Node) (name : String) :
    (emptySection node).Stands low high (.fresh name) := by
  have suits := Node.suits_unset .body (.fresh name) (emptySection node) rfl
  refine ⟨Key.legible_fresh name, suits, ?_, ?_⟩
  · cases node <;> exact ⟨rfl, .inr (Margin.fits_unset _ _), trivial⟩
  · cases node <;> exact ⟨by simp [TableStyle.fresh], trivial⟩

theorem native_place (root : Entries) (native : root.Each fun _ node => node.Native) (name : String)
    (node : Node) : ((root.get? name).getD (emptySection node)).Native := by
  cases there : root.get? name with
  | none => cases node <;> trivial
  | some place =>
    obtain ⟨key, -, own⟩ := Entries.each_get? _ root native name place there
    exact own

theorem overlay_each (first second : Key → Node → Prop)
    (imp : ∀ key node, first key node → second key node) (name : String) (node : Node)
    (root : Entries) (distinct : root.names.Nodup) (all : root.Each first)
    (value : second (.fresh name) node) (opened : first (.fresh name) (emptySection node))
    (merged : ∀ entries key place, node.entries? = some entries → key.name = name →
      place = (root.get? name).getD (emptySection node) → place.isTable = true → first key place →
      second key (putAll entries place)) :
    (overlay name node root).1.names.Nodup ∧ (overlay name node root).1.Each second := by
  rw [overlay]
  cases inner : node.entries? with
  | none =>
    dsimp only
    split
    · exact ⟨distinct, all.imp imp⟩
    · exact ⟨Entries.nodup_put _ _ _ distinct, Entries.each_put _ _ _ _ (all.imp imp) value⟩
  | some entries =>
    dsimp only
    obtain ⟨place, isPlace⟩ : ∃ place, place = (root.get? name).getD (emptySection node) := ⟨_, rfl⟩
    obtain ⟨with', shape, found, distinctWith, allWith⟩ : ∃ with' : Entries,
        (if root.contains name then root else root.put name (emptySection node)) = with' ∧
        with'.get? name = some place ∧ with'.names.Nodup ∧ with'.Each first := by
      refine ⟨_, rfl, ?_⟩
      rw [Entries.contains, isPlace]
      cases there : root.get? name with
      | none =>
        rw [Option.isSome_none, if_neg Bool.false_ne_true]
        exact ⟨by rw [Entries.get?_put, if_pos rfl]; rfl, Entries.nodup_put _ _ _ distinct,
          Entries.each_put _ _ _ _ all opened⟩
      | some old =>
        rw [Option.isSome_some, if_pos rfl]
        exact ⟨there, distinct, all⟩
    rw [shape, found, Option.map_some, Option.getD_some]
    split
    · case isTrue isTable =>
      refine ⟨?_, Entries.each_modify first second imp _ _ _ allWith fun key other same there here => ?_⟩
      · rw [Entries.names_modify]
        exact distinctWith
      · cases there.symm.trans found
        exact merged entries key place inner same isPlace isTable here
    · exact ⟨distinctWith, allWith.imp imp⟩

theorem overlay_all_each (holds : Key → Node → Prop)
    (imp : ∀ (key : Key) (node : Node), node.Stands low high key → holds key node)
    (root manifest fragment : Entries) (distinct : root.names.Nodup)
    (all : root.Each fun key node =>
      holds key node ∧ (key.name ∈ fragment.names → node.Stands low high key))
    (distinct' : fragment.names.Nodup) (holds' : fragment.Each (Node.Holds low high))
    (same : ∀ name ∈ fragment.names, root.get? name = manifest.get? name)
    (native : manifest.Each fun _ node => node.Native)
    (merged : ∀ entry ∈ fragment.toList, ∀ entries key place, entry.2.entries? = some entries →
      place = (manifest.get? entry.1.name).getD (emptySection entry.2) → place.isTable = true →
      place.Native → place.Stands low high key → holds key (putAll entries place)) :
    (overlayAll root fragment).1.names.Nodup ∧ (overlayAll root fragment).1.Each holds := by
  induction fragment generalizing root with
  | nil => exact ⟨distinct, all.imp fun _ _ both => both.1⟩
  | cons key node tail ih =>
    obtain ⟨missing, distinctTail⟩ := List.nodup_cons.mp distinct'
    obtain ⟨here, later⟩ := (Entries.each_cons _ _ _ _).mp holds'
    have stands : node.Stands low high (.fresh key.name) :=
      ⟨Key.legible_fresh _, Node.suits_unset _ _ _ rfl, here.legible, here.spans⟩
    have opened : (emptySection node).Stands low high (.fresh key.name) :=
      stands_empty_section node key.name
    obtain ⟨distinctNext, allNext⟩ := overlay_each _
      (fun other value => holds other value ∧ (other.name ∈ tail.names → value.Stands low high other))
      (fun other value both => ⟨both.1, fun member => both.2 (List.mem_cons_of_mem _ member)⟩)
      key.name node root distinct all ⟨imp _ _ stands, fun _ => stands⟩ ⟨imp _ _ opened, fun _ => opened⟩
      (fun entries own place inner name isPlace isTable both => by
        refine ⟨?_, fun member => absurd (name ▸ member) missing⟩
        have placed := both.2 (name ▸ List.mem_cons_self)
        rw [same key.name List.mem_cons_self] at isPlace
        refine merged (key, node) List.mem_cons_self entries own place inner isPlace isTable ?_ placed
        rw [isPlace]
        exact native_place manifest native key.name node)
    rw [overlayAll]
    refine ih _ distinctNext allNext distinctTail later (fun name member => ?_)
      fun entry member => merged entry (List.mem_cons_of_mem _ member)
    have differs : ¬ name = key.name := by
      rintro rfl
      exact missing member
    rw [(overlay_landed key.name node root).2 name, if_neg differs]
    exact same name (List.mem_cons_of_mem _ member)

end Fragment

namespace Document

theorem overlay_each (manifest fragment : String) (document other : Document)
    (read : parse? manifest = some document) (read' : parse? fragment = some other) :
    IsTail document.trailing ∧ ∃ high, document.root.Sound 0 high ∧ other.root.Sound 0 high ∧
      ∀ holds : Key → Node → Prop,
        (∀ (key : Key) (node : Node), node.Stands 0 high key → holds key node) →
        (∀ entry ∈ other.root.toList, ∀ entries key place, entry.2.entries? = some entries →
          place = (document.root.get? entry.1.name).getD (Fragment.emptySection entry.2) →
          place.isTable = true → place.Native → place.Stands 0 high key →
          holds key (Fragment.putAll entries place)) →
        (document.overlay other).1.root.names.Nodup ∧ (document.overlay other).1.root.Each holds := by
  obtain ⟨isTail, high, sound⟩ := sound_of_of_text? _ document read
  obtain ⟨-, more, sound'⟩ := sound_of_of_text? _ other read'
  have soundBoth := sound.mono (Nat.le_max_left high more)
  have soundBoth' := sound'.mono (Nat.le_max_right high more)
  refine ⟨isTail, max high more, soundBoth, soundBoth', fun holds imp merged => ?_⟩
  exact Fragment.overlay_all_each holds imp document.root document.root other.root soundBoth.distinct
    (soundBoth.each.imp fun _ _ own => ⟨imp _ _ own.stands, fun _ => own.stands⟩) soundBoth'.distinct
    soundBoth'.each (fun _ _ => rfl) (sound.each.imp fun _ _ own => own.native) merged

end Document

end Reroot
