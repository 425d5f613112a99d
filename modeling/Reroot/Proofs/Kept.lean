import Reroot.Document.Legible
import Reroot.Proofs.Edits

set_option autoImplicit false

namespace Reroot

theorem Key.legible_fresh (name : String) : (fresh name).Legible :=
  ⟨reads_fresh name, Margin.fits_unset _ _⟩

theorem Key.legible_bare (key : Key) (legible : key.Legible) : key.bare.Legible :=
  ⟨legible.1, Margin.fits_unset _ _⟩

theorem Site.around_unset (site : Site) : site.Around .unset := by
  cases site
  · trivial
  all_goals exact Margin.fits_unset _ _

theorem Site.beside_unset (site : Site) : site.Beside .unset := by
  cases site <;> exact Margin.fits_unset _ _

theorem Node.suits_unset (site : Site) (key : Key) (node : Node) (unset : key.outer = .unset) :
    node.Suits site key := by
  cases node with
  | scalar margin value =>
    rw [Suits, unset]
    exact site.around_unset
  | array style elements =>
    rw [Suits, unset]
    exact site.around_unset
  | inline style entries =>
    rw [Suits, unset]
    exact ⟨site.around_unset, fun _ => rfl⟩
  | table style entries =>
    rw [Suits, unset]
    exact ⟨Margin.fits_unset _ _, fun _ => rfl⟩
  | tables elements =>
    rw [Suits, unset]
    exact Margin.fits_unset _ _

theorem Node.suits_of_is_value (site : Site) (key : Key) (node : Node) (isValue : node.isValue = true)
    (around : site.Around key.outer) : node.Suits site key := by
  cases node with
  | scalar margin value => exact around
  | array style elements => exact around
  | inline style entries =>
    have single : ¬ style.dotted = true := by simpa [Node.isValue] using isValue
    exact ⟨around, fun dotted => absurd dotted single⟩
  | table style entries => cases isValue
  | tables elements => cases isValue

structure Node.Whole (node : Node) : Prop where
  isValue : node.isValue = true
  legible : ∀ site margin, site.Beside margin → (node.withMargin margin).Legible site

theorem Node.whole_of_is_value (site : Site) (node : Node) (isValue : node.isValue = true)
    (legible : node.Legible site) : node.Whole := by
  refine ⟨isValue, fun other margin beside => ?_⟩
  cases node with
  | scalar own value => exact ⟨beside, legible.2⟩
  | array style elements => exact ⟨beside, legible.2⟩
  | inline style entries =>
    have single : ¬ style.dotted = true := by simpa [Node.isValue] using isValue
    rw [Node.Legible, if_neg single] at legible
    rw [withMargin, Node.Legible, if_neg single]
    exact ⟨beside, legible.2⟩
  | table style entries => cases isValue
  | tables elements => cases isValue

theorem Node.fields_of_is_value (parents : List Key) (key : Key) (node : Node)
    (isValue : node.isValue = true) : node.fields parents key = [⟨parents, key, node⟩] := by
  cases node with
  | scalar margin value => rfl
  | array style elements => rfl
  | inline style entries => exact if_neg (by simpa [Node.isValue] using isValue)
  | table style entries => cases isValue
  | tables elements => cases isValue

theorem Node.with_margin_margin (node : Node) : node.withMargin node.margin = node := by
  cases node <;> rfl

namespace Entries

def Each (holds : Key → Node → Prop) (entries : Entries) : Prop :=
  ∀ entry ∈ entries.toList, holds entry.1 entry.2

theorem each_cons (holds : Key → Node → Prop) (key : Key) (node : Node) (tail : Entries) :
    (cons key node tail).Each holds ↔ holds key node ∧ tail.Each holds := by
  simp [Each, toList]

theorem mem_fields (entries : Entries) (parents : List Key) (line : Field) :
    line ∈ entries.fields parents ↔ ∃ entry ∈ entries.toList, line ∈ entry.2.fields parents entry.1 := by
  induction entries with
  | nil => simp [fields, toList]
  | cons key node tail ih => simp [fields, toList, ih]

theorem mem_sections (entries : Entries) (path : List Key) (part : Section) :
    part ∈ entries.sections path ↔
      ∃ entry ∈ entries.toList, part ∈ entry.2.sections (path ++ [entry.1]) false := by
  induction entries with
  | nil => simp [sections, toList]
  | cons key node tail ih => simp [sections, toList, ih]

theorem Each.imp {first second : Key → Node → Prop} {entries : Entries} (each : entries.Each first)
    (imp : ∀ key node, first key node → second key node) : entries.Each second :=
  fun entry member => imp _ _ (each entry member)

theorem each_alter? (first second : Key → Node → Prop)
    (imp : ∀ key node, first key node → second key node) (key : Key)
    (change : Option Node → Option Node) (fresh : ∀ node, change none = some node → second key node)
    (kept : ∀ other node new, first other node → change (some node) = some new → second other new)
    (entries out : Entries) (each : entries.Each first)
    (altered : entries.alter? key change = some out) : out.Each second := by
  induction entries generalizing out with
  | nil =>
    obtain ⟨node, made, rfl⟩ := Option.map_eq_some_iff.mp altered
    exact (each_cons _ _ _ _).mpr ⟨fresh node made, fun _ member => by cases member⟩
  | cons other node tail ih =>
    obtain ⟨here, later⟩ := (each_cons _ _ _ _).mp each
    rw [alter?] at altered
    split at altered
    · obtain ⟨new, made, rfl⟩ := Option.map_eq_some_iff.mp altered
      exact (each_cons _ _ _ _).mpr ⟨kept other node new here made, later.imp imp⟩
    · obtain ⟨rest, inner, rfl⟩ := Option.map_eq_some_iff.mp altered
      exact (each_cons _ _ _ _).mpr ⟨imp _ _ here, ih rest later inner⟩

theorem each_append (holds : Key → Node → Prop) (key : Key) (node : Node) (entries : Entries)
    (each : entries.Each holds) (here : holds key node) : (entries.append key node).Each holds := by
  intro entry member
  rw [to_list_append, List.mem_append, List.mem_singleton] at member
  rcases member with old | rfl
  · exact each entry old
  · exact here

theorem each_erase (holds : Key → Node → Prop) (name : String) (entries : Entries)
    (each : entries.Each holds) : (entries.erase name).Each holds := by
  intro entry member
  rw [to_list_erase] at member
  exact each entry (List.mem_filter.mp member).1

theorem each_put (holds : Key → Node → Prop) (name : String) (node : Node) (entries : Entries)
    (each : entries.Each holds) (here : holds (.fresh name) node) :
    (entries.put name node).Each holds := by
  induction entries with
  | nil => exact (each_cons _ _ _ _).mpr ⟨here, fun _ member => by cases member⟩
  | cons key value tail ih =>
    obtain ⟨first, later⟩ := (each_cons _ _ _ _).mp each
    rw [put]
    split
    · exact (each_cons _ _ _ _).mpr ⟨here, later⟩
    · exact (each_cons _ _ _ _).mpr ⟨first, ih later⟩

theorem nodup_put (name : String) (node : Node) (entries : Entries)
    (distinct : entries.names.Nodup) : (entries.put name node).names.Nodup := by
  rw [names_put]
  split
  · exact distinct
  · case isFalse missing =>
    rw [contains_iff_mem_names] at missing
    refine List.nodup_append.mpr ⟨distinct, by simp, ?_⟩
    rintro other member _ single rfl
    exact missing (List.mem_singleton.mp single ▸ member)

theorem each_assign (first second : Key → Node → Prop) (name : String) (node : Node)
    (entries : Entries) (each : entries.Each first) (imp : ∀ key value, first key value → second key value)
    (fresh : second (.fresh name) node)
    (taken : ∀ key value, key.name = name → first key value → second key node) :
    (entries.assign name node).Each second := by
  induction entries with
  | nil => exact (each_cons _ _ _ _).mpr ⟨fresh, fun _ member => by cases member⟩
  | cons key value tail ih =>
    obtain ⟨here, later⟩ := (each_cons _ _ _ _).mp each
    rw [assign]
    split
    · case isTrue same => exact (each_cons _ _ _ _).mpr ⟨taken key value same here, later.imp imp⟩
    · exact (each_cons _ _ _ _).mpr ⟨imp _ _ here, ih later⟩

theorem names_assign (name : String) (node : Node) (entries : Entries) :
    (entries.assign name node).names = (entries.put name node).names := by
  induction entries with
  | nil => rfl
  | cons key value tail ih =>
    rw [assign, put]
    split
    · case isTrue same =>
      rw [names, names, same]
      rfl
    · rw [names, names, ih]

theorem mem_assign (name : String) (node : Node) (entries : Entries) (distinct : entries.names.Nodup)
    (entry : Key × Node) (member : entry ∈ entries.toList) (same : entry.1.name = name) :
    (entry.1, node) ∈ (entries.assign name node).toList := by
  induction entries with
  | nil => cases member
  | cons key value tail ih =>
    obtain ⟨missing, distinctTail⟩ := List.nodup_cons.mp distinct
    rw [assign]
    rcases List.mem_cons.mp member with rfl | later
    · rw [if_pos same]
      exact List.mem_cons_self
    · have other : ¬ key.name = name := by
        rintro rfl
        refine missing ?_
        rw [names_eq_map_to_list, ← same]
        exact List.mem_map_of_mem later
      rw [if_neg other]
      exact List.mem_cons_of_mem _ (ih distinctTail later)

theorem names_modify (name : String) (change : Node → Node) (entries : Entries) :
    (entries.modify name change).names = entries.names := by
  induction entries with
  | nil => rfl
  | cons key node tail ih =>
    rw [modify]
    split
    · rfl
    · rw [names, names, ih]

theorem each_modify (first second : Key → Node → Prop)
    (imp : ∀ key node, first key node → second key node) (name : String) (change : Node → Node)
    (entries : Entries) (each : entries.Each first) (changed : ∀ key node, key.name = name →
      entries.get? name = some node → first key node → second key (change node)) :
    (entries.modify name change).Each second := by
  induction entries with
  | nil => exact fun _ member => by cases member
  | cons key node tail ih =>
    obtain ⟨here, later⟩ := (each_cons _ _ _ _).mp each
    rw [modify]
    rw [get?] at changed
    split
    · case isTrue same =>
      rw [if_pos same] at changed
      exact (each_cons _ _ _ _).mpr ⟨changed key node same rfl here, later.imp imp⟩
    · case isFalse differs =>
      rw [if_neg differs] at changed
      exact (each_cons _ _ _ _).mpr ⟨imp _ _ here, ih later changed⟩

theorem each_get? (holds : Key → Node → Prop) (entries : Entries) (each : entries.Each holds)
    (name : String) (node : Node) (found : entries.get? name = some node) :
    ∃ key, key.name = name ∧ holds key node := by
  induction entries with
  | nil => cases found
  | cons key value tail ih =>
    obtain ⟨here, later⟩ := (each_cons _ _ _ _).mp each
    rw [get?] at found
    split at found
    · case isTrue same =>
      cases found
      exact ⟨key, same, here⟩
    · exact ih later found

theorem get?_of_mem (entries : Entries) (distinct : entries.names.Nodup) :
    ∀ entry ∈ entries.toList, entries.get? entry.1.name = some entry.2 := by
  induction entries with
  | nil => exact fun _ member => by cases member
  | cons key node tail ih =>
    obtain ⟨missing, distinctTail⟩ := List.nodup_cons.mp distinct
    intro entry member
    rw [get?]
    rcases List.mem_cons.mp member with rfl | later
    · exact if_pos rfl
    · have found := ih distinctTail entry later
      refine (if_neg fun same => ?_).trans found
      rw [same] at missing
      rw [(get?_eq_none_iff _ _).mpr missing] at found
      cases found

theorem legible_iff (site : Site) (entries : Entries) : entries.Legible site ↔
    entries.names.Nodup ∧ entries.Each fun key node =>
      key.Legible ∧ node.Suits site key ∧ node.Legible site := by
  induction entries with
  | nil => simp [Legible, names, Each, toList]
  | cons key node tail ih =>
    rw [Legible, names, List.nodup_cons, each_cons, ih]
    tauto

theorem legible_add? (site : Site) (byDots isDotted : Bool) (key : Key) (node : Node)
    (entries out : Entries) (legible : entries.Legible site)
    (here : key.Legible ∧ node.Suits site key ∧ node.Legible site)
    (added : entries.add? byDots isDotted key node = some out) : out.Legible site := by
  rw [add?] at added
  split at added
  · case isTrue free =>
    cases added
    rw [Bool.and_eq_true, Bool.not_eq_true'] at free
    have missing : key.name ∉ entries.names := by
      rw [← contains_iff_mem_names, free.2]
      exact Bool.false_ne_true
    obtain ⟨distinct, each⟩ := (legible_iff site entries).mp legible
    exact (legible_iff site _).mpr ⟨nodup_append key node entries missing distinct,
      each_append _ key node entries each here⟩
  · cases added

theorem add?_ne_nil (byDots isDotted : Bool) (key : Key) (node : Node) (entries out : Entries)
    (added : entries.add? byDots isDotted key node = some out) : out ≠ nil := by
  rw [add?] at added
  split at added
  · cases added
    cases entries <;> simp [append]
  · cases added

theorem alter?_ne_nil (key : Key) (change : Option Node → Option Node) (entries out : Entries)
    (altered : entries.alter? key change = some out) : out ≠ nil := by
  rintro rfl
  have names := names_alter? key change entries nil altered
  split at names
  · case isTrue member => exact absurd (names ▸ member) List.not_mem_nil
  · simp [Entries.names] at names

end Entries

end Reroot
