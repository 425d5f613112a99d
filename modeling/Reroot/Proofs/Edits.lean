import Reroot.Document.Assembly
import Reroot.Document.Said
import Reroot.Proofs.Braces

set_option autoImplicit false

namespace Reroot

namespace Entries

theorem get?_append (key : Key) (node : Node) (entries : Entries) (missing : key.name ∉ entries.names)
    (name : String) :
    (entries.append key node).get? name = if name = key.name then some node else entries.get? name := by
  induction entries with
  | nil => simp [append, get?, eq_comm]
  | cons first value tail ih =>
    have differs : ¬ first.name = key.name := fun same => missing (same ▸ List.mem_cons_self)
    have rest : key.name ∉ tail.names := fun member => missing (List.mem_cons_of_mem _ member)
    rw [append, get?, get?, ih rest]
    by_cases hit : first.name = name
    · have other : ¬ name = key.name := fun same => differs (hit.trans same)
      simp [hit, other]
    · simp [hit]

theorem nodup_append (key : Key) (node : Node) (entries : Entries)
    (missing : key.name ∉ entries.names) (distinct : entries.names.Nodup) :
    (entries.append key node).names.Nodup := by
  rw [names_append]
  refine List.nodup_append.mpr ⟨distinct, by simp, ?_⟩
  rintro other member _ single rfl
  exact missing (List.mem_singleton.mp single ▸ member)

theorem names_erase (name : String) (entries : Entries) :
    (entries.erase name).names = entries.names.filter (· ≠ name) := by
  induction entries with
  | nil => rfl
  | cons key node tail ih =>
    by_cases same : key.name = name <;> simp [erase, names, same, ih]

theorem erase_of_missing (name : String) (entries : Entries) (missing : name ∉ entries.names) :
    entries.erase name = entries := by
  induction entries with
  | nil => rfl
  | cons key node tail ih =>
    have differs : ¬ key.name = name := fun same => missing (same ▸ List.mem_cons_self)
    rw [erase, if_neg differs, ih fun member => missing (List.mem_cons_of_mem _ member)]

theorem names_alter? (key : Key) (change : Option Node → Option Node) (entries out : Entries)
    (altered : entries.alter? key change = some out) :
    out.names = if key.name ∈ entries.names then entries.names else entries.names ++ [key.name] := by
  induction entries generalizing out with
  | nil =>
    obtain ⟨node, -, rfl⟩ := Option.map_eq_some_iff.mp altered
    rfl
  | cons first node tail ih =>
    rw [alter?] at altered
    split at altered
    · case isTrue same =>
      obtain ⟨node, -, rfl⟩ := Option.map_eq_some_iff.mp altered
      simp [names, same]
    · case isFalse differs =>
      obtain ⟨rest, inner, rfl⟩ := Option.map_eq_some_iff.mp altered
      have other : ¬ key.name = first.name := fun same => differs same.symm
      simp only [names, ih rest inner, List.mem_cons, other, false_or]
      split <;> simp

theorem nodup_alter? (key : Key) (change : Option Node → Option Node) (entries out : Entries)
    (distinct : entries.names.Nodup) (altered : entries.alter? key change = some out) :
    out.names.Nodup := by
  rw [names_alter? key change entries out altered]
  split
  · exact distinct
  · case isFalse missing =>
    refine List.nodup_append.mpr ⟨distinct, by simp, ?_⟩
    rintro other member _ single rfl
    exact missing (List.mem_singleton.mp single ▸ member)

end Entries

-- An edit that looks at one name and changes nothing else: `onSlot` says what becomes of the node
-- under the name, if the edit can be made.
structure Touches (name : String) (onSlot : Option Node → Option Node)
    (edit : Entries → Option Entries) : Prop where
  made : ∀ entries node, onSlot (entries.get? name) = some node → ∃ out, edit entries = some out ∧
    (∀ other, out.get? other = if other = name then some node else entries.get? other) ∧
    (entries.names.Nodup → out.names.Nodup)
  refused : ∀ entries, onSlot (entries.get? name) = none → edit entries = none

theorem touches_alter? (key : Key) (change : Option Node → Option Node) :
    Touches key.name change (Entries.alter? key change) := by
  have look : ∀ entries : Entries, (entries.alter? key change).isSome =
      (change (entries.get? key.name)).isSome ∧ ∀ node, change (entries.get? key.name) = some node →
      ∃ out, entries.alter? key change = some out ∧ ∀ other, out.get? other =
        if other = key.name then some node else entries.get? other := by
    intro entries
    induction entries with
    | nil =>
      refine ⟨by simp [Entries.alter?, Entries.get?], fun node changed => ?_⟩
      refine ⟨_, by rw [Entries.alter?, show change none = some node from changed]; rfl, fun other => ?_⟩
      simp [Entries.get?, eq_comm]
    | cons first value tail ih =>
      by_cases same : first.name = key.name
      · refine ⟨by simp [Entries.alter?, Entries.get?, same], fun node changed => ?_⟩
        rw [Entries.get?, if_pos same] at changed
        refine ⟨_, by rw [Entries.alter?, if_pos same, changed]; rfl, fun other => ?_⟩
        by_cases hit : other = key.name <;> simp [Entries.get?, same, hit, eq_comm]
      · have below : (Entries.cons first value tail).get? key.name = tail.get? key.name := by
          rw [Entries.get?, if_neg same]
        refine ⟨by rw [Entries.alter?, if_neg same, below, Option.isSome_map, ih.1],
          fun node changed => ?_⟩
        rw [below] at changed
        obtain ⟨out, altered, each⟩ := ih.2 node changed
        refine ⟨_, by rw [Entries.alter?, if_neg same, altered]; rfl, fun other => ?_⟩
        rw [Entries.get?, Entries.get?, each other]
        by_cases hit : first.name = other
        · have kept : ¬ other = key.name := fun h => same (hit.trans h)
          simp [hit, kept]
        · simp [hit]
  refine ⟨fun entries node changed => ?_, fun entries refused => ?_⟩
  · obtain ⟨out, altered, each⟩ := (look entries).2 node changed
    exact ⟨out, altered, each, fun distinct => Entries.nodup_alter? key change entries out distinct altered⟩
  · have none := (look entries).1
    rw [refused] at none
    exact Option.isNone_iff_eq_none.mp (by simpa using none)

theorem foldl_m_keeps {α β : Type} (holds : β → Prop) (step : β → α → Option β) (list : List α)
    (kept : ∀ item ∈ list, ∀ before after, holds before → step before item = some after → holds after)
    (start out : β) (here : holds start) (run : list.foldlM step start = some out) : holds out := by
  induction list generalizing start with
  | nil =>
    cases run
    exact here
  | cons item list ih =>
    rw [List.foldlM_cons] at run
    obtain ⟨next, first, rest⟩ := Option.bind_eq_some_iff.mp run
    exact ih (fun other member => kept other (List.mem_cons_of_mem _ member)) next
      (kept item List.mem_cons_self start next here first) rest

theorem foldl_m_touches {α : Type} (name : α → String) (onSlot : α → Option Node → Option Node)
    (edit : α → Entries → Option Entries) (list : List α)
    (touches : ∀ item ∈ list, Touches (name item) (onSlot item) (edit item)) (entries : Entries)
    (result : String → Option Node)
    (each : ∀ other, (list.filter (name · = other)).foldlM
      (fun slot item => (onSlot item slot).map some) (entries.get? other) = some (result other)) :
    ∃ out, list.foldlM (fun entries item => edit item entries) entries = some out ∧
      (∀ other, out.get? other = result other) ∧ (entries.names.Nodup → out.names.Nodup) := by
  induction list generalizing entries with
  | nil =>
    refine ⟨entries, rfl, fun other => ?_, id⟩
    exact Option.some.inj (each other)
  | cons item list ih =>
    have first := each (name item)
    rw [List.filter_cons_of_pos (by simp), List.foldlM_cons] at first
    obtain ⟨slot, changed, -⟩ := Option.bind_eq_some_iff.mp first
    obtain ⟨node, made, rfl⟩ := Option.map_eq_some_iff.mp changed
    obtain ⟨next, edited, looks, kept⟩ := (touches item List.mem_cons_self).made entries node made
    obtain ⟨out, run, looksOut, keptOut⟩ := ih
      (fun other member => touches other (List.mem_cons_of_mem _ member)) next fun other => by
        have whole := each other
        by_cases same : name item = other
        · rw [List.filter_cons_of_pos (by simpa using same), List.foldlM_cons, ← same, made] at whole
          rw [looks other, if_pos same.symm, ← same]
          exact whole
        · rw [List.filter_cons_of_neg (by simpa using same)] at whole
          rw [looks other, if_neg (Ne.symm same)]
          exact whole
    refine ⟨out, ?_, looksOut, fun distinct => keptOut (kept distinct)⟩
    rw [List.foldlM_cons, edited]
    exact run

theorem touches_of_foldl_m {α : Type} (name : α → String) (onSlot : α → Option Node → Option Node)
    (edit : α → Entries → Option Entries) (list : List α)
    (touches : ∀ item ∈ list, Touches (name item) (onSlot item) (edit item)) (entries out : Entries)
    (run : list.foldlM (fun entries item => edit item entries) entries = some out) (other : String) :
    (list.filter (name · = other)).foldlM (fun slot item => (onSlot item slot).map some)
      (entries.get? other) = some (out.get? other) := by
  induction list generalizing entries with
  | nil =>
    cases run
    rfl
  | cons item list ih =>
    rw [List.foldlM_cons] at run
    obtain ⟨next, edited, run⟩ := Option.bind_eq_some_iff.mp run
    have rest := ih (fun other member => touches other (List.mem_cons_of_mem _ member)) next run
    have touch := touches item List.mem_cons_self
    cases made : onSlot item (entries.get? (name item)) with
    | none =>
      rw [touch.refused entries made] at edited
      cases edited
    | some node =>
      obtain ⟨same, edited', looks, -⟩ := touch.made entries node made
      cases edited.symm.trans edited'
      rw [looks other] at rest
      by_cases hit : name item = other
      · rw [List.filter_cons_of_pos (by simpa using hit), List.foldlM_cons, ← hit, made]
        rw [if_pos hit.symm, ← hit] at rest
        exact rest
      · rw [List.filter_cons_of_neg (by simpa using hit)]
        rwa [if_neg (Ne.symm hit)] at rest

namespace Entries

def addFields? (lines : List Field) (style : TableStyle) (entries : Entries) : Option Entries :=
  lines.foldlM (fun entries line => entries.addField? line style) entries

def pass? (byDots : Bool) (change : TableStyle → Entries → Option Entries) (path : List Key) :
    Option Node → Option Node
  | none =>
    let style := if byDots then TableStyle.ofDottedKey else TableStyle.ofHeaderPath
    (descend? byDots change path style nil).map (.table style)
  | some (.table style inner) =>
    if byDots && !style.implicit then none
    else (descend? byDots change path style inner).map (.table style)
  | some (.tables elements) => (elements.alterLast? (descend? byDots change path)).map .tables
  | some _ => none

theorem descend?_cons (byDots : Bool) (change : TableStyle → Entries → Option Entries) (key : Key)
    (path : List Key) (style : TableStyle) (entries : Entries) :
    entries.descend? byDots change (key :: path) style =
      entries.alter? key (pass? byDots change path) := by
  rw [descend?]
  congr 1

end Entries

-- What a statement does at the end of its path: it sets a value, or it opens a table and has lines
-- of that table under it.
inductive Deed where
  | set (byDots : Bool) (value : Node)
  | opens (isElement : Bool) (style : TableStyle) (lines : List Field)

namespace Deed

def byDots : Deed → Bool
  | set byDots _ => byDots
  | opens _ _ _ => false

def here (dotted : Bool) : Deed → Option Node → Option Node
  | set byDots value, none => if byDots == dotted then some value else none
  | set _ _, some _ => none
  | opens false style lines, none => (Entries.nil.addFields? lines style).map (.table style)
  | opens false style lines, some (.table own inner) =>
    if own.implicit && !own.dotted then (inner.addFields? lines style).map (.table style) else none
  | opens false _ _, some _ => none
  | opens true style lines, none =>
    (Entries.nil.addFields? lines style).map fun inner => .tables (.cons (.table style inner) .nil)
  | opens true style lines, some (.tables elements) =>
    (Entries.nil.addFields? lines style).map fun inner => .tables (elements.append (.table style inner))
  | opens true _ _, some _ => none

section Opens

variable {dotted : Bool} {style : TableStyle} {lines : List Field}

theorem table_of_here {slot : Option Node} {node : Node}
    (made : here dotted (opens false style lines) slot = some node) :
    ∃ inner rest, inner.addFields? lines style = some rest ∧ node = .table style rest ∧
      (inner = .nil ∨ ∃ own, slot = some (.table own inner) ∧ own.dotted = false) := by
  cases slot with
  | none =>
    obtain ⟨rest, run, rfl⟩ := Option.map_eq_some_iff.mp made
    exact ⟨.nil, rest, run, rfl, .inl rfl⟩
  | some old =>
    cases old with
    | table own inner =>
      rw [here] at made
      split at made
      · case isTrue implicit =>
        obtain ⟨rest, run, rfl⟩ := Option.map_eq_some_iff.mp made
        have plain : own.dotted = false := by simpa using (Bool.and_eq_true_iff.mp implicit).2
        exact ⟨inner, rest, run, rfl, .inr ⟨own, rfl, plain⟩⟩
      · cases made
    | scalar _ _ | array _ _ | inline _ _ | tables _ => cases made

theorem elements_of_here {old node : Node}
    (made : here dotted (opens true style lines) (some old) = some node) :
    ∃ elements inner, Entries.nil.addFields? lines style = some inner ∧ old = .tables elements ∧
      node = .tables (elements.append (.table style inner)) := by
  cases old with
  | tables elements =>
    obtain ⟨inner, run, rfl⟩ := Option.map_eq_some_iff.mp made
    exact ⟨elements, inner, run, rfl, rfl⟩
  | scalar _ _ | array _ _ | inline _ _ | table _ _ => cases made

end Opens

def change (key : Key) (deed : Deed) (style : TableStyle) (entries : Entries) : Option Entries :=
  match deed with
  | set byDots value => entries.add? byDots style.dotted key value
  | opens false own lines => (here style.dotted (opens false own lines) (entries.get? key.name)).map
      ((entries.erase key.name).append key)
  | opens true own lines => entries.alter? key (here style.dotted (opens true own lines))

theorem touches_change (key : Key) (deed : Deed) (style : TableStyle) :
    Touches key.name (deed.here style.dotted) (deed.change key style) := by
  cases deed with
  | set byDots value =>
    refine ⟨fun entries node made => ?_, fun entries refused => ?_⟩
    · cases found : entries.get? key.name with
      | some other =>
        rw [found] at made
        cases made
      | none =>
        rw [found, here] at made
        have missing := (entries.get?_eq_none_iff key.name).mp found
        split at made
        · case isTrue same =>
          cases made
          have free : (byDots == style.dotted && !entries.contains key.name) = true := by
            simp [same, Entries.contains, found]
          exact ⟨entries.append key value, by rw [change, Entries.add?, if_pos free],
            entries.get?_append key value missing, entries.nodup_append key value missing⟩
        · cases made
    · cases found : entries.get? key.name with
      | some other => simp [change, Entries.add?, Entries.contains, found]
      | none =>
        rw [found, here] at refused
        split at refused
        · cases refused
        · case isFalse differs =>
          have other : (byDots == style.dotted) = false := by simpa using differs
          rw [change, Entries.add?, other, Bool.false_and, if_neg Bool.false_ne_true]
  | opens isElement own lines =>
    cases isElement with
    | true => exact touches_alter? key _
    | false =>
      refine ⟨fun entries node made => ?_, fun entries refused => ?_⟩
      · have missing : key.name ∉ (entries.erase key.name).names := by
          simp [Entries.names_erase]
        refine ⟨_, by rw [change, made]; rfl, fun other => ?_, fun distinct => ?_⟩
        · rw [Entries.get?_append _ _ _ missing, Entries.get?_erase]
          by_cases hit : other = key.name <;> simp [hit]
        · apply Entries.nodup_append _ _ _ missing
          rw [Entries.names_erase]
          exact distinct.filter _
      · rw [change, refused]
        rfl

end Deed

structure Edit where
  parents : List Key
  key : Key
  deed : Deed

namespace Edit

def run (edit : Edit) (style : TableStyle) (entries : Entries) : Option Entries :=
  entries.descend? edit.deed.byDots (edit.deed.change edit.key) edit.parents style

def name (edit : Edit) : String :=
  match edit.parents with
  | [] => edit.key.name
  | first :: _ => first.name

def inner (edit : Edit) : Edit := { edit with parents := edit.parents.tail }

def onSlot (dotted : Bool) (edit : Edit) : Option Node → Option Node :=
  match edit.parents with
  | [] => edit.deed.here dotted
  | _ :: path => Entries.pass? edit.deed.byDots (edit.deed.change edit.key) path

theorem touches_run (edit : Edit) (style : TableStyle) :
    Touches edit.name (edit.onSlot style.dotted) (edit.run style) := by
  rcases edit with ⟨_ | ⟨first, path⟩, key, deed⟩
  · exact deed.touches_change key style
  · have shape : (Edit.mk (first :: path) key deed).run style =
        Entries.alter? first (Entries.pass? deed.byDots (deed.change key) path) := by
      funext entries
      exact Entries.descend?_cons _ _ first path style entries
    rw [shape]
    exact touches_alter? first _

end Edit

end Reroot
