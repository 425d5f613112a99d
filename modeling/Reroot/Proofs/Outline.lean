import Reroot.Document.Orderly
import Reroot.Proofs.Blocks

set_option autoImplicit false

namespace Reroot

-- What a statement says at the end of its path, with the lines of a table under its header.
inductive Act where
  | put (data : Data)
  | opens (isElement : Bool) (lines : List (List String × Data))

abbrev Outline := List (List String × Act)

def Act.isPut : Act → Bool
  | put _ => true
  | opens _ _ => false

def Field.trace (field : Field) : List String × Data :=
  (field.parents.map (·.name) ++ [field.key.name], field.value.data)

def Deed.act : Deed → Act
  | set _ value => .put value.data
  | opens isElement _ lines => .opens isElement (lines.map Field.trace)

def Edit.trace (edit : Edit) : List String × Act :=
  (edit.parents.map (·.name) ++ [edit.key.name], edit.deed.act)

namespace Outline

def puts (lines : List (List String × Data)) : Outline :=
  lines.map fun (path, data) => (path, .put data)

def under (name : String) (outline : Outline) : Outline :=
  outline.filterMap fun (path, act) =>
    match path with
    | first :: rest => if first = name then some (rest, act) else none
    | [] => none

def Headers (outline : Outline) : Prop := ∀ part ∈ outline, part.2.isPut = false

def Covers (names : List String) (outline : Outline) : Prop :=
  ∀ part ∈ outline, ∃ first rest, part.1 = first :: rest ∧ first ∈ names

-- A table without a header is made by the first part below it. If that is a header, then no value
-- can be set in the table itself by dotted keys any more.
def Spread (outline : Outline) : Prop :=
  (∃ name data, ([name], .put data) ∈ outline) →
    ∃ path data rest, outline = (path, .put data) :: rest

theorem under_append (name : String) (first second : Outline) :
    under name (first ++ second) = under name first ++ under name second :=
  List.filterMap_append

end Outline

open Outline

def Entries.lines (entries : Entries) : List (List String × Data) :=
  (entries.fields []).map Field.trace

theorem Entries.lines_of_hidden (style : TableStyle) (entries : Entries)
    (hidden : Section.shows false style entries = false) : entries.lines = [] := by
  rw [Section.shows] at hidden
  simp only [Bool.or_eq_false_iff, Bool.not_eq_false', List.isEmpty_iff] at hidden
  rw [Entries.lines, hidden.2]
  rfl

mutual
-- An outline fits a node that is under the name it is taken of. Headers below a table may come
-- before its own, but those of one element of an array come before the next element.
def Node.Planned : Node → Outline → Prop
  | .scalar _ value, outline => outline = [([], .put value.data)]
  | .array _ elements, outline => outline = [([], .put (.list elements.data))]
  | .inline style entries, outline =>
    if style.dotted then Spread outline ∧ Covers entries.names outline ∧ entries.Planned outline
    else outline = [([], .put (.object entries.data))]
  | .table style entries, outline =>
    if style.dotted || !Section.shows false style entries then
      Spread outline ∧ Covers entries.names outline ∧ entries.Planned outline
    else ∃ before after, outline = before ++ ([], .opens false entries.lines) :: after ∧
      Headers (before ++ after) ∧
      Covers entries.names (before ++ (puts entries.lines ++ after)) ∧
      entries.Planned (before ++ (puts entries.lines ++ after))
  | .tables elements, outline => elements.Planned outline
def Nodes.Planned : Nodes → Outline → Prop
  | .nil, outline => outline = []
  | .cons (.table _ entries) tail, outline => ∃ after rest,
      outline = ([], .opens true entries.lines) :: after ++ rest ∧ Headers after ∧
      Covers entries.names (puts entries.lines ++ after) ∧
      entries.Planned (puts entries.lines ++ after) ∧ tail.Planned rest
  | .cons _ _, _ => False
def Entries.Planned : Entries → Outline → Prop
  | .nil, _ => True
  | .cons key node tail, outline => node.Planned (under key.name outline) ∧ tail.Planned outline
end

theorem Entries.planned_get? (entries : Entries) (outline : Outline) (planned : entries.Planned outline)
    (name : String) (child : Node) (found : entries.get? name = some child) :
    child.Planned (under name outline) := by
  induction entries with
  | nil => cases found
  | cons key node tail ih =>
    rw [get?] at found
    split at found
    · case isTrue same =>
      cases found
      exact same ▸ planned.1
    · exact ih planned.2 found

namespace Edit

def ofField (line : Field) : Edit :=
  ⟨line.parents, line.key, .set (!line.parents.isEmpty) line.value⟩

theorem run_of_field (line : Field) (style : TableStyle) (entries : Entries) :
    (ofField line).run style entries = entries.addField? line style := by
  obtain ⟨_ | ⟨first, rest⟩, key, value⟩ := line <;> rfl

theorem add_fields?_eq (lines : List Field) (style : TableStyle) (entries : Entries) :
    entries.addFields? lines style =
      (lines.map ofField).foldlM (fun entries edit => edit.run style entries) entries := by
  rw [Entries.addFields?, List.foldlM_map]
  simp only [run_of_field]

theorem map_trace_of_field (lines : List Field) :
    (lines.map ofField).map trace = puts (lines.map Field.trace) := by
  simp [ofField, trace, puts, Field.trace, Deed.act]

def Fits (dotted : Bool) (edit : Edit) : Prop :=
  match edit.deed with
  | .set byDots _ => byDots = (dotted || !edit.parents.isEmpty)
  | .opens _ style _ => style.dotted = false

def below (edit : Edit) : List String × Act := (edit.trace.1.tail, edit.trace.2)

theorem below_eq_here (edit : Edit) (act : Act) (here : edit.below = ([], act)) :
    edit.parents = [] ∧ edit.deed.act = act := by
  obtain ⟨_ | ⟨first, rest⟩, key, deed⟩ := edit
  · exact ⟨rfl, (Prod.mk.inj here).2⟩
  · simp [below, trace] at here

theorem trace_inner (edit : Edit) (deeper : edit.parents ≠ []) : edit.inner.trace = edit.below := by
  obtain ⟨_ | ⟨first, rest⟩, key, deed⟩ := edit
  · exact absurd rfl deeper
  · rfl

theorem trace_eq (edit : Edit) : edit.trace = (edit.name :: edit.below.1, edit.below.2) := by
  obtain ⟨_ | ⟨first, rest⟩, key, deed⟩ := edit <;> rfl

theorem under_map_trace (name : String) (edits : List Edit) :
    under name (edits.map trace) = (edits.filter (·.name = name)).map below := by
  induction edits with
  | nil => rfl
  | cons edit edits ih =>
    rw [List.map_cons, under, List.filterMap_cons, trace_eq]
    by_cases same : edit.name = name
    · rw [List.filter_cons_of_pos (by simpa using same)]
      simp only [same, if_true, List.map_cons]
      exact congrArg _ ih
    · rw [List.filter_cons_of_neg (by simpa using same)]
      simp only [same, if_false]
      exact ih

theorem on_slot_deeper (dotted : Bool) (first : Key) (rest : List Key) (key : Key) (deed : Deed)
    (slot : Option Node) : (Edit.mk (first :: rest) key deed).onSlot dotted slot =
      Entries.pass? deed.byDots (deed.change key) rest slot := rfl

def runSlot (dotted : Bool) (edits : List Edit) (slot : Option Node) : Option (Option Node) :=
  edits.foldlM (fun slot edit => (edit.onSlot dotted slot).map some) slot

theorem run_slot_append (dotted : Bool) (first second : List Edit) (slot : Option Node) :
    runSlot dotted (first ++ second) slot =
      (runSlot dotted first slot).bind (runSlot dotted second) := by
  rw [runSlot, List.foldlM_append]
  rfl

theorem run_slot_table (dotted : Bool) (edits : List Edit) (style : TableStyle) (entries : Entries)
    (deeper : ∀ edit ∈ edits, edit.parents ≠ [])
    (open' : ∀ edit ∈ edits, edit.deed.byDots = true → style.implicit = true) :
    runSlot dotted edits (some (.table style entries)) = Option.map (fun out => some (.table style out))
      ((edits.map inner).foldlM (fun entries edit => edit.run style entries) entries) := by
  induction edits generalizing entries with
  | nil => rfl
  | cons edit edits ih =>
    have step : edit.onSlot dotted (some (.table style entries)) =
        (edit.inner.run style entries).map (.table style) := by
      have passes := open' edit List.mem_cons_self
      have deeper' := deeper edit List.mem_cons_self
      obtain ⟨_ | ⟨first, rest⟩, key, deed⟩ := edit
      · exact absurd rfl deeper'
      · have allowed : ¬ (deed.byDots && !style.implicit) = true := by
          intro both
          rw [Bool.and_eq_true] at both
          simp [passes both.1] at both
        rw [on_slot_deeper, Entries.pass?, if_neg allowed]
        rfl
    rw [runSlot, List.foldlM_cons, step, List.map_cons, List.foldlM_cons]
    cases edit.inner.run style entries with
    | none => rfl
    | some next =>
      exact ih next (fun edit member => deeper edit (List.mem_cons_of_mem _ member))
        fun edit member => open' edit (List.mem_cons_of_mem _ member)

theorem run_slot_none (dotted : Bool) (edit : Edit) (edits : List Edit) (style : TableStyle)
    (made : style = if edit.deed.byDots then .ofDottedKey else .ofHeaderPath)
    (deeper : ∀ other ∈ edit :: edits, other.parents ≠ []) :
    runSlot dotted (edit :: edits) none = Option.map (fun out => some (.table style out))
      (((edit :: edits).map inner).foldlM (fun entries edit => edit.run style entries) .nil) := by
  have implicit : style.implicit = true := by
    rw [made]
    split <;> rfl
  have step : edit.onSlot dotted none = (edit.inner.run style .nil).map (.table style) := by
    have deeper' := deeper edit List.mem_cons_self
    obtain ⟨_ | ⟨first, rest⟩, key, deed⟩ := edit
    · exact absurd rfl deeper'
    · rw [on_slot_deeper, Entries.pass?, made]
      rfl
  rw [runSlot, List.foldlM_cons, step, List.map_cons, List.foldlM_cons]
  cases edit.inner.run style .nil with
  | none => rfl
  | some next =>
    exact run_slot_table dotted edits style next
      (fun edit member => deeper edit (List.mem_cons_of_mem _ member)) fun _ _ _ => implicit

theorem run_slot_tables (dotted : Bool) (edits : List Edit) (front : Nodes) (style : TableStyle)
    (entries : Entries) (deeper : ∀ edit ∈ edits, edit.parents ≠ []) :
    runSlot dotted edits (some (.tables (front.append (.table style entries)))) =
      Option.map (fun out => some (.tables (front.append (.table style out))))
        ((edits.map inner).foldlM (fun entries edit => edit.run style entries) entries) := by
  induction edits generalizing entries with
  | nil => rfl
  | cons edit edits ih =>
    have step : edit.onSlot dotted (some (.tables (front.append (.table style entries)))) =
        (edit.inner.run style entries).map fun out => .tables (front.append (.table style out)) := by
      have deeper' := deeper edit List.mem_cons_self
      obtain ⟨_ | ⟨first, rest⟩, key, deed⟩ := edit
      · exact absurd rfl deeper'
      · rw [on_slot_deeper, Entries.pass?, Nodes.alter_last?_append, Option.map_map]
        rfl
    rw [runSlot, List.foldlM_cons, step, List.map_cons, List.foldlM_cons]
    cases edit.inner.run style entries with
    | none => rfl
    | some next => exact ih next fun edit member => deeper edit (List.mem_cons_of_mem _ member)

end Edit

mutual
theorem Node.fields_of_hollow (parents : List Key) (key : Key) :
    (node : Node) → node.hollow = true → node.fields parents key = []
  | .scalar _ _, hollow | .array _ _, hollow | .inline _ _, hollow => by cases hollow
  | .table style entries, hollow => by
    rw [Node.hollow, Bool.and_eq_true] at hollow
    rw [Node.fields]
    split
    · exact Entries.fields_of_hollow (parents ++ [key]) entries hollow.2
    · rfl
  | .tables _, hollow => by cases hollow
theorem Entries.fields_of_hollow (parents : List Key) :
    (entries : Entries) → entries.hollow = true → entries.fields parents = []
  | .nil, _ => rfl
  | .cons key node tail, hollow => by
    rw [Entries.hollow, Bool.and_eq_true] at hollow
    rw [Entries.fields, Node.fields_of_hollow parents key node hollow.1,
      Entries.fields_of_hollow parents tail hollow.2]
    rfl
end

theorem Node.hollow_of_line (node : Node) (site : Site) (other : site ≠ .body)
    (legible : node.Legible site) : node.hollow = false := by
  cases node with
  | table style entries => exact absurd legible.1 other
  | scalar margin value => rfl
  | array style elements => rfl
  | inline style entries => rfl
  | tables elements => rfl

theorem Site.spread_ne_body (site : Site) : site.spread ≠ .body := by
  cases site <;> simp [spread]

mutual
theorem Node.hollow_of_planned (site : Site) :
    (node : Node) → node.Legible site → node.Planned [] → node.hollow = true
  | .scalar _ _, _, planned | .array _ _, _, planned => by cases planned
  | .inline style entries, legible, planned => by
    rw [Node.Planned] at planned
    split at planned
    · case isTrue dotted =>
      rw [Node.Legible, if_pos dotted] at legible
      obtain ⟨-, some', inner⟩ := legible
      have hollow := Entries.hollow_of_planned site.spread entries inner planned.2.2
      cases entries with
      | nil => exact absurd rfl some'
      | cons key node tail =>
        rw [Entries.hollow, Bool.and_eq_true] at hollow
        have solid := node.hollow_of_line site.spread site.spread_ne_body inner.2.2.2.1
        rw [solid] at hollow
        cases hollow.1
    · cases planned
  | .table style entries, legible, planned => by
    rw [Node.Planned] at planned
    split at planned
    · case isTrue headless =>
      have hollow := Entries.hollow_of_planned .body entries legible.2.2 planned.2.2
      have loose : (style.implicit || style.dotted) = true := by
        simp only [Section.shows, Bool.false_or, Bool.or_eq_true, Bool.not_eq_true',
          Bool.or_eq_false_iff, Bool.not_eq_false'] at headless ⊢
        exact headless.elim .inr fun both => .inl both.1
      rw [Node.hollow, loose, hollow]
      rfl
    · obtain ⟨before, after, none, -⟩ := planned
      simp at none
  | .tables elements, legible, planned => by
    cases elements with
    | nil => exact absurd rfl legible.2.1
    | cons head tail =>
      cases head with
      | table style entries =>
        obtain ⟨after, rest, none, -⟩ := planned
        simp at none
      | scalar margin value => cases planned
      | array style elements => cases planned
      | inline style entries => cases planned
      | tables elements => cases planned
theorem Entries.hollow_of_planned (site : Site) :
    (entries : Entries) → entries.Legible site → entries.Planned [] → entries.hollow = true
  | .nil, _, _ => rfl
  | .cons key node tail, legible, planned => by
    rw [Entries.hollow, Node.hollow_of_planned site node legible.2.2.2.1 planned.1,
      Entries.hollow_of_planned site tail legible.2.2.2.2 planned.2]
    rfl
end

mutual
theorem Node.planned_of_hollow (outline : Outline) :
    (node : Node) → node.hollow = true → node.Planned outline → outline = []
  | .scalar _ _, hollow, _ | .array _ _, hollow, _ | .inline _ _, hollow, _
  | .tables _, hollow, _ => by cases hollow
  | .table style entries, hollow, planned => by
    rw [Node.hollow, Bool.and_eq_true] at hollow
    obtain ⟨loose, hollow⟩ := hollow
    have headless : (style.dotted || !Section.shows false style entries) = true := by
      rw [Section.shows, Entries.fields_of_hollow [] entries hollow]
      cases dotted : style.dotted with
      | true => rfl
      | false =>
        rw [dotted, Bool.or_false] at loose
        rw [loose]
        rfl
    rw [Node.Planned, if_pos headless] at planned
    obtain ⟨-, covers, planned⟩ := planned
    have none := Entries.planned_of_hollow outline entries hollow planned
    cases outline with
    | nil => rfl
    | cons part rest =>
      obtain ⟨path, act⟩ := part
      obtain ⟨first, path, rfl, member⟩ := covers (path, act) List.mem_cons_self
      have empty := none first member
      simp [under] at empty
  termination_by node => sizeOf node
theorem Entries.planned_of_hollow (outline : Outline) :
    (entries : Entries) → entries.hollow = true → entries.Planned outline →
      ∀ name ∈ entries.names, under name outline = []
  | .nil, _, _ => by
    intro name member
    cases member
  | .cons key node tail, hollow, planned => by
    intro name member
    rw [Entries.hollow, Bool.and_eq_true] at hollow
    rw [Entries.names, List.mem_cons] at member
    rcases member with rfl | later
    · exact Node.planned_of_hollow _ node hollow.1 planned.1
    · exact Entries.planned_of_hollow outline tail hollow.2 planned.2 name later
  termination_by entries => sizeOf entries
end

end Reroot
