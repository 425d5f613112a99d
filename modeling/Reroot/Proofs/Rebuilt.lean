import Reroot.Proofs.Outline

set_option autoImplicit false

namespace Reroot

open Outline Edit

-- What is there after a run of edits for a node: nothing for a hollow one, and else a node with the
-- same to say.
def Node.Outcome (node : Node) (slot : Option Node) : Prop :=
  if node.hollow then slot = none else ∃ found, slot = some found ∧ node.said.Alike found.data

structure Entries.Outcome (entries out : Entries) : Prop where
  distinct : out.names.Nodup
  others : ∀ name, name ∉ entries.names → out.get? name = none
  each : ∀ name node, entries.get? name = some node → node.Outcome (out.get? name)

def Node.Runs (node : Node) : Prop :=
  ∀ (dotted : Bool) (edits : List Edit), (∀ edit ∈ edits, edit.Fits dotted) →
    node.Planned (edits.map below) → ∃ slot, runSlot dotted edits none = some slot ∧ node.Outcome slot

namespace Entries

theorem Outcome.alike {entries out : Entries} (outcome : entries.Outcome out)
    (distinct : entries.names.Nodup) : entries.said.Alike out.data := by
  have each : ∀ name data, entries.said.get? name = some data →
      ∃ same, out.data.get? name = some same ∧ data.Alike same := by
    intro name data found
    rw [entries.get?_said name distinct] at found
    obtain ⟨node, member, shown⟩ := Option.bind_eq_some_iff.mp found
    have made := outcome.each name node member
    rw [Node.Outcome] at made
    split at made
    · case isTrue hollow =>
      rw [if_pos hollow] at shown
      cases shown
    · case isFalse solid =>
      rw [if_neg solid] at shown
      cases shown
      obtain ⟨same, there, alike⟩ := made
      exact ⟨same.data, by rw [get?_data, there]; rfl, alike⟩
  have distinctSaid := entries.names_said.nodup distinct
  refine ⟨?_, DataFields.within_of_get? _ _ distinctSaid each⟩
  rw [out.names_data]
  refine (List.perm_ext_iff_of_nodup distinctSaid outcome.distinct).mpr fun name => ?_
  rw [DataFields.mem_names_iff, mem_names_iff]
  constructor
  · rintro ⟨data, found⟩
    obtain ⟨same, there, -⟩ := each name data found
    rw [get?_data] at there
    obtain ⟨node, there, -⟩ := Option.map_eq_some_iff.mp there
    exact ⟨node, there⟩
  · rintro ⟨same, there⟩
    cases found : entries.get? name with
    | none =>
      rw [outcome.others name ((get?_eq_none_iff _ _).mp found)] at there
      cases there
    | some node =>
      have made := outcome.each name node found
      rw [Node.Outcome] at made
      split at made
      · rw [made] at there
        cases there
      · case isFalse solid =>
        exact ⟨node.said, by rw [get?_said name entries distinct, found, Option.bind_some, if_neg solid]⟩

theorem outcome_of_planned (entries : Entries)
    (each : ∀ name node, entries.get? name = some node → node.Runs)
    (style : TableStyle) (edits : List Edit) (fits : ∀ edit ∈ edits, edit.Fits style.dotted)
    (covers : Covers entries.names (edits.map trace)) (planned : entries.Planned (edits.map trace)) :
    ∃ out, edits.foldlM (fun entries edit => edit.run style entries) nil = some out ∧
      entries.Outcome out := by
  have slots : ∀ name, ∃ slot, runSlot style.dotted (edits.filter (·.name = name)) none = some slot ∧
      (name ∉ entries.names → slot = none) ∧
      ∀ node, entries.get? name = some node → node.Outcome slot := by
    intro name
    cases found : entries.get? name with
    | none =>
      have missing := (get?_eq_none_iff _ _).mp found
      have empty : edits.filter (·.name = name) = [] := by
        rw [List.filter_eq_nil_iff]
        intro edit member same
        obtain ⟨first, rest, shape, there⟩ := covers _ (List.mem_map_of_mem member)
        rw [edit.trace_eq] at shape
        cases shape
        exact missing (of_decide_eq_true same ▸ there)
      rw [empty]
      exact ⟨none, rfl, fun _ => rfl, fun node other => by cases other⟩
    | some node =>
      have inside := entries.planned_get? _ planned name node found
      rw [under_map_trace] at inside
      obtain ⟨slot, run, outcome⟩ := each name node found style.dotted _
        (fun edit member => fits edit (List.mem_filter.mp member).1) inside
      have there := (mem_names_iff name entries).mpr ⟨node, found⟩
      exact ⟨slot, run, fun missing => absurd there missing, fun other same => by cases same; exact outcome⟩
  choose result run others outcome using slots
  obtain ⟨out, made, looks, distinct⟩ := foldl_m_touches Edit.name (Edit.onSlot style.dotted)
    (fun edit => edit.run style) edits (fun edit _ => edit.touches_run style) nil result run
  refine ⟨out, made, distinct List.nodup_nil, fun name missing => ?_, fun name node found => ?_⟩
  · rw [looks, others name missing]
  · rw [looks]
    exact outcome name node found

end Entries

namespace Edit

theorem parents_of_below (edit : Edit) (first : String) (rest : List String) (act : Act)
    (shape : edit.below = (first :: rest, act)) : edit.parents ≠ [] := by
  intro empty
  simp [below, trace, empty] at shape

theorem direct_of_put (edit : Edit) (deeper : edit.parents ≠ []) (shallow : edit.parents.tail = [])
    (isPut : edit.deed.act.isPut = true) :
    ∃ first key byDots value, edit = ⟨[first], key, .set byDots value⟩ := by
  obtain ⟨_ | ⟨first, rest⟩, key, deed⟩ := edit
  · exact absurd rfl deeper
  · cases shallow
    cases deed with
    | set byDots value => exact ⟨first, key, byDots, value, rfl⟩
    | opens isElement style lines => cases isPut

theorem run_congr (edit : Edit) (first second : TableStyle) (same : first.dotted = second.dotted)
    (entries : Entries) : edit.run first entries = edit.run second entries := by
  obtain ⟨_ | ⟨key, parents⟩, last, deed⟩ := edit
  · change deed.change last first entries = deed.change last second entries
    cases deed with
    | set byDots value => rw [Deed.change, Deed.change, same]
    | opens isElement own lines => cases isElement <;> rw [Deed.change, Deed.change, same]
  · exact (Entries.descend?_cons _ _ _ _ _ _).trans (Entries.descend?_cons _ _ _ _ _ _).symm

theorem on_slot_here (dotted : Bool) (key : Key) (deed : Deed) (slot : Option Node) :
    (Edit.mk [] key deed).onSlot dotted slot = deed.here dotted slot := rfl

theorem by_dots_of_headers (edits : List Edit) (headers : Headers (edits.map below)) :
    ∀ edit ∈ edits, edit.deed.byDots = false := by
  intro edit member
  have isHeader := headers _ (List.mem_map_of_mem member)
  obtain ⟨parents, key, deed⟩ := edit
  cases deed with
  | set byDots value => cases isHeader
  | opens isElement style lines => rfl

theorem fits_inner (edit : Edit) (dotted made : Bool) (fits : edit.Fits dotted)
    (deeper : edit.parents ≠ [])
    (direct : made = false → edit.deed.act.isPut = true → edit.parents.tail ≠ []) :
    edit.inner.Fits made := by
  obtain ⟨_ | ⟨first, rest⟩, key, deed⟩ := edit
  · exact absurd rfl deeper
  · cases deed with
    | opens isElement style lines => exact fits
    | set byDots value =>
      have dots : byDots = true := by simpa [Fits] using fits
      cases made with
      | true => exact dots
      | false =>
        have some' : rest ≠ [] := direct rfl rfl
        simpa [Fits, inner, dots, List.isEmpty_iff] using some'

end Edit

namespace Entries

theorem deeper_of_covers (names : List String) (edits : List Edit)
    (covers : Covers names (edits.map below)) : ∀ edit ∈ edits, edit.parents ≠ [] := by
  intro edit member
  obtain ⟨first, rest, shape, -⟩ := covers _ (List.mem_map_of_mem member)
  exact edit.parents_of_below first rest edit.below.2 (Prod.ext shape rfl)

theorem deeper_around (names : List String) (pre post : List Edit) (own : Outline)
    (covers : Covers names (pre.map below ++ (own ++ post.map below))) :
    ∀ edit ∈ pre ++ post, edit.parents ≠ [] := by
  refine deeper_of_covers names _ fun part member => covers part ?_
  rw [List.map_append, List.mem_append] at member
  rcases member with early | late
  · exact List.mem_append_left _ early
  · exact List.mem_append_right _ (List.mem_append_right _ late)

theorem map_trace_inner (edits : List Edit) (deeper : ∀ edit ∈ edits, edit.parents ≠ []) :
    (edits.map inner).map trace = edits.map below := by
  rw [List.map_map]
  exact List.map_congr_left fun edit member => edit.trace_inner (deeper edit member)

theorem outcome_of_headless (entries : Entries)
    (each : ∀ name node, entries.get? name = some node → node.Runs) (dotted : Bool) (edit : Edit)
    (edits : List Edit) (fits : ∀ other ∈ edit :: edits, other.Fits dotted)
    (spread : Spread ((edit :: edits).map below))
    (covers : Covers entries.names ((edit :: edits).map below))
    (planned : entries.Planned ((edit :: edits).map below)) :
    ∃ style out, runSlot dotted (edit :: edits) none = some (some (.table style out)) ∧
      entries.Outcome out := by
  have deeper := deeper_of_covers _ _ covers
  have traces := map_trace_inner _ deeper
  obtain ⟨style, made⟩ : ∃ style : TableStyle,
      style = if edit.deed.byDots then .ofDottedKey else .ofHeaderPath := ⟨_, rfl⟩
  have inside : ∀ other ∈ edit :: edits, other.inner.Fits style.dotted := by
    intro other member
    refine other.fits_inner dotted style.dotted (fits other member) (deeper other member) ?_
    intro plain isPut shallow
    -- A value of the table itself, so the first edit is a value too and makes a dotted table.
    obtain ⟨_, key, _, value, rfl⟩ := other.direct_of_put (deeper other member) shallow isPut
    obtain ⟨path, value, rest, first⟩ := spread
      ⟨key.name, value.data, List.mem_map.mpr ⟨_, member, rfl⟩⟩
    have act := (Prod.mk.inj (List.cons.inj first).1).2
    have head := fits edit List.mem_cons_self
    have some' := deeper edit List.mem_cons_self
    obtain ⟨parents, key, deed⟩ := edit
    cases deed with
    | set byDots value =>
      have dots : byDots = true := by simpa [Fits, List.isEmpty_eq_false_iff.mpr some'] using head
      rw [made, Deed.byDots, dots] at plain
      cases plain
    | opens isElement style lines => cases act
  obtain ⟨out, run, outcome⟩ := entries.outcome_of_planned each style ((edit :: edits).map inner)
    (by simpa using inside) (traces ▸ covers) (traces ▸ planned)
  refine ⟨style, out, ?_, outcome⟩
  rw [run_slot_none dotted edit edits style made deeper, run]
  rfl

end Entries

namespace Edit

def body (pre : List Edit) (lines : List Field) (post : List Edit) : List Edit :=
  pre.map inner ++ (lines.map ofField ++ post.map inner)

variable (pre post : List Edit) (lines : List Field) (dotted : Bool)

theorem map_trace_body (deeper : ∀ edit ∈ pre ++ post, edit.parents ≠ []) :
    (body pre lines post).map trace =
      pre.map below ++ (puts (lines.map Field.trace) ++ post.map below) := by
  rw [body, List.map_append, List.map_append, map_trace_of_field,
    Entries.map_trace_inner pre fun edit member => deeper edit (List.mem_append_left _ member),
    Entries.map_trace_inner post fun edit member => deeper edit (List.mem_append_right _ member)]

theorem fits_body (deeper : ∀ edit ∈ pre ++ post, edit.parents ≠ [])
    (headers : Headers ((pre ++ post).map below)) (fits : ∀ edit ∈ pre ++ post, edit.Fits dotted) :
    ∀ edit ∈ body pre lines post, edit.Fits false := by
  have inside : ∀ edit ∈ pre ++ post, edit.inner.Fits false := by
    intro edit member
    refine edit.fits_inner dotted false (fits edit member) (deeper edit member) ?_
    intro _ isPut
    have isHeader := headers _ (List.mem_map_of_mem member)
    rw [below, trace, isPut] at isHeader
    cases isHeader
  intro edit member
  rw [body, List.mem_append, List.mem_append] at member
  rcases member with before | own | after
  · obtain ⟨edit, there, rfl⟩ := List.mem_map.mp before
    exact inside edit (List.mem_append_left _ there)
  · obtain ⟨line, -, rfl⟩ := List.mem_map.mp own
    simp [Fits, ofField]
  · obtain ⟨edit, there, rfl⟩ := List.mem_map.mp after
    exact inside edit (List.mem_append_right _ there)

theorem opens_of_below (edits : List Edit) (fits : ∀ edit ∈ edits, edit.Fits dotted)
    (before after : Outline) (isElement : Bool) (own : List (List String × Data))
    (shape : edits.map below = before ++ ([], .opens isElement own) :: after) :
    ∃ (pre post : List Edit) (key : Key) (style : TableStyle) (lines : List Field),
      edits = pre ++ ⟨[], key, .opens isElement style lines⟩ :: post ∧ pre.map below = before ∧
      post.map below = after ∧ lines.map Field.trace = own ∧ style.dotted = false ∧
      ∀ edit ∈ pre ++ post, edit.Fits dotted := by
  obtain ⟨pre, rest, rfl, rfl, split⟩ := List.map_eq_append_iff.mp shape
  obtain ⟨opener, post, rfl, here, rfl⟩ := List.map_eq_cons_iff.mp split
  obtain ⟨top, act⟩ := opener.below_eq_here _ here
  obtain ⟨parents, key, deed⟩ := opener
  cases top
  cases deed with
  | set byDots value => cases act
  | opens isElement' style lines =>
    cases act
    refine ⟨pre, post, key, style, lines, rfl, rfl, rfl, rfl, ?_, fun edit member => fits edit ?_⟩
    · exact fits ⟨[], key, .opens isElement style lines⟩ (by simp)
    · rcases List.mem_append.mp member with early | late
      · exact List.mem_append_left _ early
      · exact List.mem_append_right _ (List.mem_cons_of_mem _ late)

theorem run_slot_opens (key : Key) (isElement : Bool) (style : TableStyle) (first : Entries)
    (slot : Option Node) (wrap : Entries → Node)
    (here : Deed.here dotted (.opens isElement style lines) slot =
      (first.addFields? lines style).map wrap)
    (rest : ∀ entries, runSlot dotted post (some (wrap entries)) =
      Option.map (fun out => some (wrap out))
        ((post.map inner).foldlM (fun entries edit => edit.run style entries) entries)) :
    runSlot dotted (⟨[], key, .opens isElement style lines⟩ :: post) slot =
      Option.map (fun out => some (wrap out)) ((lines.map ofField ++ post.map inner).foldlM
        (fun entries edit => edit.run style entries) first) := by
  rw [runSlot, List.foldlM_cons, on_slot_here, here, List.foldlM_append, ← add_fields?_eq]
  cases first.addFields? lines style with
  | none => rfl
  | some second => exact rest second

-- A table with a header is made by the headers below it that come before its own, then its lines,
-- then the headers that come after them.
theorem run_slot_section (deeper : ∀ edit ∈ pre ++ post, edit.parents ≠ [])
    (headers : Headers ((pre ++ post).map below)) (key : Key) (style : TableStyle)
    (plain : style.dotted = false) :
    runSlot dotted (pre ++ ⟨[], key, .opens false style lines⟩ :: post) none =
      Option.map (fun out => some (.table style out)) ((body pre lines post).foldlM
        (fun entries edit => edit.run style entries) .nil) := by
  have byHeader := by_dots_of_headers _ headers
  have rest : ∀ entries, runSlot dotted post (some (.table style entries)) =
      Option.map (fun out => some (.table style out))
        ((post.map inner).foldlM (fun entries edit => edit.run style entries) entries) :=
    fun entries => run_slot_table dotted post style entries
      (fun edit member => deeper edit (List.mem_append_right _ member)) fun edit member dots => by
        rw [byHeader edit (List.mem_append_right _ member)] at dots
        cases dots
  rw [run_slot_append, body, List.foldlM_append]
  cases pre with
  | nil => exact run_slot_opens post lines dotted key false style .nil none (.table style) rfl rest
  | cons edit pre =>
    have header := byHeader edit List.mem_cons_self
    have same : (fun (entries : Entries) (edit : Edit) => edit.run style entries) =
        fun entries edit => edit.run .ofHeaderPath entries := by
      funext entries edit
      exact edit.run_congr style .ofHeaderPath plain entries
    rw [run_slot_none dotted edit pre .ofHeaderPath (by rw [header]; rfl)
      fun other member => deeper other (List.mem_append_left _ member), ← same]
    cases ((edit :: pre).map inner).foldlM (fun entries edit => edit.run style entries) Entries.nil with
    | none => rfl
    | some first =>
      exact run_slot_opens post lines dotted key false style first
        (some (.table .ofHeaderPath first)) (.table style) rfl rest

end Edit

theorem Entries.outcome_of_section (entries : Entries)
    (each : ∀ name node, entries.get? name = some node → node.Runs) (dotted : Bool)
    (edits : List Edit) (fits : ∀ edit ∈ edits, edit.Fits dotted) (before after : Outline)
    (shape : edits.map below = before ++ ([], .opens false entries.lines) :: after)
    (headers : Headers (before ++ after))
    (covers : Covers entries.names (before ++ (puts entries.lines ++ after)))
    (planned : entries.Planned (before ++ (puts entries.lines ++ after))) :
    ∃ style out, runSlot dotted edits none = some (some (.table style out)) ∧
      entries.Outcome out := by
  obtain ⟨pre, post, key, style, lines, rfl, rfl, rfl, alike, plain, fits⟩ :=
    opens_of_below dotted edits fits before after false entries.lines shape
  rw [← List.map_append] at headers
  have deeper := deeper_around entries.names pre post _ covers
  have traces := map_trace_body pre post lines deeper
  rw [alike] at traces
  obtain ⟨out, run, outcome⟩ := entries.outcome_of_planned each style (body pre lines post)
    (plain.symm ▸ fits_body pre post lines dotted deeper headers fits) (traces ▸ covers)
    (traces ▸ planned)
  refine ⟨style, out, ?_, outcome⟩
  rw [run_slot_section pre post lines dotted deeper headers key style plain, run]
  rfl

namespace Nodes

def slot : Nodes → Option Node
  | nil => none
  | cons head tail => some (.tables (cons head tail))

theorem slot_append (node : Node) (nodes : Nodes) :
    (nodes.append node).slot = some (.tables (nodes.append node)) := by
  cases nodes <;> rfl

theorem here_slot (dotted : Bool) (style : TableStyle) (lines : List Field) (front : Nodes) :
    Deed.here dotted (.opens true style lines) front.slot =
      (Entries.nil.addFields? lines style).map fun inner =>
        .tables (front.append (.table style inner)) := by
  cases front <;> rfl

def Runs (nodes : Nodes) : Prop :=
  ∀ (dotted : Bool) (edits : List Edit) (front : Nodes), (∀ edit ∈ edits, edit.Fits dotted) →
    nodes.Planned (edits.map below) →
      ∃ (out : Nodes) (new : List Node), runSlot dotted edits front.slot = some out.slot ∧
        out.toList = front.toList ++ new ∧
        List.Forall₂ (fun node same => node.said.Alike same.data) nodes.toList new

theorem said_alike (nodes out : Nodes)
    (each : List.Forall₂ (fun node same => node.said.Alike same.data) nodes.toList out.toList) :
    nodes.said.Alike out.data := by
  induction nodes generalizing out with
  | nil =>
    cases out with
    | nil => trivial
    | cons head tail => cases each
  | cons head tail ih =>
    cases out with
    | nil => cases each
    | cons other rest =>
      obtain ⟨first, rest'⟩ := List.forall₂_cons.mp each
      exact ⟨first, ih rest rest'⟩

end Nodes

-- An element of an array is made by its header, its lines, and the headers below it.
theorem Edit.run_slot_element (dotted : Bool) (post : List Edit) (lines : List Field)
    (deeper : ∀ edit ∈ post, edit.parents ≠ []) (key : Key) (style : TableStyle) (front : Nodes) :
    runSlot dotted (⟨[], key, .opens true style lines⟩ :: post) front.slot =
      Option.map (fun out => some (.tables (front.append (.table style out))))
        ((body [] lines post).foldlM (fun entries edit => edit.run style entries) .nil) :=
  run_slot_opens post lines dotted key true style .nil front.slot
    (fun inner => .tables (front.append (.table style inner)))
    (front.here_slot dotted style lines) fun entries =>
      run_slot_tables dotted post front style entries deeper

theorem Entries.outcome_of_element (entries : Entries)
    (each : ∀ name node, entries.get? name = some node → node.Runs) (dotted : Bool)
    (edits : List Edit) (fits : ∀ edit ∈ edits, edit.Fits dotted) (after : Outline)
    (shape : edits.map below = ([], .opens true entries.lines) :: after) (headers : Headers after)
    (covers : Covers entries.names (puts entries.lines ++ after))
    (planned : entries.Planned (puts entries.lines ++ after)) (front : Nodes) :
    ∃ style out, runSlot dotted edits front.slot =
        some (some (.tables (front.append (.table style out)))) ∧ entries.Outcome out := by
  obtain ⟨pre, post, key, style, lines, rfl, none, rfl, alike, plain, fits⟩ :=
    opens_of_below dotted edits fits [] after true entries.lines shape
  cases List.map_eq_nil_iff.mp none
  have deeper := deeper_around entries.names [] post _ covers
  have traces := map_trace_body [] post lines deeper
  rw [alike] at traces
  obtain ⟨out, run, outcome⟩ := entries.outcome_of_planned each style (body [] lines post)
    (plain.symm ▸ fits_body [] post lines dotted deeper headers fits) (traces ▸ covers)
    (traces ▸ planned)
  refine ⟨style, out, ?_, outcome⟩
  rw [List.nil_append, run_slot_element dotted post lines deeper key style front, run]
  rfl

theorem Node.runs_value (node : Node) (solid : node.hollow = false)
    (single : ∀ outline, node.Planned outline → outline = [([], .put node.data)])
    (alike : node.said.Alike node.data) : node.Runs := by
  intro dotted edits fits planned
  obtain ⟨edit, rest, rfl, here, none⟩ := List.map_eq_cons_iff.mp (single _ planned)
  cases List.map_eq_nil_iff.mp none
  obtain ⟨top, act⟩ := edit.below_eq_here _ here
  obtain ⟨parents, key, deed⟩ := edit
  cases top
  cases deed with
  | opens isElement style lines => cases act
  | set byDots value =>
    have dots : byDots = dotted := by simpa [Fits] using fits _ List.mem_cons_self
    have data : value.data = node.data := by simpa [Deed.act] using act
    refine ⟨some value, ?_, ?_⟩
    · rw [runSlot, List.foldlM_cons, on_slot_here, Deed.here, dots, beq_self_eq_true, if_pos rfl]
      rfl
    · rw [Outcome, solid, if_neg Bool.false_ne_true]
      exact ⟨value, rfl, data.symm ▸ alike⟩

theorem Entries.said_of_line (site : Site) (other : site ≠ .body) (entries : Entries)
    (legible : entries.Legible site) : entries.said = entries.data := by
  induction entries with
  | nil => rfl
  | cons key node tail ih =>
    obtain ⟨-, -, -, legibleNode, legibleTail⟩ := legible
    have solid := node.hollow_of_line site other legibleNode
    have same : node.said = node.data := by
      cases node with
      | table style entries => exact absurd legibleNode.1 other
      | tables elements => exact absurd legibleNode.1 other
      | scalar margin value => rfl
      | array style elements => rfl
      | inline style entries => rfl
    rw [said, solid, if_neg Bool.false_ne_true, data, same, ih legibleTail]

mutual
theorem Node.runs_of_legible (site : Site) : (node : Node) → node.Legible site → node.Runs
  | .scalar margin value, legible =>
    Node.runs_value _ rfl (fun _ planned => planned)
      (Node.data_alike _ (Node.distinct_of_legible site _ legible))
  | .array style elements, legible =>
    Node.runs_value _ rfl (fun _ planned => planned)
      (Node.data_alike _ (Node.distinct_of_legible site _ legible))
  | .inline style entries, legible => by
    by_cases dotted : style.dotted = true
    · intro around edits fits planned
      have empty : edits ≠ [] := by
        rintro rfl
        cases Node.hollow_of_planned site _ legible planned
      rw [Node.Legible, if_pos dotted] at legible
      rw [Node.Planned, if_pos dotted] at planned
      obtain ⟨-, -, inner⟩ := legible
      obtain ⟨spread, covers, planned⟩ := planned
      cases edits with
      | nil => exact absurd rfl empty
      | cons edit edits =>
        obtain ⟨own, out, run, outcome⟩ := entries.outcome_of_headless
          (Entries.runs_of_legible site.spread entries inner) around edit edits fits spread covers planned
        have alike := outcome.alike (entries.names_nodup (entries.distinct_of_legible _ inner))
        rw [entries.said_of_line site.spread site.spread_ne_body inner] at alike
        refine ⟨_, run, ?_⟩
        rw [Node.Outcome, Node.hollow, if_neg Bool.false_ne_true]
        exact ⟨.table own out, rfl, alike⟩
    · refine Node.runs_value _ rfl (fun outline planned => ?_)
        (Node.data_alike _ (Node.distinct_of_legible site _ legible))
      rwa [Node.Planned, if_neg dotted] at planned
  | .table style entries, legible => by
    intro around edits fits planned
    have whole := planned
    have distinct := entries.names_nodup (entries.distinct_of_legible _ legible.2.2)
    have each := Entries.runs_of_legible .body entries legible.2.2
    rw [Node.Planned] at planned
    split at planned
    · obtain ⟨spread, covers, planned⟩ := planned
      cases edits with
      | nil =>
        refine ⟨none, rfl, ?_⟩
        rw [Node.Outcome, Node.hollow_of_planned site _ legible whole, if_pos rfl]
      | cons edit edits =>
        obtain ⟨own, out, run, outcome⟩ :=
          entries.outcome_of_headless each around edit edits fits spread covers planned
        refine ⟨_, run, ?_⟩
        rw [Node.Outcome]
        split
        · case isTrue hollow => cases Node.planned_of_hollow _ _ hollow whole
        · exact ⟨.table own out, rfl, outcome.alike distinct⟩
    · obtain ⟨before, after, shape, headers, covers, planned⟩ := planned
      obtain ⟨own, out, run, outcome⟩ :=
        entries.outcome_of_section each around edits fits before after shape headers covers planned
      refine ⟨_, run, ?_⟩
      rw [Node.Outcome]
      split
      · case isTrue hollow =>
        have none := Node.planned_of_hollow _ _ hollow whole
        simp [none] at shape
      · exact ⟨.table own out, rfl, outcome.alike distinct⟩
  | .tables elements, legible => by
    intro around edits fits planned
    obtain ⟨-, some', -, legible⟩ := legible
    obtain ⟨out, new, run, shape, alike⟩ :=
      Nodes.runs_of_legible elements legible around edits .nil fits planned
    have same : out.toList = new := shape
    subst same
    have slot : out.slot = some (.tables out) := by
      cases out with
      | nil =>
        cases elements with
        | nil => exact absurd rfl some'
        | cons head tail => cases alike
      | cons head tail => rfl
    refine ⟨_, run, ?_⟩
    rw [Node.Outcome, Node.hollow, if_neg Bool.false_ne_true, slot]
    exact ⟨.tables out, rfl, elements.said_alike out alike⟩
theorem Nodes.runs_of_legible : (nodes : Nodes) → nodes.Legible .body → nodes.Runs
  | .nil, _ => by
    intro around edits front fits planned
    cases List.map_eq_nil_iff.mp planned
    exact ⟨front, [], rfl, by simp, .nil⟩
  | .cons head tail, legible => by
    intro around edits front fits planned
    cases head with
    | table style entries =>
      obtain ⟨after, rest, shape, headers, covers, plannedHead, plannedTail⟩ := planned
      obtain ⟨edits, others, rfl, first, rfl⟩ := List.map_eq_append_iff.mp shape
      have legibleHead := legible.1.2.2
      obtain ⟨style', out, run, outcome⟩ := entries.outcome_of_element
        (Entries.runs_of_legible .body entries legibleHead) around edits
        (fun edit member => fits edit (List.mem_append_left _ member)) after first headers covers
        plannedHead front
      obtain ⟨all, new, runTail, shapeTail, alike⟩ := Nodes.runs_of_legible tail legible.2 around others
        (front.append (.table style' out))
        (fun edit member => fits edit (List.mem_append_right _ member)) plannedTail
      refine ⟨all, .table style' out :: new, ?_, ?_, .cons ?_ alike⟩
      · rw [run_slot_append, run, Option.bind_some, ← Nodes.slot_append, runTail]
      · rw [shapeTail, Nodes.to_list_append, List.append_assoc]
        rfl
      · exact outcome.alike (entries.names_nodup (entries.distinct_of_legible _ legibleHead))
    | scalar margin value => cases planned
    | array style elements => cases planned
    | inline style entries => cases planned
    | tables elements => cases planned
theorem Entries.runs_of_legible (site : Site) : (entries : Entries) → entries.Legible site →
    ∀ name node, entries.get? name = some node → node.Runs
  | .nil, _, _, _, found => by cases found
  | .cons key value tail, legible, name, node, found => by
    obtain ⟨-, -, -, legibleValue, legibleTail⟩ := legible
    rw [Entries.get?] at found
    split at found
    · cases found
      exact Node.runs_of_legible site value legibleValue
    · exact Entries.runs_of_legible site tail legibleTail name node found
end

end Reroot
