import Reroot.Proofs.Planned

set_option autoImplicit false

namespace Reroot

open Outline Edit

def Node.Cleared (node : Node) : Prop :=
  ∀ last before after dotted edits slot,
    Section.headings (Section.numbered last (node.sections [] false)) = before ++ after →
    edits.map below = before ++ (puts node.lines ++ after) → (∀ edit ∈ edits, edit.Fits dotted) →
    runSlot dotted edits none = some slot →
    (∀ part ∈ Section.numbered last (node.sections [] false), part.2.Clear part.1) ∧
      ∀ line ∈ node.lines, line.1 ≠ [] → ∀ part ∈ before, ¬ line.1.dropLast <+: part.1

theorem Node.cleared_of_value (node : Node) (sections : node.sections [] false = []) :
    node.Cleared := by
  intro last before after dotted edits slot shape traces fits run
  rw [sections] at shape ⊢
  obtain ⟨rfl, rfl⟩ := List.append_eq_nil_iff.mp shape.symm
  refine ⟨fun part member => ?_, fun _ _ _ part member => ?_⟩
  · cases member
  · cases member

theorem Edit.dotted_of_run (style : TableStyle) (edits : List Edit) (entries out : Entries)
    (run : edits.foldlM (fun entries edit => edit.run style entries) entries = some out)
    (key : Key) (byDots : Bool) (value : Node) (member : ⟨[], key, .set byDots value⟩ ∈ edits) :
    byDots = style.dotted := by
  induction edits generalizing entries with
  | nil => cases member
  | cons edit edits ih =>
    rw [List.foldlM_cons] at run
    obtain ⟨next, first, rest⟩ := Option.bind_eq_some_iff.mp run
    rcases List.mem_cons.mp member with rfl | later
    · have added : entries.add? byDots style.dotted key value = some next := first
      rw [Entries.add?] at added
      split at added
      · case isTrue free =>
        rw [Bool.and_eq_true, beq_iff_eq] at free
        exact free.1
      · cases added
    · exact ih next rest later

theorem Edit.dotted_of_direct (dotted : Bool) (style : TableStyle) (edits : List Edit)
    (fits : ∀ edit ∈ edits, edit.Fits dotted) (deeper : ∀ edit ∈ edits, edit.parents ≠ [])
    (entries out : Entries)
    (run : (edits.map inner).foldlM (fun entries edit => edit.run style entries) entries = some out)
    (edit : Edit) (member : edit ∈ edits) (shallow : edit.parents.tail = [])
    (isPut : edit.deed.act.isPut = true) : style.dotted = true := by
  have fit := fits edit member
  obtain ⟨first, key, byDots, value, rfl⟩ := edit.direct_of_put (deeper edit member) shallow isPut
  have dots : byDots = true := by simpa [Fits] using fit
  rw [← dotted_of_run style _ entries out run key byDots value (List.mem_map.mpr ⟨_, member, rfl⟩),
    dots]

theorem Edit.shallow_of_below (edit : Edit) (deeper : edit.parents ≠ []) (name : String) (act : Act)
    (shape : edit.below = ([name], act)) : edit.parents.tail = [] ∧ edit.deed.act = act := by
  obtain ⟨_ | ⟨first, rest⟩, key, deed⟩ := edit
  · exact absurd rfl deeper
  · obtain ⟨path, act⟩ := Prod.mk.inj shape
    have short : rest = [] := by simpa [trace] using congrArg List.length path
    exact ⟨short, act⟩

namespace Entries

theorem clear_of_run (entries : Entries) (distinct : entries.names.Nodup)
    (each : ∀ name child, entries.get? name = some child → child.Cleared) (last : Nat)
    (before after : Outline)
    (shape : Section.headings (Section.numbered last (entries.sections [])) = before ++ after)
    (style : TableStyle) (edits : List Edit) (out : Entries)
    (traces : edits.map trace = before ++ (puts entries.lines ++ after))
    (fits : ∀ edit ∈ edits, edit.Fits style.dotted)
    (run : edits.foldlM (fun entries edit => edit.run style entries) nil = some out) :
    (∀ part ∈ Section.numbered last (entries.sections []), part.2.Clear part.1) ∧
      Free before entries.lines := by
  have inside : ∀ name child, entries.get? name = some child →
      (∀ part ∈ Section.numbered last (entries.sections []), Section.leads name part = true →
        part.2.Clear part.1) ∧
      ∀ line ∈ child.lines, line.1 ≠ [] → ∀ part ∈ under name before,
        ¬ line.1.dropLast <+: part.1 := by
    intro name child found
    obtain ⟨number, headings, -, back⟩ := entries.under_headings distinct last name child found
    have slot := touches_of_foldl_m Edit.name (Edit.onSlot style.dotted) (fun edit => edit.run style)
      edits (fun edit _ => edit.touches_run style) nil out run name
    have below' := under_map_trace name edits
    rw [traces, under_append, under_append, entries.under_lines distinct name child found] at below'
    rw [shape, under_append] at headings
    obtain ⟨clear, free⟩ := each name child found number _ _ style.dotted _ _ headings.symm below'.symm
      (fun edit member => fits edit (List.mem_filter.mp member).1) slot
    refine ⟨fun part member leads => ?_, free⟩
    obtain ⟨own, there, number', inner⟩ := back part member leads
    have holds := clear own there
    rw [Section.Clear, ← number', ← inner] at holds
    exact holds
  constructor
  · intro part member
    obtain ⟨key, rest, path, there⟩ := entries.sections_names part.2
      (Section.mem_of_mem_numbered _ _ part member)
    obtain ⟨child, found⟩ := (mem_names_iff _ _).mp there
    exact (inside key.name child found).1 part member (by simp [Section.leads, path])
  · intro line member some' part there leads
    obtain ⟨name, rest, path, there'⟩ := entries.covers_lines _ ((mem_puts _ _ _).mpr member)
    obtain ⟨child, found⟩ := (mem_names_iff _ _).mp there'
    dsimp only at path
    have own : (rest, line.2) ∈ child.lines := by
      rw [← mem_puts, ← entries.under_lines distinct name child found, mem_under, mem_puts, ← path]
      exact member
    have deeper : rest ≠ [] := by
      rintro rfl
      simp [path] at some'
    rw [path, List.dropLast_cons_of_ne_nil deeper] at leads
    obtain ⟨tail, prefix'⟩ := leads
    refine (inside name child found).2 _ own deeper (rest.dropLast ++ tail, part.2) ?_ ⟨tail, rfl⟩
    rw [mem_under]
    have same : name :: (rest.dropLast ++ tail) = part.1 := prefix'
    rw [same]
    exact there

theorem clear_of_run_slot (entries : Entries) (distinct : entries.names.Nodup)
    (each : ∀ name child, entries.get? name = some child → child.Cleared) (last : Nat)
    (before after : Outline)
    (shape : Section.headings (Section.numbered last (entries.sections [])) = before ++ after)
    (dotted : Bool) (edits : List Edit) (slot : Option Node)
    (traces : edits.map below = before ++ (puts entries.lines ++ after))
    (fits : ∀ edit ∈ edits, edit.Fits dotted) (run : runSlot dotted edits none = some slot) :
    (∀ part ∈ Section.numbered last (entries.sections []), part.2.Clear part.1) ∧
      ∀ line ∈ entries.lines, line.1 ≠ [] → ∀ part ∈ before, ¬ line.1.dropLast <+: part.1 := by
  have headers := Section.headers_headings (Section.numbered last (entries.sections []))
  have covers := covers_around _ _ _ _ (shape ▸ entries.covers_headings last) entries.covers_lines
  rw [shape] at headers
  rw [← traces] at covers
  have deeper := deeper_of_covers _ _ covers
  cases edits with
  | nil =>
    have nothing := traces.symm
    rw [List.map_nil, List.append_eq_nil_iff, List.append_eq_nil_iff] at nothing
    obtain ⟨rfl, none, rfl⟩ := nothing
    obtain ⟨clear, -⟩ := entries.clear_of_run distinct each last [] [] shape .fresh [] nil
      (by rw [none]; rfl) (by simp) rfl
    exact ⟨clear, fun _ _ _ part member => by cases member⟩
  | cons edit edits =>
    obtain ⟨style, made⟩ : ∃ style : TableStyle,
        style = if edit.deed.byDots then .ofDottedKey else .ofHeaderPath := ⟨_, rfl⟩
    rw [run_slot_none dotted edit edits style made deeper] at run
    obtain ⟨out, run, -⟩ := Option.map_eq_some_iff.mp run
    have direct := dotted_of_direct dotted style (edit :: edits) fits deeper nil out run
    have inside : ∀ other ∈ (edit :: edits).map inner, other.Fits style.dotted := by
      intro other member
      obtain ⟨own, there, rfl⟩ := List.mem_map.mp member
      refine own.fits_inner dotted style.dotted (fits own there) (deeper own there) ?_
      intro plain isPut shallow
      rw [direct own there shallow isPut] at plain
      cases plain
    obtain ⟨clear, free⟩ := entries.clear_of_run distinct each last before after shape style _ out
      ((map_trace_inner _ deeper).trans traces) inside run
    refine ⟨clear, fun line member some' part there => ?_⟩
    obtain ⟨_ | ⟨name, _ | ⟨second, rest⟩⟩, data⟩ := line
    · exact absurd rfl some'
    · have put : ([name], .put data) ∈ (edit :: edits).map below := by
        rw [traces]
        exact List.mem_append_right _ (List.mem_append_left _ ((mem_puts _ _ _).mpr member))
      obtain ⟨own, own', same⟩ := List.mem_map.mp put
      obtain ⟨shallow, act⟩ := own.shallow_of_below (deeper own own') name _ same
      have isDotted := direct own own' shallow (by rw [act]; rfl)
      -- But the first edit is a header, and the table it makes is not dotted.
      cases before with
      | nil => cases there
      | cons heading before =>
        have first := (List.cons.inj traces).1
        have isHeader := headers heading List.mem_cons_self
        rw [← first] at isHeader
        have byHeader : edit.deed.byDots = false :=
          by_dots_of_headers [edit] (by simpa [Headers] using isHeader) edit (by simp)
        rw [made, byHeader] at isDotted
        cases isDotted
    · exact free _ member (List.cons_ne_nil _ _) part there

end Entries

theorem Section.clear_of_free (number : Nat) (part : Section) (before : Outline)
    (early : ∀ other ∈ numbered number (part.entries.sections []), other.1 < number →
      ∀ heading, heading? other = some heading → heading ∈ before)
    (free : Free before part.entries.lines) : part.Clear number := by
  intro inner member less shown field own some' leads
  have found : heading? inner = some (inner.2.path.map (·.name),
      .opens inner.2.isElement inner.2.entries.lines) := by
    rw [heading?, if_pos shown]
  have path : field.trace.1.dropLast = field.parents.map (·.name) := List.dropLast_concat
  refine free field.trace (List.mem_map_of_mem own) ?_ _ (early inner member less _ found) ?_
  · rw [path]
    simpa using some'
  · rw [path]
    exact leads

mutual
theorem Node.cleared_of_legible (site : Site) (low high : Nat) : (node : Node) → node.Legible site →
    node.Spans low high → node.Cleared
  | .scalar _ _, _, _ => Node.cleared_of_value _ rfl
  | .array _ _, _, _ => Node.cleared_of_value _ rfl
  | .inline _ _, _, _ => Node.cleared_of_value _ rfl
  | .table style entries, legible, spans => by
    intro last before after dotted edits slot shape traces fits run
    have distinct := entries.names_nodup (entries.distinct_of_legible _ legible.2.2)
    have each := Entries.cleared_of_legible .body low high entries legible.2.2 spans.2
    rw [Node.sections] at shape ⊢
    rw [Node.lines] at traces ⊢
    cases isDotted : style.dotted with
    | true =>
      rw [isDotted, if_pos rfl, List.nil_append] at shape
      rw [isDotted, if_pos rfl] at traces
      rw [if_pos rfl, if_pos rfl, List.nil_append]
      exact entries.clear_of_run_slot distinct each last before after shape dotted edits slot traces fits
        run
    | false =>
      rw [isDotted, if_neg Bool.false_ne_true, List.singleton_append, Section.numbered] at shape
      rw [isDotted, if_neg Bool.false_ne_true, puts, List.map_nil, List.nil_append, ← shape] at traces
      rw [if_neg Bool.false_ne_true, if_neg Bool.false_ne_true, List.singleton_append, Section.numbered]
      refine ⟨?_, fun _ member => by cases member⟩
      obtain ⟨first, second, whole, rest, -, early⟩ := Section.headings_cons
        (style.position.getD last, ⟨[], false, style, entries⟩)
        (Section.numbered (style.position.getD last) (entries.sections []))
      rw [whole, Section.heading?] at traces
      dsimp only at traces
      have headers := Section.headers_headings
        (Section.numbered (style.position.getD last) (entries.sections []))
      rw [rest] at headers
      -- Both the sections inside and the section itself are clear.
      have split : (∀ part ∈ Section.numbered (style.position.getD last) (entries.sections []),
          part.2.Clear part.1) ∧ Free first entries.lines := by
        cases shown : Section.shows false style entries with
        | true =>
          rw [shown, if_pos rfl] at traces
          obtain ⟨pre, post, key, own, lines, rfl, rfl, rfl, alike, plain, fits⟩ :=
            opens_of_below dotted edits fits first second false entries.lines traces
          rw [← List.map_append] at headers
          have covers := covers_around _ _ _ _
            (rest ▸ entries.covers_headings (style.position.getD last)) entries.covers_lines
          have deeper := Entries.deeper_around entries.names pre post _ covers
          have traces' := map_trace_body pre post lines deeper
          rw [alike] at traces'
          rw [run_slot_section pre post lines dotted deeper headers key own plain] at run
          obtain ⟨out, run, -⟩ := Option.map_eq_some_iff.mp run
          exact entries.clear_of_run distinct each _ _ _ rest own _ out traces'
            (plain.symm ▸ fits_body pre post lines dotted deeper headers fits) run
        | false =>
          have none := entries.lines_of_hidden style shown
          rw [shown, if_neg Bool.false_ne_true] at traces
          obtain ⟨clear, -⟩ := entries.clear_of_run_slot distinct each _ first second rest dotted edits slot
            (by rw [none]; exact traces) fits run
          exact ⟨clear, fun line member => by rw [none] at member; cases member⟩
      intro part member
      rcases List.mem_cons.mp member with rfl | later
      · exact Section.clear_of_free _ _ first early split.2
      · exact split.1 part later
  | .tables elements, legible, spans => by
    intro last before after dotted edits slot shape traces fits run
    refine ⟨?_, fun _ member => by cases member⟩
    exact Nodes.clear_of_run_slot low high elements legible.2.2.1 legible.2.2.2 spans last .nil
      dotted edits slot
      (traces.trans shape.symm) fits run
theorem Nodes.clear_of_run_slot (low high : Nat) : (nodes : Nodes) →
    (∀ node ∈ nodes.toList, node.isSection = true) → nodes.Legible .body → nodes.Spans low high →
    ∀ last (front : Nodes) dotted edits slot,
      edits.map below = Section.headings (Section.numbered last (nodes.sections [])) →
      (∀ edit ∈ edits, edit.Fits dotted) → runSlot dotted edits front.slot = some slot →
      ∀ part ∈ Section.numbered last (nodes.sections []), part.2.Clear part.1
  | .nil, _, _, _, _, _, _, _, _, _, _, _ => by
    intro part member
    cases member
  | .cons head tail, isSection, legible, spans, last, front, dotted, edits, slot, traces, fits, run => by
    cases head with
    | table style entries =>
      obtain ⟨own, finish, inner, rest, shape, least, sorted⟩ :=
        Nodes.headings_cons low high style entries tail isSection spans last
      have distinct := entries.names_nodup (entries.distinct_of_legible _ legible.1.2.2)
      have each := Entries.cleared_of_legible .body own finish entries legible.1.2.2 inner
      rw [sorted] at traces
      obtain ⟨edits, others, rfl, traces, tracesTail⟩ := List.map_eq_append_iff.mp traces
      rw [run_slot_append] at run
      obtain ⟨middle, run, runTail⟩ := Option.bind_eq_some_iff.mp run
      have headers := Section.headers_headings (Section.numbered own (entries.sections []))
      have covers := covers_append _ _ _ entries.covers_lines (entries.covers_headings own)
      obtain ⟨pre, post, key, opened, lines, rfl, none, post', alike, plain, fits'⟩ :=
        opens_of_below dotted edits (fun edit member => fits edit (List.mem_append_left _ member)) [] _ true
          entries.lines traces
      cases List.map_eq_nil_iff.mp none
      rw [← post'] at headers covers
      have deeper := Entries.deeper_around entries.names [] post _ covers
      have traces' := map_trace_body [] post lines deeper
      rw [alike, post'] at traces'
      rw [List.nil_append, run_slot_element dotted post lines deeper key opened front] at run
      obtain ⟨out, made, rfl⟩ := Option.map_eq_some_iff.mp run
      obtain ⟨clear, -⟩ := entries.clear_of_run distinct each own [] _ rfl opened _ out traces'
        (plain.symm ▸ fits_body [] post lines dotted deeper headers fits') made
      rw [← Nodes.slot_append] at runTail
      have clearTail := Nodes.clear_of_run_slot finish high tail
        (fun node member => isSection node (List.mem_cons_of_mem _ member)) legible.2 rest _
        (front.append (.table opened out)) dotted others slot tracesTail
        (fun edit member => fits edit (List.mem_append_right _ member)) runTail
      rw [shape]
      intro part member
      rcases List.mem_cons.mp member with rfl | member
      · refine fun other there less => absurd less (Nat.not_lt.mpr (least other there))
      · rcases List.mem_append.mp member with early | late
        · exact clear part early
        · exact clearTail part late
    | scalar margin value => exact spans.elim
    | array style elements => exact spans.elim
    | inline style entries => exact spans.elim
    | tables elements => exact spans.elim
theorem Entries.cleared_of_legible (site : Site) (low high : Nat) : (entries : Entries) →
    entries.Legible site → entries.Spans low high →
    ∀ name node, entries.get? name = some node → node.Cleared
  | .nil, _, _, _, _, found => by cases found
  | .cons key value tail, legible, spans, name, node, found => by
    obtain ⟨-, -, -, legibleValue, legibleTail⟩ := legible
    rw [Entries.get?] at found
    split at found
    · cases found
      exact Node.cleared_of_legible site low high value legibleValue spans.1
    · exact Entries.cleared_of_legible site low high tail legibleTail spans.2 name node found
end

end Reroot
