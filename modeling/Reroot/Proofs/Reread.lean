import Reroot.Proofs.Cleared
import Reroot.Proofs.Lines

set_option autoImplicit false

namespace Reroot

open Outline

namespace Block

def trace (block : Block) : List String × Act :=
  (block.header.parents.map (·.name) ++ [block.header.key.name],
    .opens block.header.isElement (block.lines.map Field.trace))

theorem map_trace_edits (number : Nat) (blocks : List Block) :
    (edits number blocks).map Edit.trace = blocks.map trace := by
  induction blocks generalizing number with
  | nil => rfl
  | cons block blocks ih =>
    rw [edits, List.map_cons, List.map_cons, ih]
    rfl

theorem fits_edits (number : Nat) (blocks : List Block) :
    ∀ edit ∈ edits number blocks, edit.Fits false := by
  induction blocks generalizing number with
  | nil => exact fun edit member => by cases member
  | cons block blocks ih =>
    intro edit member
    rw [edits, List.mem_cons] at member
    rcases member with rfl | later
    · rfl
    · exact ih _ edit later

end Block

namespace Section

def block? (part : Nat × Section) : Option Block :=
  part.2.header?.map fun header => ⟨header, part.2.entries.fields []⟩

theorem header?_eq (part : Section) (some' : part.path ≠ []) :
    part.header? = if shows part.isElement part.style part.entries then
      some ⟨part.path.dropLast, part.path.getLast some', part.isElement, part.style.margin⟩
    else none := by
  rw [header?, List.getLast?_eq_getLast_of_ne_nil some', shows]
  dsimp only
  cases part.isElement <;> cases part.style.implicit <;>
    cases (part.entries.fields []).isEmpty <;> rfl

theorem heading?_eq (part : Nat × Section) (some' : part.2.path ≠ []) :
    heading? part = (block? part).map Block.trace := by
  rw [heading?, block?, header?_eq part.2 some']
  split
  · have path : part.2.path.dropLast.map (·.name) ++ [(part.2.path.getLast some').name] =
        part.2.path.map (·.name) := by
      conv_rhs => rw [← List.dropLast_append_getLast some']
      rw [List.map_append]
      rfl
    simp only [Option.map_some, Block.trace, path]
    rfl
  · rfl

theorem statements_eq (part : Nat × Section) (some' : part.2.path ≠ []) :
    part.2.statements = (block? part).toList.flatMap Block.statements := by
  rw [statements, block?, header?_eq part.2 some']
  cases shown : shows part.2.isElement part.2.style part.2.entries with
  | true => simp [Block.statements]
  | false =>
    rw [shows] at shown
    simp only [Bool.or_eq_false_iff, Bool.not_eq_false', List.isEmpty_iff] at shown
    rw [shown.2]
    rfl

end Section

namespace Entries

def blocks (root : Entries) : List Block :=
  (Section.arranged (Section.numbered 0 (root.sections []))).filterMap Section.block?

theorem path_ne_nil (root : Entries) : ∀ part ∈ Section.arranged
    (Section.numbered 0 (root.sections [])), part.2.path ≠ [] := by
  intro part member
  obtain ⟨key, rest, shape, -⟩ := root.sections_names part.2
    (Section.mem_of_mem_numbered _ _ part ((Section.mem_arranged _ _).mp member))
  rw [shape]
  exact List.cons_ne_nil _ _

theorem statements_blocks (root : Entries) : root.statements =
    (root.fields []).map Statement.field ++ root.blocks.flatMap Block.statements := by
  rw [statements, Section.numbered, Section.arranged, Section.place_of_le _ _ fun _ _ => Nat.zero_le _,
    List.flatMap_cons, blocks]
  congr 1
  rw [List.filterMap_eq_flatMap_toList, List.flatMap_assoc]
  exact List.flatMap_congr fun part member => Section.statements_eq part (root.path_ne_nil part member)

theorem map_trace_blocks (root : Entries) :
    root.blocks.map Block.trace = Section.headings (Section.numbered 0 (root.sections [])) := by
  rw [blocks, List.map_filterMap, Section.headings]
  exact List.filterMap_congr fun part member =>
    (Section.heading?_eq part (root.path_ne_nil part member)).symm

end Entries

theorem Field.trace_says (line same : Field) (alike : line.Says same) : same.trace = line.trace := by
  rw [trace, trace, alike.parents, alike.name, alike.data]

theorem says_lines (lines : List Field) (same : List Statement)
    (alike : List.Forall₂ Statement.Says (lines.map Statement.field) same) :
    ∃ others : List Field, same = others.map Statement.field ∧
      others.map Field.trace = lines.map Field.trace := by
  induction lines generalizing same with
  | nil =>
    cases alike
    exact ⟨[], rfl, rfl⟩
  | cons line lines ih =>
    obtain ⟨statement, rest, kind, alikeRest, rfl⟩ := List.forall₂_cons_left_iff.mp alike
    obtain ⟨others, rfl, traces⟩ := ih rest alikeRest
    cases kind with
    | @field _ other first =>
      exact ⟨other :: others, rfl,
        by rw [List.map_cons, List.map_cons, traces, line.trace_says other first]⟩

theorem says_blocks (blocks : List Block) (same : List Statement)
    (alike : List.Forall₂ Statement.Says (blocks.flatMap Block.statements) same) :
    ∃ others : List Block, same = others.flatMap Block.statements ∧
      others.map Block.trace = blocks.map Block.trace := by
  induction blocks generalizing same with
  | nil =>
    cases alike
    exact ⟨[], rfl, rfl⟩
  | cons block blocks ih =>
    rw [List.flatMap_cons] at alike
    obtain ⟨first, rest, rfl, alikeFirst, alikeRest⟩ := forall₂_split _ _ _ alike
    obtain ⟨others, rfl, traces⟩ := ih rest alikeRest
    obtain ⟨statement, tail, kind, alikeLines, rfl⟩ := List.forall₂_cons_left_iff.mp alikeFirst
    obtain ⟨lines, rfl, same⟩ := says_lines block.lines tail alikeLines
    cases kind with
    | @header _ header opens =>
      refine ⟨⟨header, lines⟩ :: others, rfl, ?_⟩
      rw [List.map_cons, List.map_cons, traces, Block.trace, Block.trace, opens.parents, opens.name,
        opens.isElement, same]

namespace Document

-- Reading the text of a legible document is making the edits that its lines and headers stand for.
theorem reads_edits (document : Document) (legible : document.Legible)
    (within : document.within = true) :
    ∃ (edits : List Edit) (behind : Text), (∀ edit ∈ edits, edit.Fits false) ∧
      edits.map Edit.trace = puts document.root.lines ++
        Section.headings (Section.numbered 0 (document.root.sections [])) ∧
      ofText? document.text = Option.map (fun root => ⟨root, behind⟩)
        (edits.foldlM (fun entries edit => edit.run .fresh entries) .nil) := by
  obtain ⟨legible, isTail⟩ := legible
  have each : ∀ statement ∈ document.root.statements, statement.Legible := by
    intro statement member
    obtain ⟨part, there, member⟩ := List.mem_flatMap.mp member
    refine Section.Legible.legible_statements ?_ statement member
    have inside := Section.mem_of_mem_numbered _ _ part ((Section.mem_arranged _ _).mp there)
    rcases List.mem_cons.mp inside with top | deeper
    · rw [top]
      exact ⟨by simp, by simp, Margin.fits_unset _ _, legible⟩
    · exact Entries.legible_sections [] (by simp) document.root legible part.2 deeper
  obtain ⟨same, alike, behind, read⟩ := document.reads_statements isTail each within
  rw [document.root.statements_blocks] at alike
  obtain ⟨first, rest, rfl, alikeLines, alikeBlocks⟩ := forall₂_split _ _ _ alike
  obtain ⟨lines, rfl, tracesLines⟩ := says_lines _ _ alikeLines
  obtain ⟨blocks, rfl, tracesBlocks⟩ := says_blocks _ _ alikeBlocks
  refine ⟨lines.map Edit.ofField ++ Block.edits 0 blocks, behind, fun edit member => ?_, ?_, ?_⟩
  · rcases List.mem_append.mp member with own | later
    · obtain ⟨line, -, rfl⟩ := List.mem_map.mp own
      rfl
    · exact Block.fits_edits 0 blocks edit later
  · rw [List.map_append, Edit.map_trace_of_field, tracesLines, Block.map_trace_edits, tracesBlocks,
      document.root.map_trace_blocks]
    rfl
  · rw [read, Entries.of_statements?_eq, Edit.add_fields?_eq, List.foldlM_append]
    rfl

theorem reads_back_of_orderly (document : Document) (legible : document.Legible)
    (within : document.within = true) (high : Nat) (spans : document.root.Spans 0 high)
    (orderly : document.Orderly) :
    ∃ reread, ofText? document.text = some reread ∧ document.said.Alike reread.data := by
  obtain ⟨edits, behind, fits, traces, read⟩ := document.reads_edits legible within
  have distinct := document.root.names_nodup (document.root.distinct_of_legible _ legible.1)
  have planned := document.root.planned_of_ordered distinct
    (Entries.ordered_of_legible .body 0 high document.root legible.1 spans) 0 orderly [] _ rfl
    fun _ _ _ _ member => by cases member
  have covers := covers_append _ _ _ document.root.covers_lines (document.root.covers_headings 0)
  obtain ⟨out, run, outcome⟩ :=
    document.root.outcome_of_planned (Entries.runs_of_legible .body document.root legible.1)
    .fresh edits fits (traces ▸ covers) (traces ▸ planned)
  exact ⟨⟨out, behind⟩, by rw [read, run]; rfl, outcome.alike distinct⟩

theorem orderly_of_reads (document reread : Document) (legible : document.Legible)
    (within : document.within = true) (high : Nat) (spans : document.root.Spans 0 high)
    (reads : ofText? document.text = some reread) : document.Orderly := by
  obtain ⟨edits, behind, fits, traces, read⟩ := document.reads_edits legible within
  rw [reads] at read
  obtain ⟨out, run, -⟩ := Option.map_eq_some_iff.mp read.symm
  have distinct := document.root.names_nodup (document.root.distinct_of_legible _ legible.1)
  exact (document.root.clear_of_run distinct
    (Entries.cleared_of_legible .body 0 high document.root legible.1 spans) 0 [] _ rfl .fresh edits out traces
    fits run).1

end Document

end Reroot
