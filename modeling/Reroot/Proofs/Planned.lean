import Reroot.Proofs.Headings
import Reroot.Proofs.Rebuilt

set_option autoImplicit false

namespace Reroot

open Outline

def Node.lines : Node → List (List String × Data)
  | .scalar _ value => [([], value.data)]
  | .array _ elements => [([], .list elements.data)]
  | .inline style entries => if style.dotted then entries.lines else [([], .object entries.data)]
  | .table style entries => if style.dotted then entries.lines else []
  | .tables _ => []

mutual
-- All positions in a node lie in a range, and those of one element of an array do not exceed those
-- of the next.
def Node.Spans (low high : Nat) : Node → Prop
  | .table style entries =>
    (∀ position, style.position = some position → low ≤ position ∧ position ≤ high) ∧
      entries.Spans low high
  | .tables elements => elements.Spans low high
  | .scalar _ _ | .array _ _ | .inline _ _ => True
def Nodes.Spans (low high : Nat) : Nodes → Prop
  | .nil => True
  | .cons (.table style entries) tail => ∃ own last, style.position = some own ∧ low ≤ own ∧
      own ≤ last ∧ last ≤ high ∧ entries.Spans own last ∧ tail.Spans last high
  | .cons _ _ => False
def Entries.Spans (low high : Nat) : Entries → Prop
  | .nil => True
  | .cons _ node tail => node.Spans low high ∧ tail.Spans low high
end

mutual
theorem Node.fields_trace (parents : List Key) (key : Key) : (node : Node) →
    (node.fields parents key).map Field.trace =
      node.lines.map fun line => (parents.map (·.name) ++ key.name :: line.1, line.2)
  | .scalar _ _ | .array _ _ => rfl
  | .inline style entries => by
    rw [Node.fields, Node.lines]
    split
    · rw [Entries.fields_trace (parents ++ [key]) entries]
      simp
    · rfl
  | .table style entries => by
    rw [Node.fields, Node.lines]
    split
    · rw [Entries.fields_trace (parents ++ [key]) entries]
      simp
    · rfl
  | .tables _ => rfl
theorem Entries.fields_trace (parents : List Key) : (entries : Entries) →
    (entries.fields parents).map Field.trace =
      entries.lines.map fun line => (parents.map (·.name) ++ line.1, line.2)
  | .nil => rfl
  | .cons key node tail => by
    rw [Entries.lines, Entries.fields, Entries.fields, List.map_append, List.map_append,
      List.map_append, Node.fields_trace parents key node, Node.fields_trace [] key node,
      Entries.fields_trace parents tail, Entries.lines]
    simp
end

namespace Entries

theorem lines_cons (key : Key) (node : Node) (tail : Entries) : (cons key node tail).lines =
    (node.lines.map fun line => (key.name :: line.1, line.2)) ++ tail.lines := by
  rw [lines, fields, List.map_append, Node.fields_trace]
  rfl

theorem covers_lines (entries : Entries) : Covers entries.names (puts entries.lines) := by
  induction entries with
  | nil => exact fun part member => by cases member
  | cons key node tail ih =>
    intro part member
    rw [lines_cons, puts, List.map_append, List.mem_append] at member
    rcases member with here | later
    · obtain ⟨line, there, rfl⟩ := List.mem_map.mp here
      obtain ⟨line, -, rfl⟩ := List.mem_map.mp there
      exact ⟨key.name, line.1, rfl, List.mem_cons_self⟩
    · obtain ⟨first, rest, shape, there⟩ := ih part later
      exact ⟨first, rest, shape, List.mem_cons_of_mem _ there⟩

end Entries

namespace Outline

theorem under_of_covers (names : List String) (outline : Outline) (covers : Covers names outline)
    (name : String) (missing : name ∉ names) : under name outline = [] := by
  rw [under, List.filterMap_eq_nil_iff]
  rintro ⟨path, act⟩ member
  obtain ⟨first, rest, rfl, there⟩ := covers _ member
  have differs : ¬ first = name := fun same => missing (same ▸ there)
  simp [differs]

theorem mem_under (name : String) (outline : Outline) (part : List String × Act) :
    part ∈ under name outline ↔ (name :: part.1, part.2) ∈ outline := by
  obtain ⟨path, act⟩ := part
  rw [under, List.mem_filterMap]
  constructor
  · rintro ⟨⟨_ | ⟨first, rest⟩, other⟩, member, found⟩
    · cases found
    · dsimp only at found
      split at found
      · case isTrue same =>
        cases found
        exact same ▸ member
      · cases found
  · intro member
    exact ⟨_, member, by simp⟩

theorem mem_puts (lines : List (List String × Data)) (path : List String) (data : Data) :
    (path, .put data) ∈ puts lines ↔ (path, data) ∈ lines := by
  simp [puts]

theorem covers_append (names : List String) (first second : Outline) (covers : Covers names first)
    (covers' : Covers names second) : Covers names (first ++ second) := by
  intro part member
  rcases List.mem_append.mp member with early | late
  · exact covers part early
  · exact covers' part late

theorem puts_map_cons (name : String) (lines : List (List String × Data)) :
    puts (lines.map fun line => (name :: line.1, line.2)) =
      (puts lines).map fun part => (name :: part.1, part.2) := by
  simp [puts]

theorem covers_map_cons (name : String) (outline : Outline) :
    Covers [name] (outline.map fun part => (name :: part.1, part.2)) := by
  intro part member
  obtain ⟨own, -, rfl⟩ := List.mem_map.mp member
  exact ⟨name, own.1, rfl, List.mem_singleton.mpr rfl⟩

end Outline

namespace Entries

theorem under_lines (entries : Entries) (distinct : entries.names.Nodup) (name : String)
    (child : Node) (found : entries.get? name = some child) :
    under name (puts entries.lines) = puts child.lines := by
  induction entries with
  | nil => cases found
  | cons key node tail ih =>
    obtain ⟨missing, distinctTail⟩ := List.nodup_cons.mp distinct
    rw [lines_cons, puts, List.map_append, ← puts, ← puts, puts_map_cons, under_append]
    rw [get?] at found
    split at found
    · case isTrue same =>
      cases found
      rw [← same, under_map_cons, under_of_covers _ _ (covers_lines tail) _ missing, List.append_nil]
    · case isFalse differs =>
      rw [under_of_covers _ _ (covers_map_cons key.name (puts node.lines)) name
        (by simpa [eq_comm] using differs), List.nil_append, ih distinctTail found]

theorem sections_names (entries : Entries) : ∀ part ∈ entries.sections [],
    ∃ key rest, part.path = key :: rest ∧ key.name ∈ entries.names := by
  induction entries with
  | nil => exact fun part member => by cases member
  | cons key node tail ih =>
    intro part member
    rw [sections_here, List.mem_append] at member
    rcases member with here | later
    · obtain ⟨own, -, rfl⟩ := List.mem_map.mp here
      exact ⟨key, own.path, rfl, List.mem_cons_self⟩
    · obtain ⟨first, rest, shape, there⟩ := ih part later
      exact ⟨first, rest, shape, List.mem_cons_of_mem _ there⟩

theorem covers_headings (entries : Entries) (last : Nat) :
    Covers entries.names (Section.headings (Section.numbered last (entries.sections []))) := by
  intro part member
  obtain ⟨own, there, found⟩ := List.mem_filterMap.mp member
  obtain ⟨key, rest, shape, inside⟩ := entries.sections_names own.2
    (Section.mem_of_mem_numbered last _ own ((Section.mem_arranged _ _).mp there))
  rw [Section.heading?] at found
  split at found
  · cases found
    exact ⟨key.name, rest.map (·.name), by simp [shape], inside⟩
  · cases found

theorem under_headings (entries : Entries) (distinct : entries.names.Nodup) (last : Nat)
    (name : String) (child : Node) (found : entries.get? name = some child) :
    ∃ number, under name (Section.headings (Section.numbered last (entries.sections []))) =
        Section.headings (Section.numbered number (child.sections [] false)) ∧
      (∀ part ∈ Section.numbered number (child.sections [] false),
        ∃ same ∈ Section.numbered last (entries.sections []),
          same.1 = part.1 ∧ same.2.entries = part.2.entries) ∧
      ∀ same ∈ Section.numbered last (entries.sections []), Section.leads name same = true →
        ∃ part ∈ Section.numbered number (child.sections [] false),
          same.1 = part.1 ∧ same.2.entries = part.2.entries := by
  induction entries generalizing last with
  | nil => cases found
  | cons key node tail ih =>
    obtain ⟨missing, distinctTail⟩ := List.nodup_cons.mp distinct
    have first : ∀ other, ¬ key.name = other →
        ((Section.numbered last (node.sections [] false)).map fun part =>
          (part.1, part.2.inside key)).filter (Section.leads other) = [] := by
      intro other differs
      rw [List.filter_eq_nil_iff]
      intro part member
      obtain ⟨own, -, rfl⟩ := List.mem_map.mp member
      simpa [Section.leads, Section.inside] using differs
    rw [sections_here, Section.numbered_append, Section.numbered_inside, Section.under_headings_eq,
      List.filter_append]
    rw [get?] at found
    split at found
    · case isTrue same =>
      cases found
      have second : (Section.numbered (Section.carried last ((child.sections [] false).map
          (Section.inside key))) (tail.sections [])).filter (Section.leads name) = [] := by
        rw [List.filter_eq_nil_iff]
        intro part member
        obtain ⟨other, rest, shape, there⟩ :=
          tail.sections_names part.2 (Section.mem_of_mem_numbered _ _ part member)
        have differs : ¬ other.name = name := by
          rintro rfl
          exact missing (same ▸ there)
        simpa [Section.leads, shape] using differs
      have all : ((Section.numbered last (child.sections [] false)).map fun part =>
          (part.1, part.2.inside key)).filter (Section.leads name) =
          (Section.numbered last (child.sections [] false)).map fun part =>
            (part.1, part.2.inside key) := by
        rw [List.filter_eq_self]
        intro part member
        obtain ⟨own, -, rfl⟩ := List.mem_map.mp member
        simpa [Section.leads, Section.inside] using same
      refine ⟨last, ?_, fun part member => ?_, fun part member leads => ?_⟩
      · rw [second, all, List.append_nil, Section.headings_inside, same, under_map_cons]
      · exact ⟨(part.1, part.2.inside key),
          List.mem_append_left _ (List.mem_map.mpr ⟨part, member, rfl⟩), rfl, rfl⟩
      · rcases List.mem_append.mp member with here | later
        · obtain ⟨own, there, rfl⟩ := List.mem_map.mp here
          exact ⟨own, there, rfl, rfl⟩
        · exact absurd leads (List.filter_eq_nil_iff.mp second part later)
    · case isFalse differs =>
      obtain ⟨number, shape, each, back⟩ := ih distinctTail
        (Section.carried last ((node.sections [] false).map (Section.inside key))) found
      refine ⟨number, ?_, fun part member => ?_, fun part member leads => ?_⟩
      · rw [first name differs, List.nil_append, ← Section.under_headings_eq, shape]
      · obtain ⟨same, there, alike⟩ := each part member
        exact ⟨same, List.mem_append_right _ there, alike⟩
      · rcases List.mem_append.mp member with here | later
        · exact absurd leads (List.filter_eq_nil_iff.mp (first name differs) part here)
        · exact back part later leads

theorem planned_of_get? (entries : Entries) (distinct : entries.names.Nodup) (outline : Outline)
    (each : ∀ name child, entries.get? name = some child → child.Planned (under name outline)) :
    entries.Planned outline := by
  induction entries with
  | nil => trivial
  | cons key node tail ih =>
    obtain ⟨missing, distinctTail⟩ := List.nodup_cons.mp distinct
    refine ⟨each key.name node (by rw [get?, if_pos rfl]), ih distinctTail fun name child found => ?_⟩
    have differs : ¬ key.name = name := by
      rintro rfl
      exact missing ((mem_names_iff _ _).mpr ⟨child, found⟩)
    exact each name child (by rw [get?, if_neg differs, found])

end Entries

mutual
theorem Node.positions_of_spans (low high : Nat) (path : List Key) (isElement : Bool) :
    (node : Node) → node.Spans low high → ∀ part ∈ node.sections path isElement, ∀ position,
      part.style.position = some position → low ≤ position ∧ position ≤ high
  | .scalar _ _, _ | .array _ _, _ | .inline _ _, _ => by
    intro part member
    cases member
  | .table style entries, spans => by
    intro part member position found
    rw [Node.sections, List.mem_append] at member
    rcases member with own | deeper
    · split at own
      · cases own
      · cases List.mem_singleton.mp own
        exact spans.1 position found
    · exact Entries.positions_of_spans low high path entries spans.2 part deeper position found
  | .tables elements, spans => Nodes.positions_of_spans low high path elements spans
theorem Nodes.positions_of_spans (low high : Nat) (path : List Key) :
    (nodes : Nodes) → nodes.Spans low high → ∀ part ∈ nodes.sections path, ∀ position,
      part.style.position = some position → low ≤ position ∧ position ≤ high
  | .nil, _ => by
    intro part member
    cases member
  | .cons (.table style entries) tail, spans => by
    intro part member position found
    obtain ⟨own, last, isOwn, above, less, below, inner, rest⟩ := spans
    rw [Nodes.sections, List.mem_append, Node.sections, List.mem_append] at member
    rcases member with (here | deeper) | later
    · split at here
      · cases here
      · cases List.mem_singleton.mp here
        cases isOwn.symm.trans found
        omega
    · have := Entries.positions_of_spans own last path entries inner part deeper position found
      omega
    · have := Nodes.positions_of_spans last high path tail rest part later position found
      omega
  | .cons (.scalar _ _) _, spans | .cons (.array _ _) _, spans | .cons (.inline _ _) _, spans
  | .cons (.tables _) _, spans => spans.elim
theorem Entries.positions_of_spans (low high : Nat) (path : List Key) :
    (entries : Entries) → entries.Spans low high → ∀ part ∈ entries.sections path, ∀ position,
      part.style.position = some position → low ≤ position ∧ position ≤ high
  | .nil, _ => by
    intro part member
    cases member
  | .cons key node tail, spans => by
    intro part member
    rw [Entries.sections, List.mem_append] at member
    rcases member with here | later
    · exact Node.positions_of_spans low high _ false node spans.1 part here
    · exact Entries.positions_of_spans low high path tail spans.2 part later
end

-- The first element of an array has a position, so that all numbers in the array start there.
theorem Nodes.numbered_above (low high : Nat) (path : List Key) (nodes : Nodes)
    (isSection : ∀ node ∈ nodes.toList, node.isSection = true) (spans : nodes.Spans low high)
    (last : Nat) : ∀ part ∈ Section.numbered last (nodes.sections path), low ≤ part.1 := by
  cases nodes with
  | nil => exact fun part member => by cases member
  | cons head tail =>
    obtain ⟨style, entries, rfl, plain⟩ := head.table_of_is_section (isSection _ List.mem_cons_self)
    have between := Nodes.positions_of_spans low high path _ spans
    obtain ⟨own, finish, isOwn, above, less, below, -⟩ := spans
    rw [Nodes.sections, Node.sections, plain, if_neg Bool.false_ne_true] at between ⊢
    intro part member
    rw [List.append_assoc, List.singleton_append] at between member
    rw [Section.numbered, isOwn, Option.getD_some, List.mem_cons] at member
    rcases member with rfl | member
    · exact above
    · refine (Section.numbered_between own low high _ ⟨above, by omega⟩ (fun other there =>
        between other (List.mem_cons_of_mem _ there))).1 part member |>.1

-- Headers of a table that may come before the lines of the table around it: none that leads through
-- a table in which one of the lines sets a value.
def Outline.Free (before : Outline) (lines : List (List String × Data)) : Prop :=
  ∀ line ∈ lines, line.1.dropLast ≠ [] → ∀ part ∈ before, ¬ line.1.dropLast <+: part.1

def Node.Ordered (node : Node) : Prop :=
  ∀ last, (∀ part ∈ Section.numbered last (node.sections [] false), part.2.Clear part.1) →
    ∀ before after, Section.headings (Section.numbered last (node.sections [] false)) = before ++ after →
      (∀ line ∈ node.lines, line.1 ≠ [] → ∀ part ∈ before, ¬ line.1.dropLast <+: part.1) →
      node.Planned (before ++ (puts node.lines ++ after))

namespace Entries

theorem planned_of_ordered (entries : Entries) (distinct : entries.names.Nodup)
    (each : ∀ name child, entries.get? name = some child → child.Ordered) (last : Nat)
    (clear : ∀ part ∈ Section.numbered last (entries.sections []), part.2.Clear part.1)
    (before after : Outline)
    (shape : Section.headings (Section.numbered last (entries.sections [])) = before ++ after)
    (free : Free before entries.lines) : entries.Planned (before ++ (puts entries.lines ++ after)) := by
  refine entries.planned_of_get? distinct _ fun name child found => ?_
  obtain ⟨number, headings, alike, -⟩ := entries.under_headings distinct last name child found
  rw [under_append, under_append, entries.under_lines distinct name child found]
  refine each name child found number (fun part member => ?_) _ _ ?_ ?_
  · obtain ⟨same, there, number', inner⟩ := alike part member
    have holds := clear same there
    rw [Section.Clear, number', inner] at holds
    exact holds
  · rw [← headings, shape, under_append]
  · intro line member some' part there leads
    have above : (name :: line.1, line.2) ∈ entries.lines := by
      rw [← mem_puts, ← mem_under name (puts entries.lines) (line.1, .put line.2),
        entries.under_lines distinct name child found]
      exact (mem_puts _ _ _).mpr member
    have path : (name :: line.1).dropLast = name :: line.1.dropLast :=
      List.dropLast_cons_of_ne_nil some'
    refine free _ above (by simp [path]) _ ((mem_under _ _ _).mp there) ?_
    rw [path]
    exact (List.prefix_cons_inj name).mpr leads

end Entries

mutual
theorem Node.sections_of_line (site : Site) (other : site ≠ .body) (path : List Key)
    (isElement : Bool) : (node : Node) → node.Legible site → node.sections path isElement = []
  | .scalar _ _, _ | .array _ _, _ | .inline _ _, _ => rfl
  | .table _ _, legible => absurd legible.1 other
  | .tables _, legible => absurd legible.1 other
theorem Entries.sections_of_line (site : Site) (other : site ≠ .body) (path : List Key) :
    (entries : Entries) → entries.Legible site → entries.sections path = []
  | .nil, _ => rfl
  | .cons key node tail, legible => by
    rw [Entries.sections, Node.sections_of_line site other _ false node legible.2.2.2.1,
      Entries.sections_of_line site other path tail legible.2.2.2.2]
    rfl
end

theorem Entries.spans_of_line (site : Site) (other : site ≠ .body) (low high : Nat)
    (entries : Entries) (legible : entries.Legible site) : entries.Spans low high := by
  induction entries with
  | nil => trivial
  | cons key node tail ih =>
    obtain ⟨-, -, -, legibleNode, legibleTail⟩ := legible
    refine ⟨?_, ih legibleTail⟩
    cases node with
    | table style entries => exact absurd legibleNode.1 other
    | tables elements => exact absurd legibleNode.1 other
    | scalar margin value => trivial
    | array style elements => trivial
    | inline style entries => trivial

namespace Outline

theorem spread_around (before after : Outline) (lines : List (List String × Data))
    (headers : Headers (before ++ after))
    (first : (∃ name data, ([name], data) ∈ lines) → before = []) :
    Spread (before ++ (puts lines ++ after)) := by
  rintro ⟨name, data, member⟩
  have direct : ([name], data) ∈ lines := by
    rw [List.mem_append, List.mem_append, mem_puts] at member
    rcases member with early | own | late
    · cases headers _ (List.mem_append_left _ early)
    · exact own
    · cases headers _ (List.mem_append_right _ late)
  rw [first ⟨name, data, direct⟩]
  cases lines with
  | nil => cases direct
  | cons line rest => exact ⟨line.1, line.2, _, rfl⟩

theorem covers_around (names : List String) (before after own : Outline)
    (covers : Covers names (before ++ after)) (covers' : Covers names own) :
    Covers names (before ++ (own ++ after)) := by
  refine covers_append names _ _ (fun part member => covers part (List.mem_append_left _ member)) ?_
  exact covers_append names _ _ covers' fun part member => covers part (List.mem_append_right _ member)

end Outline

theorem Node.ordered_of_value (node : Node) (sections : node.sections [] false = [])
    (planned : node.Planned (puts node.lines)) : node.Ordered := by
  intro last clear before after shape free
  rw [sections] at shape
  obtain ⟨rfl, rfl⟩ := List.append_eq_nil_iff.mp shape.symm
  rw [List.nil_append, List.append_nil]
  exact planned

namespace Section

theorem headings_cons (part : Nat × Section) (rest : List (Nat × Section)) :
    ∃ before after, headings (part :: rest) = before ++ ((heading? part).toList ++ after) ∧
      headings rest = before ++ after ∧
      (∀ heading ∈ before, ∃ other ∈ rest, other.1 < part.1 ∧ heading? other = some heading) ∧
      ∀ other ∈ rest, other.1 < part.1 → ∀ heading, heading? other = some heading →
        heading ∈ before := by
  obtain ⟨before, after, shape, split, less, more⟩ :=
    place_split part (arranged rest) (pairwise_arranged rest)
  refine ⟨before.filterMap heading?, after.filterMap heading?, ?_, ?_, ?_, ?_⟩
  · rw [headings, arranged, shape, List.filterMap_append, List.filterMap_cons]
    cases heading? part <;> rfl
  · rw [headings, split, List.filterMap_append]
  · intro heading member
    obtain ⟨other, there, found⟩ := List.mem_filterMap.mp member
    refine ⟨other, (mem_arranged _ _).mp ?_, less other there, found⟩
    rw [split]
    exact List.mem_append_left _ there
  · intro other member smaller heading found
    have there := (mem_arranged _ _).mpr member
    rw [split, List.mem_append] at there
    rcases there with early | late
    · exact List.mem_filterMap.mpr ⟨other, early, found⟩
    · exact absurd smaller (Nat.not_lt.mpr (more other late))

theorem Clear.free {number : Nat} {part : Section} (clear : part.Clear number) (before : Outline)
    (each : ∀ heading ∈ before, ∃ other ∈ numbered number (part.entries.sections []),
      other.1 < number ∧ heading? other = some heading) : Free before part.entries.lines := by
  intro line member some' heading there leads
  obtain ⟨field, own, rfl⟩ := List.mem_map.mp member
  obtain ⟨other, inside, less, found⟩ := each heading there
  rw [heading?] at found
  split at found
  · case isTrue shown =>
    cases found
    have path : field.trace.1.dropLast = field.parents.map (·.name) := List.dropLast_concat
    rw [path] at some' leads
    exact clear other inside less shown field own (by simpa using some') leads
  · cases found

end Section

theorem Nodes.headings_cons (low high : Nat) (style : TableStyle) (entries : Entries) (tail : Nodes)
    (isSection : ∀ node ∈ (cons (.table style entries) tail).toList, node.isSection = true)
    (spans : (cons (.table style entries) tail).Spans low high) (last : Nat) :
    ∃ own finish, entries.Spans own finish ∧ tail.Spans finish high ∧
      Section.numbered last ((cons (.table style entries) tail).sections []) =
        (own, ⟨[], true, style, entries⟩) :: (Section.numbered own (entries.sections []) ++
          Section.numbered (Section.carried own (entries.sections [])) (tail.sections [])) ∧
      (∀ part ∈ Section.numbered own (entries.sections []), own ≤ part.1) ∧
      Section.headings (Section.numbered last ((cons (.table style entries) tail).sections [])) =
        ([], .opens true entries.lines) :: Section.headings (Section.numbered own (entries.sections [])) ++
          Section.headings (Section.numbered (Section.carried own (entries.sections []))
            (tail.sections [])) := by
  have plain : style.dotted = false := by simpa [Node.isSection] using isSection _ List.mem_cons_self
  obtain ⟨own, finish, isOwn, above, less, below, inner, rest⟩ := spans
  obtain ⟨within, -⟩ := Section.numbered_between own own finish (entries.sections []) ⟨le_rfl, less⟩
    (entries.positions_of_spans own finish [] inner)
  have further := Nodes.numbered_above finish high [] tail
    (fun node member => isSection node (List.mem_cons_of_mem _ member)) rest
    (Section.carried own (entries.sections []))
  have shape : Section.numbered last ((cons (.table style entries) tail).sections []) =
      (own, ⟨[], true, style, entries⟩) :: (Section.numbered own (entries.sections []) ++
        Section.numbered (Section.carried own (entries.sections [])) (tail.sections [])) := by
    rw [Nodes.sections, Node.sections, plain, if_neg Bool.false_ne_true, List.append_assoc,
      List.singleton_append, Section.numbered, isOwn, Option.getD_some, Section.numbered_append]
  refine ⟨own, finish, inner, rest, shape, fun part member => (within part member).1, ?_⟩
  have least : ∀ part ∈ Section.numbered own (entries.sections []) ++
      Section.numbered (Section.carried own (entries.sections [])) (tail.sections []),
      own ≤ part.1 := by
    intro part member
    rcases List.mem_append.mp member with early | late
    · exact (within part early).1
    · have := further part late
      omega
  rw [shape, Section.headings, Section.arranged, Section.place_of_le _ _ fun part member =>
    least part ((Section.mem_arranged _ _).mp member), Section.arranged_append _ _
    fun part member other there => Nat.le_trans (within part member).2 (further other there)]
  rw [List.filterMap_cons, List.filterMap_append]
  rfl

mutual
theorem Node.ordered_of_legible (site : Site) (low high : Nat) : (node : Node) → node.Legible site →
    node.Spans low high → node.Ordered
  | .scalar _ _, _, _ => Node.ordered_of_value _ rfl rfl
  | .array _ _, _, _ => Node.ordered_of_value _ rfl rfl
  | .inline style entries, legible, spans => by
    refine Node.ordered_of_value _ rfl ?_
    rw [Node.Legible] at legible
    rw [Node.Planned, Node.lines]
    split
    · case isTrue dotted =>
      rw [if_pos dotted] at legible
      have inner := legible.2.2
      have none := entries.sections_of_line site.spread site.spread_ne_body [] inner
      have distinct := entries.names_nodup (entries.distinct_of_legible _ inner)
      have planned := entries.planned_of_ordered distinct
        (Entries.ordered_of_legible site.spread low high entries inner
          (entries.spans_of_line site.spread site.spread_ne_body low high inner)) 0
        (by simp [none, Section.numbered]) [] [] (by rw [none]; rfl) fun _ _ _ _ member => by cases member
      rw [List.append_nil] at planned
      refine ⟨?_, entries.covers_lines, planned⟩
      rw [← List.append_nil (puts entries.lines)]
      exact spread_around [] [] entries.lines (fun _ member => by cases member) fun _ => rfl
    · rfl
  | .table style entries, legible, spans => by
    intro last clear before after shape free
    have distinct := entries.names_nodup (entries.distinct_of_legible _ legible.2.2)
    have each := Entries.ordered_of_legible .body low high entries legible.2.2 spans.2
    have headers := Section.headers_headings (Section.numbered last ((Node.table style entries).sections [] false))
    rw [Node.Planned, Node.lines]
    rw [Node.sections] at shape clear headers
    rw [Node.lines] at free
    cases dotted : style.dotted with
    | true =>
      rw [dotted, if_pos rfl, List.nil_append] at shape clear headers
      rw [dotted, if_pos rfl] at free
      rw [Bool.true_or, if_pos rfl, if_pos rfl]
      have covers := entries.covers_headings last
      rw [shape] at headers covers
      refine ⟨?_, covers_around _ _ _ _ covers entries.covers_lines, ?_⟩
      · refine spread_around before after entries.lines headers ?_
        rintro ⟨name, data, member⟩
        refine List.eq_nil_iff_forall_not_mem.mpr fun part there => ?_
        exact free _ member (by simp) part there (by simp)
      · refine entries.planned_of_ordered distinct each last clear before after shape ?_
        intro line member some' part there
        exact free line member (by rintro empty; simp [empty] at some') part there
    | false =>
      rw [dotted, if_neg Bool.false_ne_true, List.singleton_append, Section.numbered] at shape clear headers
      rw [Bool.false_or, if_neg Bool.false_ne_true]
      obtain ⟨first, second, whole, rest, less, -⟩ := Section.headings_cons
        (style.position.getD last, ⟨[], false, style, entries⟩)
        (Section.numbered (style.position.getD last) (entries.sections []))
      have own := clear _ List.mem_cons_self
      have clearRest := fun part member => clear part (List.mem_cons_of_mem _ member)
      have covers := entries.covers_headings (style.position.getD last)
      have headersRest := Section.headers_headings
        (Section.numbered (style.position.getD last) (entries.sections []))
      have free' : Free first entries.lines := own.free first less
      have planned := entries.planned_of_ordered distinct each _ clearRest first second rest free'
      rw [puts, List.map_nil, List.nil_append, ← shape, whole, Section.heading?]
      dsimp only
      cases shown : Section.shows false style entries with
      | true =>
        rw [rest] at covers headersRest
        rw [Bool.not_true, if_neg Bool.false_ne_true, if_pos rfl]
        exact ⟨first, second, rfl, headersRest, covers_around _ _ _ _ covers entries.covers_lines,
          planned⟩
      | false =>
        rw [Bool.not_false, if_pos rfl, if_neg Bool.false_ne_true]
        rw [entries.lines_of_hidden style shown] at planned
        rw [rest] at covers headersRest
        refine ⟨?_, covers, planned⟩
        exact spread_around first second [] headersRest fun some' => by
          obtain ⟨name, data, member⟩ := some'
          cases member
  | .tables elements, legible, spans => by
    intro last clear before after shape free
    obtain ⟨-, -, isSection, legible⟩ := legible
    have planned := Nodes.planned_of_legible low high elements isSection legible spans last clear
    have whole : Section.headings (Section.numbered last (elements.sections [])) = before ++ after := shape
    rw [whole] at planned
    exact planned
theorem Nodes.planned_of_legible (low high : Nat) : (nodes : Nodes) →
    (∀ node ∈ nodes.toList, node.isSection = true) → nodes.Legible .body → nodes.Spans low high →
    ∀ last, (∀ part ∈ Section.numbered last (nodes.sections []), part.2.Clear part.1) →
      nodes.Planned (Section.headings (Section.numbered last (nodes.sections [])))
  | .nil, _, _, _, _, _ => rfl
  | .cons head tail, isSection, legible, spans, last, clear => by
    cases head with
    | table style entries =>
      obtain ⟨own, finish, inner, rest, shape, -, sorted⟩ :=
        Nodes.headings_cons low high style entries tail isSection spans last
      have distinct := entries.names_nodup (entries.distinct_of_legible _ legible.1.2.2)
      have each := Entries.ordered_of_legible .body own finish entries legible.1.2.2 inner
      rw [shape] at clear
      rw [sorted]
      refine ⟨_, _, rfl, Section.headers_headings _, ?_, ?_, ?_⟩
      · exact covers_append _ _ _ entries.covers_lines (entries.covers_headings own)
      · exact entries.planned_of_ordered distinct each own
          (fun part member => clear part (List.mem_cons_of_mem _ (List.mem_append_left _ member)))
          [] _ rfl fun _ _ _ _ member => by cases member
      · exact Nodes.planned_of_legible finish high tail
          (fun node member => isSection node (List.mem_cons_of_mem _ member)) legible.2 rest _
          fun part member => clear part (List.mem_cons_of_mem _ (List.mem_append_right _ member))
    | scalar margin value => exact spans.elim
    | array style elements => exact spans.elim
    | inline style entries => exact spans.elim
    | tables elements => exact spans.elim
theorem Entries.ordered_of_legible (site : Site) (low high : Nat) : (entries : Entries) →
    entries.Legible site → entries.Spans low high →
    ∀ name node, entries.get? name = some node → node.Ordered
  | .nil, _, _, _, _, found => by cases found
  | .cons key value tail, legible, spans, name, node, found => by
    obtain ⟨-, -, -, legibleValue, legibleTail⟩ := legible
    rw [Entries.get?] at found
    split at found
    · cases found
      exact Node.ordered_of_legible site low high value legibleValue spans.1
    · exact Entries.ordered_of_legible site low high tail legibleTail spans.2 name node found
end

end Reroot
