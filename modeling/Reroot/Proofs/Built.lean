import Reroot.Proofs.Assembled

set_option autoImplicit false

namespace Reroot

open Text

structure Node.Sized (nesting : Nat) (node : Node) : Prop where
  isValue : node.isValue = true
  within : node.within nesting = true
  written : ∀ style entries, node = .inline style entries → style.implicit = false

mutual
def Node.Built (nesting depth line : Nat) : Node → Prop
  | .scalar margin value => line < Reader.limit ∧ (Node.scalar margin value).Sized nesting
  | .array style elements => line < Reader.limit ∧ (Node.array style elements).Sized nesting
  | .inline style entries =>
    if style.dotted then entries.Built nesting (depth + 1) (line + 1)
    else line < Reader.limit ∧ (Node.inline style entries).Sized nesting
  | .table style entries =>
    (style.dotted = false → depth < Reader.limit) ∧ (Node.table style entries).hollow = false ∧
      entries.Built nesting (depth + 1) (if style.dotted then line + 1 else 0)
  | .tables elements => depth < Reader.limit ∧ elements.Built nesting depth
def Nodes.Built (nesting depth : Nat) : Nodes → Prop
  | .nil => True
  | .cons head tail => head.Built nesting depth 0 ∧ tail.Built nesting depth
def Entries.Built (nesting depth line : Nat) : Entries → Prop
  | .nil => True
  | .cons _ node tail => node.Built nesting depth line ∧ tail.Built nesting depth line
end

theorem Entries.built_iff (nesting depth line : Nat) (entries : Entries) :
    entries.Built nesting depth line ↔ entries.Each fun _ node => node.Built nesting depth line := by
  induction entries with
  | nil => simp [Built, Each, toList]
  | cons key node tail ih => rw [Built, each_cons, ih]

theorem Nodes.built_append (nesting depth : Nat) (node : Node) (nodes : Nodes) :
    (nodes.append node).Built nesting depth ↔
      nodes.Built nesting depth ∧ node.Built nesting depth 0 := by
  induction nodes with
  | nil => simp [append, Built]
  | cons head tail ih => rw [append, Built, Built, ih, and_assoc]

namespace Node

theorem Sized.built {nesting : Nat} {node : Node} (sized : node.Sized nesting) (depth line : Nat)
    (short : line < Reader.limit) : node.Built nesting depth line := by
  have isValue := sized.isValue
  cases node with
  | scalar margin value => exact ⟨short, sized⟩
  | array style elements => exact ⟨short, sized⟩
  | inline style entries =>
    rw [Built, if_neg (by simpa [Node.isValue] using isValue)]
    exact ⟨short, sized⟩
  | table style entries => cases isValue
  | tables elements => cases isValue

theorem Sized.with_margin {nesting : Nat} {node : Node} (sized : node.Sized nesting) (margin : Margin) :
    (node.withMargin margin).Sized nesting := by
  obtain ⟨isValue, within, written⟩ := sized
  cases node with
  | scalar own value => exact ⟨rfl, within, fun _ _ same => by cases same⟩
  | array style elements => exact ⟨rfl, within, fun _ _ same => by cases same⟩
  | inline style entries =>
    refine ⟨isValue, within, fun style' entries' same => ?_⟩
    cases same
    exact written style entries rfl
  | table style entries => cases isValue
  | tables elements => cases isValue

theorem hollow_of_is_value (node : Node) (isValue : node.isValue = true) : node.hollow = false := by
  cases node with
  | scalar margin value => rfl
  | array style elements => rfl
  | inline style entries => rfl
  | table style entries => cases isValue
  | tables elements => cases isValue

end Node

mutual
theorem Node.built_fields (nesting depth : Nat) (parents : List Key) (key : Key) : (node : Node) →
    node.Built nesting depth parents.length → ∀ field ∈ node.fields parents key,
      field.parents.length < Reader.limit ∧ field.value.within nesting = true
  | .scalar _ _, built, field, member
  | .array _ _, built, field, member => by
    rw [Node.fields, List.mem_singleton] at member
    rw [member]
    exact ⟨built.1, built.2.within⟩
  | .inline style entries, built, field, member => by
    rw [Node.fields] at member
    rw [Node.Built] at built
    by_cases dotted : style.dotted = true
    · rw [if_pos dotted] at member built
      exact Entries.built_fields nesting (depth + 1) (parents ++ [key]) entries (by simpa using built)
        field member
    · rw [if_neg dotted] at built
      rw [if_neg dotted, List.mem_singleton] at member
      rw [member]
      exact ⟨built.1, built.2.within⟩
  | .table style entries, built, field, member => by
    rw [Node.fields] at member
    by_cases dotted : style.dotted = true
    · have inner := built.2.2
      rw [if_pos dotted] at member inner
      exact Entries.built_fields nesting (depth + 1) (parents ++ [key]) entries (by simpa using inner)
        field member
    · rw [if_neg dotted] at member
      cases member
  | .tables _, _, _, member => by cases member
theorem Entries.built_fields (nesting depth : Nat) (parents : List Key) : (entries : Entries) →
    entries.Built nesting depth parents.length → ∀ field ∈ entries.fields parents,
      field.parents.length < Reader.limit ∧ field.value.within nesting = true
  | .nil, _, _, member => by cases member
  | .cons key node tail, built, field, member => by
    rw [Entries.fields, List.mem_append] at member
    rcases member with here | later
    · exact Node.built_fields nesting depth parents key node built.1 field here
    · exact Entries.built_fields nesting depth parents tail built.2 field later
end

mutual
theorem Node.built_sections (nesting : Nat) (path : List Key) (key : Key) (line : Nat) (isElement : Bool) :
    (node : Node) → node.Built nesting path.length line →
      ∀ part ∈ node.sections (path ++ [key]) isElement, part.path.length ≤ Reader.limit ∧
        part.entries.Built nesting part.path.length 0
  | .scalar _ _, _, _, member | .array _ _, _, _, member | .inline _ _, _, _, member => by cases member
  | .table style entries, built, part, member => by
    obtain ⟨short, -, inner⟩ := built
    rw [Node.sections, List.mem_append] at member
    rcases member with own | deeper
    · by_cases dotted : style.dotted = true
      · rw [if_pos dotted] at own
        cases own
      · rw [if_neg dotted, List.mem_singleton] at own
        rw [if_neg dotted] at inner
        have less := short (by simpa using dotted)
        rw [own]
        refine ⟨?_, by simpa using inner⟩
        rw [List.length_append, List.length_singleton]
        exact less
    · have inside :
          entries.Built nesting (path ++ [key]).length (if style.dotted then line + 1 else 0) := by
        simpa using inner
      exact Entries.built_sections nesting (path ++ [key]) _ entries inside part deeper
  | .tables elements, built, part, member =>
    Nodes.built_sections nesting path key elements built.2 part member
theorem Nodes.built_sections (nesting : Nat) (path : List Key) (key : Key) : (nodes : Nodes) →
    nodes.Built nesting path.length → ∀ part ∈ nodes.sections (path ++ [key]),
      part.path.length ≤ Reader.limit ∧ part.entries.Built nesting part.path.length 0
  | .nil, _, _, member => by cases member
  | .cons head tail, built, part, member => by
    rw [Nodes.sections, List.mem_append] at member
    rcases member with first | later
    · exact Node.built_sections nesting path key 0 true head built.1 part first
    · exact Nodes.built_sections nesting path key tail built.2 part later
theorem Entries.built_sections (nesting : Nat) (path : List Key) (line : Nat) : (entries : Entries) →
    entries.Built nesting path.length line → ∀ part ∈ entries.sections path,
      part.path.length ≤ Reader.limit ∧ part.entries.Built nesting part.path.length 0
  | .nil, _, _, member => by cases member
  | .cons key node tail, built, part, member => by
    rw [Entries.sections, List.mem_append] at member
    rcases member with here | later
    · exact Node.built_sections nesting path key line false node built.1 part here
    · exact Entries.built_sections nesting path line tail built.2 part later
end

mutual
theorem Node.said_of_built (nesting depth line : Nat) : (node : Node) → node.Built nesting depth line →
    node.said = node.data ∧ node.hollow = false
  | .scalar _ _, _ | .array _ _, _ | .inline _ _, _ => ⟨rfl, rfl⟩
  | .table _ entries, built =>
    ⟨congrArg Data.object (Entries.said_of_built nesting _ _ entries built.2.2), built.2.1⟩
  | .tables elements, built =>
    ⟨congrArg Data.list (Nodes.said_of_built nesting _ elements built.2), rfl⟩
theorem Nodes.said_of_built (nesting depth : Nat) : (nodes : Nodes) → nodes.Built nesting depth →
    nodes.said = nodes.data
  | .nil, _ => rfl
  | .cons head tail, built => by
    rw [Nodes.said, Nodes.data, (Node.said_of_built nesting depth 0 head built.1).1,
      Nodes.said_of_built nesting depth tail built.2]
theorem Entries.said_of_built (nesting depth line : Nat) : (entries : Entries) →
    entries.Built nesting depth line → entries.said = entries.data
  | .nil, _ => rfl
  | .cons _ node tail, built => by
    obtain ⟨same, solid⟩ := Node.said_of_built nesting depth line node built.1
    rw [Entries.said, if_neg (by simp [solid]), same, Entries.said_of_built nesting depth line tail built.2,
      Entries.data]
end

mutual
theorem Node.within_of_built (nesting depth line : Nat) : (node : Node) → node.Built nesting depth line →
    node.within nesting = true
  | .scalar _ _, built | .array _ _, built => built.2.within
  | .inline style entries, built => by
    rw [Node.Built] at built
    by_cases dotted : style.dotted = true
    · rw [if_pos dotted] at built
      rw [Node.within, if_pos dotted]
      exact Entries.within_of_built nesting _ _ entries built
    · rw [if_neg dotted] at built
      exact built.2.within
  | .table _ entries, built => Entries.within_of_built nesting _ _ entries built.2.2
  | .tables elements, built => Nodes.within_of_built nesting _ elements built.2
theorem Nodes.within_of_built (nesting depth : Nat) : (nodes : Nodes) → nodes.Built nesting depth →
    nodes.within nesting = true
  | .nil, _ => rfl
  | .cons head tail, built => by
    rw [Nodes.within, Node.within_of_built nesting depth 0 head built.1,
      Nodes.within_of_built nesting depth tail built.2]
    rfl
theorem Entries.within_of_built (nesting depth line : Nat) : (entries : Entries) →
    entries.Built nesting depth line → entries.within nesting = true
  | .nil, _ => rfl
  | .cons _ node tail, built => by
    rw [Entries.within, Node.within_of_built nesting depth line node built.1,
      Entries.within_of_built nesting depth line tail built.2]
    rfl
end

namespace Entries

theorem hollow_append (key : Key) (node : Node) (entries : Entries) (solid : node.hollow = false) :
    (entries.append key node).hollow = false := by
  induction entries with
  | nil => rw [append, hollow, solid, Bool.false_and]
  | cons first value tail ih => rw [append, hollow, ih, Bool.and_false]

structure Grown (nesting depth line : Nat) (out : Entries) : Prop where
  built : out.Built nesting depth line
  solid : out.hollow = false

theorem Grown.built_table {nesting depth line : Nat} {style : TableStyle} {out : Entries}
    (grown : out.Grown nesting (depth + 1) (if style.dotted then line + 1 else 0))
    (short : style.dotted = false → depth < Reader.limit) :
    (Node.table style out).Built nesting depth line := by
  refine ⟨short, ?_, grown.built⟩
  rw [Node.hollow, grown.solid, Bool.and_false]

theorem grown_alter? {nesting depth line : Nat} {key : Key} {change : Option Node → Option Node}
    {entries out : Entries} (built : entries.Built nesting depth line)
    (fresh : ∀ node, change none = some node → node.Built nesting depth line ∧ node.hollow = false)
    (kept : ∀ node new, node.Built nesting depth line → change (some node) = some new →
      new.Built nesting depth line ∧ new.hollow = false)
    (altered : entries.alter? key change = some out) : out.Grown nesting depth line := by
  induction entries generalizing out with
  | nil =>
    obtain ⟨node, made, rfl⟩ := Option.map_eq_some_iff.mp altered
    obtain ⟨own, solid⟩ := fresh node made
    exact ⟨⟨own, trivial⟩, by rw [hollow, solid, Bool.false_and]⟩
  | cons first value tail ih =>
    rw [alter?] at altered
    split at altered
    · obtain ⟨node, made, rfl⟩ := Option.map_eq_some_iff.mp altered
      obtain ⟨own, solid⟩ := kept value node built.1 made
      exact ⟨⟨own, built.2⟩, by rw [hollow, solid, Bool.false_and]⟩
    · obtain ⟨rest, inner, rfl⟩ := Option.map_eq_some_iff.mp altered
      have grown := ih built.2 inner
      exact ⟨⟨built.1, grown.built⟩, by rw [hollow, grown.solid, Bool.and_false]⟩

theorem grown_append {nesting depth line : Nat} {key : Key} {node : Node} {entries : Entries}
    (built : entries.Built nesting depth line) (own : node.Built nesting depth line)
    (solid : node.hollow = false) : (entries.append key node).Grown nesting depth line := by
  refine ⟨(built_iff _ _ _ _).mpr ?_, hollow_append key node entries solid⟩
  exact each_append _ key node entries ((built_iff _ _ _ _).mp built) own

def Room (byDots : Bool) (depth line length : Nat) : Prop :=
  if byDots then line + length < Reader.limit else depth + length < Reader.limit

theorem grown_descend? {nesting : Nat} (byDots : Bool)
    (change : TableStyle → Entries → Option Entries)
    (kept : ∀ depth line style (entries out : Entries), Room byDots depth line 0 →
      entries.Built nesting depth line → change style entries = some out →
      out.Grown nesting depth line)
    (path : List Key) (depth line : Nat) (style : TableStyle) (entries out : Entries)
    (room : Room byDots depth line path.length) (built : entries.Built nesting depth line)
    (changed : entries.descend? byDots change path style = some out) :
    out.Grown nesting depth line := by
  induction path generalizing depth line style entries out with
  | nil => exact kept depth line style entries out room built changed
  | cons key path ih =>
    have within : ∀ (own : TableStyle) (start : Nat), start ≤ line →
        Room byDots (depth + 1) (if own.dotted then start + 1 else 0) path.length := by
      intro own start le
      rw [Room, List.length_cons] at room
      rw [Room]
      cases byDots <;> cases own.dotted <;>
        simp only [if_true, Bool.false_eq_true, if_false] at room ⊢ <;> omega
    rw [descend?_cons] at changed
    refine grown_alter? built (fun node made => ?_) (fun node new own made => ?_) changed
    · obtain ⟨rest, deeper, rfl⟩ := Option.map_eq_some_iff.mp made
      have room' := within (if byDots then .ofDottedKey else .ofHeaderPath) line le_rfl
      have table := (ih _ _ _ nil rest room' trivial deeper).built_table fun headed => by
        cases byDots with
        | true => cases headed
        | false =>
          rw [Room, if_neg Bool.false_ne_true, List.length_cons] at room
          omega
      exact ⟨table, table.2.1⟩
    · obtain ⟨own', inner, rest, deeper, ⟨rfl, rfl⟩ | ⟨front, rfl, rfl⟩⟩ := table_of_pass? made
      · have table := (ih _ _ own' inner rest (within own' line le_rfl) own.2.2 deeper).built_table own.1
        exact ⟨table, table.2.1⟩
      · obtain ⟨builtFront, builtLast⟩ := (Nodes.built_append _ _ _ _).mp own.2
        have room' := within own' 0 (Nat.zero_le line)
        have last := (ih _ _ own' inner rest room' builtLast.2.2 deeper).built_table builtLast.1
        exact ⟨⟨own.1, (Nodes.built_append _ _ _ _).mpr ⟨builtFront, last⟩⟩, rfl⟩

theorem built_erase {nesting depth line : Nat} {entries : Entries}
    (built : entries.Built nesting depth line)
    (name : String) : (entries.erase name).Built nesting depth line :=
  (built_iff _ _ _ _).mpr (each_erase _ name entries ((built_iff _ _ _ _).mp built))

theorem add?_eq_append (byDots isDotted : Bool) (key : Key) (node : Node) (entries out : Entries)
    (added : entries.add? byDots isDotted key node = some out) : out = entries.append key node := by
  rw [add?] at added
  split at added
  · exact (Option.some.inj added).symm
  · cases added

end Entries

structure Field.Sized (nesting : Nat) (field : Field) : Prop where
  short : field.parents.length < Reader.limit
  value : field.value.Sized nesting

structure Block.Sized (nesting : Nat) (block : Block) : Prop where
  short : block.header.parents.length < Reader.limit
  lines : ∀ line ∈ block.lines, line.Sized nesting

def Statement.Sized (nesting : Nat) : Statement → Prop
  | .field line => line.Sized nesting
  | .header line => line.parents.length < Reader.limit

namespace Entries

variable {nesting depth : Nat}

theorem built_add_field? (field : Field) (sized : field.Sized nesting) (style : TableStyle)
    (entries out : Entries) (built : entries.Built nesting depth 0)
    (added : entries.addField? field style = some out) : out.Built nesting depth 0 := by
  refine (grown_descend? true _ (fun depth line own entries out room built added => ?_) field.parents
    depth 0 style entries out ?_ built added).built
  · rw [add?_eq_append _ _ _ _ _ _ added]
    have short : line < Reader.limit := by
      rw [Room, if_pos rfl] at room
      exact room
    exact grown_append built (sized.value.built depth line short)
      (field.value.hollow_of_is_value sized.value.isValue)
  · rw [Room, if_pos rfl, Nat.zero_add]
    exact sized.short

theorem built_add_fields? (lines : List Field) (sized : ∀ line ∈ lines, line.Sized nesting)
    (style : TableStyle) (entries out : Entries) (built : entries.Built nesting depth 0)
    (added : entries.addFields? lines style = some out) : out.Built nesting depth 0 := by
  refine foldl_m_keeps (·.Built nesting depth 0) _ lines (fun line member before after built first => ?_)
    entries out built added
  exact built_add_field? line (sized line member) style before after built first

end Entries

namespace Block

variable {nesting : Nat}

theorem built_headed (depth line number : Nat) (margin : Margin) (inner : Entries)
    (short : depth < Reader.limit) (built : inner.Built nesting (depth + 1) 0) :
    (Node.table ⟨margin, false, false, some number⟩ inner).Built nesting depth line :=
  ⟨fun _ => short, rfl, built⟩

theorem grown_change (block : Block) (sized : block.Sized nesting) (number depth line : Nat)
    (style : TableStyle) (entries out : Entries) (short : depth < Reader.limit)
    (built : entries.Built nesting depth line)
    (changed : (block.edit number).deed.change block.header.key style entries = some out) :
    out.Grown nesting depth line := by
  rw [edit] at changed
  have filled : ∀ inner rest : Entries, inner.Built nesting (depth + 1) 0 →
      inner.addFields? block.lines ⟨block.header.margin, false, false, some number⟩ = some rest →
      rest.Built nesting (depth + 1) 0 :=
    fun inner rest built run => Entries.built_add_fields? block.lines sized.lines _ inner rest built run
  cases element : block.header.isElement with
  | false =>
    rw [element, Deed.change] at changed
    obtain ⟨node, made, rfl⟩ := Option.map_eq_some_iff.mp changed
    obtain ⟨inner, rest, run, rfl, from'⟩ := Deed.table_of_here made
    have inside : inner.Built nesting (depth + 1) 0 := by
      rcases from' with rfl | ⟨own, found, plain⟩
      · trivial
      · obtain ⟨-, -, -, -, inner'⟩ :=
          Entries.each_get? _ _ ((Entries.built_iff _ _ _ _).mp built) _ _ found
        rwa [plain] at inner'
    exact Entries.grown_append (Entries.built_erase built _)
      (built_headed depth line number _ rest short (filled inner rest inside run)) rfl
  | true =>
    rw [element, Deed.change] at changed
    refine Entries.grown_alter? built (fun node made => ?_) (fun node new own made => ?_) changed
    · obtain ⟨inner, run, rfl⟩ := Option.map_eq_some_iff.mp made
      exact ⟨⟨short, built_headed depth 0 number _ inner short (filled .nil inner trivial run),
        trivial⟩, rfl⟩
    · obtain ⟨elements, inner, run, rfl, rfl⟩ := Deed.elements_of_here made
      exact ⟨⟨own.1, (Nodes.built_append _ _ _ _).mpr
        ⟨own.2, built_headed depth 0 number _ inner short (filled .nil inner trivial run)⟩⟩, rfl⟩

theorem built_edits (blocks : List Block) (sized : ∀ block ∈ blocks, block.Sized nesting) (number : Nat)
    (root out : Entries) (built : root.Built nesting 0 0)
    (run : (edits number blocks).foldlM (fun root edit => edit.run .fresh root) root = some out) :
    out.Built nesting 0 0 := by
  induction blocks generalizing number root with
  | nil =>
    cases run
    exact built
  | cons block blocks ih =>
    rw [edits, List.foldlM_cons] at run
    obtain ⟨next, first, rest⟩ := Option.bind_eq_some_iff.mp run
    have own := sized block List.mem_cons_self
    refine ih (fun other member => sized other (List.mem_cons_of_mem _ member)) _ next ?_ rest
    refine (Entries.grown_descend? false _ (fun depth line style entries out room built changed => ?_)
      block.header.parents 0 0 .fresh root next ?_ built first).built
    · exact block.grown_change own (number + 1) depth line style entries out
        (by rw [Entries.Room, if_neg Bool.false_ne_true] at room; exact room) built changed
    · rw [Entries.Room, if_neg Bool.false_ne_true, Nat.zero_add]
      exact own.short

end Block

end Reroot
