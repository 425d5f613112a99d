import Reroot.Proofs.Built
import Reroot.Proofs.Misfits

set_option autoImplicit false

namespace Reroot

open Text

namespace Entries

theorem built_descend_inline? {nesting : Nat} (change : InlineStyle → Entries → Option Entries)
    (kept : ∀ depth line style (entries out : Entries), line < Reader.limit →
      entries.Built nesting depth line → change style entries = some out → out.Built nesting depth line)
    (path : List Key) (depth line : Nat) (style : InlineStyle) (entries out : Entries)
    (room : line + path.length < Reader.limit) (built : entries.Built nesting depth line)
    (changed : entries.descendInline? change path style = some out) : out.Built nesting depth line := by
  induction path generalizing depth line style entries out with
  | nil => exact kept depth line style entries out room built changed
  | cons key path ih =>
    have inner := fun style entries out => ih (depth + 1) (line + 1) style entries out (by
      rw [List.length_cons] at room
      omega)
    rw [descendInline?] at changed
    refine (built_iff _ _ _ _).mpr (each_alter? _ _ (fun _ _ => id) key _ (fun node made => ?_)
      (fun other node new own made => ?_) entries out ((built_iff _ _ _ _).mp built) changed)
    · obtain ⟨rest, deeper, rfl⟩ := Option.map_eq_some_iff.mp made
      exact inner _ nil rest trivial deeper
    · cases node with
      | inline style' entries' =>
        dsimp only at made
        split at made
        · case isTrue implicit =>
          obtain ⟨rest, deeper, rfl⟩ := Option.map_eq_some_iff.mp made
          rw [Node.Built] at own ⊢
          by_cases dotted : style'.dotted = true
          · rw [if_pos dotted] at own ⊢
            exact inner _ _ rest own deeper
          · rw [if_neg dotted] at own
            rw [own.2.written style' entries' rfl] at implicit
            cases implicit
        · cases made
      | scalar margin value => cases made
      | array style elements => cases made
      | table style entries => cases made
      | tables elements => cases made

theorem built_of_fields? {nesting : Nat} (parts : List Field) (sized : ∀ field ∈ parts, field.Sized nesting)
    (out : Entries) (made : ofFields? parts = some out) : out.Built nesting 0 0 := by
  refine foldl_m_keeps (·.Built nesting 0 0) _ parts (fun field member before after built added => ?_)
    nil out trivial made
  have own := sized field member
  refine built_descend_inline? _ (fun depth line style entries out short built added => ?_)
    field.parents 0 0 .fresh before after (by rw [Nat.zero_add]; exact own.short) built added
  rw [add?_eq_append _ _ _ _ _ _ added]
  exact (grown_append built (own.value.built depth line short)
    (field.value.hollow_of_is_value own.value.isValue)).built

end Entries

namespace Reader

theorem keys_from_short (bound : Nat) (before source : Text) (parents : List Key) (key : Key)
    (after rest : Text) (read : keysFrom bound before source = some (parents, key, after, rest)) :
    parents.length < bound := by
  induction bound generalizing before source parents key after rest with
  | zero => cases read
  | succ bound ih =>
    obtain ⟨⟨first, rest'⟩, -, read⟩ := Option.bind_eq_some_iff.mp read
    dsimp only at read
    split at read
    · obtain ⟨⟨others, last, outside, behind⟩, deeper, read⟩ := Option.bind_eq_some_iff.mp read
      have short := ih _ _ _ _ _ _ deeper
      cases read
      exact Nat.succ_lt_succ short
    · cases read
      exact Nat.succ_pos bound

theorem path_short (before source : Text) (parents : List Key) (key : Key) (rest : Text)
    (read : path before source = some (parents, key, rest)) : parents.length < limit := by
  obtain ⟨⟨others, last, after, behind⟩, taken, read⟩ := Option.bind_eq_some_iff.mp read
  cases read
  exact keys_from_short limit _ _ _ _ _ _ taken

def Measured (value : Scan Node) (nesting : Nat) : Prop :=
  ∀ source node rest, value source = some (node, rest) → node.Sized nesting

theorem elements_within (value : Scan Node) (nesting : Nat) (measured : Measured value nesting)
    (bound : Nat) (hasComma : Bool) (source : Text) (nodes : Nodes) (comma : Bool) (trailing rest : Text)
    (read : elements value bound hasComma source = some (nodes, comma, trailing, rest)) :
    nodes.within nesting = true := by
  induction bound generalizing hasComma source nodes comma trailing rest with
  | zero => cases read
  | succ bound ih =>
    obtain ⟨⟨before, behind⟩, -, read⟩ := Option.bind_eq_some_iff.mp read
    dsimp only at read
    split at read
    · cases read
      rfl
    · obtain ⟨⟨node, behind⟩, inner, read⟩ := Option.bind_eq_some_iff.mp read
      obtain ⟨⟨after, behind⟩, -, read⟩ := Option.bind_eq_some_iff.mp read
      have first := ((measured _ _ _ inner).with_margin (.around before after)).within
      dsimp only at read
      split at read
      · cases read
        rw [Nodes.within, first]
        rfl
      · obtain ⟨⟨others, finalComma, trailing, behind⟩, more, read⟩ := Option.bind_eq_some_iff.mp read
        have later := ih _ _ _ _ _ _ more
        cases read
        rw [Nodes.within, first, later]
        rfl
      · cases read

theorem fields_sized (value : Scan Node) (nesting : Nat) (measured : Measured value nesting)
    (bound : Nat) (source : Text) (parts : List Field) (preamble rest : Text)
    (read : fields value bound source = some (parts, preamble, rest)) :
    ∀ field ∈ parts, field.Sized nesting := by
  induction bound generalizing source parts preamble rest with
  | zero => cases read
  | succ bound ih =>
    obtain ⟨⟨before, behind⟩, -, read⟩ := Option.bind_eq_some_iff.mp read
    dsimp only at read
    split at read
    · cases read
      exact fun _ member => by cases member
    · obtain ⟨⟨parents, key, behind⟩, taken, read⟩ := Option.bind_eq_some_iff.mp read
      obtain ⟨⟨more, behind⟩, -, read⟩ := Option.bind_eq_some_iff.mp read
      dsimp only at read
      split at read
      · obtain ⟨⟨space, behind⟩, -, read⟩ := Option.bind_eq_some_iff.mp read
        obtain ⟨⟨node, behind⟩, inner, read⟩ := Option.bind_eq_some_iff.mp read
        obtain ⟨⟨after, behind⟩, -, read⟩ := Option.bind_eq_some_iff.mp read
        have short := path_short _ _ _ _ _ taken
        have value := (measured _ _ _ inner).with_margin (.around space after)
        dsimp only at read
        split at read
        · cases read
          intro field member
          cases List.mem_singleton.mp member
          exact ⟨short, value⟩
        · obtain ⟨⟨others, preamble, behind⟩, later, read⟩ := Option.bind_eq_some_iff.mp read
          cases read
          intro field member
          rcases List.mem_cons.mp member with rfl | member
          · exact ⟨short, value⟩
          · exact ih _ _ _ _ later field member
        · cases read
      · cases read

theorem scalar_sized (nesting : Nat) : Measured scalar nesting := by
  intro source node rest read
  obtain ⟨value, rfl, -⟩ := Scalar.reads_of_scalar source rest node read
  exact ⟨rfl, rfl, fun _ _ same => by cases same⟩

theorem value_sized (nesting : Nat) : Measured (value nesting) nesting := by
  induction nesting with
  | zero => exact scalar_sized 0
  | succ nesting ih =>
    intro source node rest read
    unfold value at read
    split at read
    · obtain ⟨⟨nodes, comma, trailing, behind⟩, inner, read⟩ := Option.bind_eq_some_iff.mp read
      have within := elements_within _ nesting ih _ _ _ _ _ _ _ inner
      cases read
      exact ⟨rfl, by simp [Node.within, within], fun _ _ same => by cases same⟩
    · obtain ⟨⟨parts, preamble, behind⟩, inner, read⟩ := Option.bind_eq_some_iff.mp read
      obtain ⟨entries, made, read⟩ := Option.bind_eq_some_iff.mp read
      have built := Entries.built_of_fields? parts (fields_sized _ nesting ih _ _ _ _ _ inner) entries made
      have short := fun field member => (entries.built_fields nesting 0 [] built field member).1
      have within := entries.within_of_built nesting 0 0 built
      cases read
      refine ⟨rfl, ?_, fun _ _ same => by cases same; rfl⟩
      rw [Node.within, if_neg Bool.false_ne_true]
      simpa [within] using short
    · exact scalar_sized _ _ _ _ read

theorem header_sized (isElement : Bool) (before source : Text) (statement : Statement) (rest : Text)
    (read : header isElement before source = some (statement, rest)) : statement.Sized limit := by
  obtain ⟨⟨parents, key, behind⟩, taken, read⟩ := Option.bind_eq_some_iff.mp read
  have short := path_short _ _ _ _ _ taken
  dsimp only at read
  split at read
  · obtain ⟨line, -, read⟩ := Option.bind_eq_some_iff.mp read
    obtain ⟨⟨after, behind⟩, -, read⟩ := Option.bind_eq_some_iff.mp read
    cases read
    exact short
  · obtain ⟨line, -, read⟩ := Option.bind_eq_some_iff.mp read
    obtain ⟨⟨after, behind⟩, -, read⟩ := Option.bind_eq_some_iff.mp read
    cases read
    exact short
  · cases read

theorem field_sized (before source : Text) (statement : Statement) (rest : Text)
    (read : field before source = some (statement, rest)) : statement.Sized limit := by
  obtain ⟨⟨parents, key, behind⟩, taken, read⟩ := Option.bind_eq_some_iff.mp read
  dsimp only at read
  split at read
  · obtain ⟨⟨node, behind⟩, inner, read⟩ := Option.bind_eq_some_iff.mp read
    obtain ⟨⟨after, behind⟩, -, read⟩ := Option.bind_eq_some_iff.mp read
    cases read
    exact ⟨path_short _ _ _ _ _ taken, (value_sized limit _ _ _ inner).with_margin _⟩
  · cases read

theorem statements_sized (bound : Nat) (source : Text) (list : List Statement) (trailing : Text)
    (read : statements bound source = some (list, trailing)) :
    ∀ statement ∈ list, statement.Sized limit := by
  induction bound generalizing source list trailing with
  | zero => cases read
  | succ bound ih =>
    obtain ⟨⟨before, behind⟩, -, read⟩ := Option.bind_eq_some_iff.mp read
    dsimp only at read
    split at read
    · cases read
      exact fun _ member => by cases member
    · obtain ⟨⟨first, behind⟩, here, read⟩ := Option.bind_eq_some_iff.mp read
      obtain ⟨⟨others, trailing⟩, later, read⟩ := Option.bind_eq_some_iff.mp read
      cases read
      have own : first.Sized limit := by
        unfold Reader.statement at here
        split at here
        · exact header_sized true _ _ _ _ here
        · exact header_sized false _ _ _ _ here
        · exact field_sized _ _ _ _ here
      intro statement member
      rcases List.mem_cons.mp member with rfl | member
      · exact own
      · exact ih _ _ _ later statement member

end Reader

theorem Block.sized_of_statements (lines : List Field) (blocks : List Block)
    (sized : ∀ statement ∈ lines.map Statement.field ++ blocks.flatMap Block.statements,
      statement.Sized Reader.limit) :
    (∀ line ∈ lines, line.Sized Reader.limit) ∧ ∀ block ∈ blocks, block.Sized Reader.limit := by
  refine ⟨fun line member => ?_, fun block member => ⟨?_, fun line inside => ?_⟩⟩
  · exact sized (.field line) (List.mem_append_left _ (List.mem_map_of_mem member))
  · exact sized (.header block.header) (List.mem_append_right _
      (List.mem_flatMap.mpr ⟨block, member, List.mem_cons_self⟩))
  · exact sized (.field line) (List.mem_append_right _
      (List.mem_flatMap.mpr ⟨block, member, List.mem_cons_of_mem _ (List.mem_map_of_mem inside)⟩))

namespace Document

theorem built_of_of_text? (source : Text) (document : Document) (read : ofText? source = some document) :
    document.root.Built Reader.limit 0 0 := by
  obtain ⟨⟨list, trailing⟩, scanned, read⟩ := Option.bind_eq_some_iff.mp read
  obtain ⟨root, made, read⟩ := Option.bind_eq_some_iff.mp read
  cases read
  have sized := Reader.statements_sized _ _ _ _ scanned
  obtain ⟨isRead, -⟩ := Reader.statements_is_read _ _ _ _ scanned
  obtain ⟨lines, blocks, rfl, -, -⟩ := statements_split list isRead
  obtain ⟨sizedLines, sizedBlocks⟩ := Block.sized_of_statements lines blocks sized
  rw [Entries.of_statements?_eq] at made
  obtain ⟨start, first, rest⟩ := Option.bind_eq_some_iff.mp made
  exact Block.built_edits blocks sizedBlocks 0 start root
    (Entries.built_add_fields? lines sizedLines .fresh .nil start trivial first) rest

theorem said_of_built (document : Document) (built : document.root.Built Reader.limit 0 0) :
    document.said = document.data :=
  Entries.said_of_built Reader.limit 0 0 document.root built

theorem within_of_built (document : Document) (built : document.root.Built Reader.limit 0 0) :
    document.within = true := by
  have line : ∀ (entries : Entries) (depth : Nat), entries.Built Reader.limit depth 0 →
      ∀ field ∈ entries.fields [], field.within Reader.limit = true := by
    intro entries depth built field member
    obtain ⟨short, within⟩ := entries.built_fields Reader.limit depth [] built field member
    rw [Field.within, within, decide_eq_true short]
    rfl
  refine List.all_eq_true.mpr fun statement member => ?_
  rcases (document.root.mem_statements statement).mp member with
    ⟨field, inside, rfl⟩ | ⟨part, deeper, member⟩
  · exact line document.root 0 built field inside
  · obtain ⟨short, inner⟩ := document.root.built_sections Reader.limit [] 0 built part deeper
    rw [Section.statements, List.mem_append] at member
    rcases member with top | below
    · obtain ⟨header, found, rfl⟩ := List.mem_map.mp top
      obtain ⟨key, last, rfl⟩ := Section.header?_eq_some (Option.mem_toList.mp found)
      have deep := List.length_pos_of_mem (List.mem_of_getLast? last)
      refine decide_eq_true ?_
      rw [List.length_dropLast]
      omega
    · obtain ⟨field, inside, rfl⟩ := List.mem_map.mp below
      exact line part.entries _ inner field inside

end Document

end Reroot
