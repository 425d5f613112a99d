import Reroot.Proofs.Edits

set_option autoImplicit false

namespace Reroot

namespace Nodes

theorem eq_nil_or_append (nodes : Nodes) : nodes = nil ∨ ∃ front last, nodes = append last front := by
  induction nodes with
  | nil => exact .inl rfl
  | cons head tail ih =>
    obtain rfl | ⟨front, last, rfl⟩ := ih
    · exact .inr ⟨nil, head, rfl⟩
    · exact .inr ⟨cons head front, last, rfl⟩

theorem append_eq_cons (node : Node) (nodes : Nodes) :
    ∃ head tail, nodes.append node = cons head tail := by
  cases nodes with
  | nil => exact ⟨node, nil, rfl⟩
  | cons head tail => exact ⟨head, tail.append node, rfl⟩

theorem append_ne_nil (node : Node) (nodes : Nodes) : nodes.append node ≠ nil := by
  obtain ⟨head, tail, shape⟩ := append_eq_cons node nodes
  rw [shape]
  exact Nodes.noConfusion

theorem last?_append (node : Node) (nodes : Nodes) : (nodes.append node).last? = some node := by
  induction nodes with
  | nil => rfl
  | cons head tail ih =>
    obtain ⟨second, rest, shape⟩ := append_eq_cons node tail
    rw [append, shape, last?, ← shape, ih]
    simp

theorem alter_last?_append (change : TableStyle → Entries → Option Entries) (node : Node)
    (nodes : Nodes) : (nodes.append node).alterLast? change =
      match node with
      | .table style entries =>
        (change style entries).map fun entries => nodes.append (.table style entries)
      | _ => none := by
  induction nodes with
  | nil => cases node <;> rfl
  | cons head tail ih =>
    obtain ⟨second, rest, shape⟩ := append_eq_cons node tail
    rw [append, shape, alterLast?, ← shape, ih]
    · cases node with
      | table style entries =>
        rw [Option.map_map]
        rfl
      | scalar margin value => rfl
      | array style elements => rfl
      | inline style entries => rfl
      | tables elements => rfl
    · simp

end Nodes

namespace Entries

theorem alter?_none (key : Key) (change : Option Node → Option Node) (none' : ∀ slot, change slot = none)
    (entries : Entries) : entries.alter? key change = none :=
  (touches_alter? key change).refused entries (none' _)

theorem alter?_congr (key : Key) (first second : Option Node → Option Node) (entries : Entries)
    (same : first (entries.get? key.name) = second (entries.get? key.name)) :
    entries.alter? key first = entries.alter? key second := by
  induction entries with
  | nil =>
    rw [get?] at same
    rw [alter?, alter?, same]
  | cons other node tail ih =>
    rw [get?] at same
    rw [alter?, alter?]
    split
    · case isTrue hit =>
      rw [if_pos hit] at same
      rw [same]
    · case isFalse differs =>
      rw [if_neg differs] at same
      rw [ih same]

theorem alter?_alter? (key : Key) (first second : Option Node → Option Node) (entries : Entries) :
    (entries.alter? key first).bind (alter? key second) =
      entries.alter? key fun slot => (first slot).bind fun node => second (some node) := by
  induction entries with
  | nil =>
    rw [alter?, alter?]
    cases first none with
    | none => rfl
    | some node => simp [alter?]
  | cons other node tail ih =>
    rw [alter?, alter?]
    split
    · case isTrue hit =>
      cases first (some node) with
      | none => rfl
      | some value => simp [alter?, hit]
    · case isFalse differs =>
      rw [← ih]
      cases tail.alter? key first with
      | none => rfl
      | some rest => simp [alter?, differs]

theorem table_of_pass? {byDots : Bool} {change : TableStyle → Entries → Option Entries}
    {path : List Key} {node new : Node} (made : pass? byDots change path (some node) = some new) :
    ∃ style inner rest, inner.descend? byDots change path style = some rest ∧
      (node = .table style inner ∧ new = .table style rest ∨
        ∃ front : Nodes, node = .tables (front.append (.table style inner)) ∧
          new = .tables (front.append (.table style rest))) := by
  cases node with
  | table style inner =>
    rw [pass?] at made
    split at made
    · cases made
    · obtain ⟨rest, deeper, rfl⟩ := Option.map_eq_some_iff.mp made
      exact ⟨style, inner, rest, deeper, .inl ⟨rfl, rfl⟩⟩
  | tables elements =>
    obtain ⟨all, deeper, rfl⟩ := Option.map_eq_some_iff.mp made
    obtain rfl | ⟨front, last, rfl⟩ := elements.eq_nil_or_append
    · cases deeper
    · rw [Nodes.alter_last?_append] at deeper
      cases last with
      | table style inner =>
        obtain ⟨rest, deepest, rfl⟩ := Option.map_eq_some_iff.mp deeper
        exact ⟨style, inner, rest, deepest, .inr ⟨front, rfl, rfl⟩⟩
      | scalar _ _ | array _ _ | inline _ _ | tables _ => cases deeper
  | scalar _ _ | array _ _ | inline _ _ => cases made

variable (byDots : Bool)

theorem descend?_none (change : TableStyle → Entries → Option Entries)
    (none' : ∀ style entries, change style entries = none) (path : List Key) (style : TableStyle)
    (entries : Entries) : entries.descend? byDots change path style = none := by
  induction path generalizing style entries with
  | nil => exact none' style entries
  | cons key path ih =>
    rw [descend?_cons]
    refine alter?_none key _ (fun slot => ?_) entries
    rcases slot with _ | node
    · rw [pass?, ih]
      rfl
    · cases node with
      | table style inner => simp [pass?, ih]
      | tables elements =>
        obtain rfl | ⟨front, last, rfl⟩ := elements.eq_nil_or_append
        · rfl
        · rw [pass?, Nodes.alter_last?_append]
          cases last <;> simp [ih]
      | scalar margin value => rfl
      | array style elements => rfl
      | inline style inner => rfl

theorem descend?_congr (first second : TableStyle → Entries → Option Entries) (path : List Key)
    (style : TableStyle) (entries : Entries)
    (same : ∀ style, first style (follow path entries) = second style (follow path entries)) :
    entries.descend? byDots first path style = entries.descend? byDots second path style := by
  have follow_nil : ∀ path : List Key, follow path nil = nil := by
    intro path
    cases path <;> rfl
  induction path generalizing style entries with
  | nil => exact same style
  | cons key path ih =>
    rw [descend?_cons, descend?_cons]
    apply alter?_congr
    cases found : entries.get? key.name with
    | none =>
      have below := ih (if byDots then .ofDottedKey else .ofHeaderPath) nil fun style => by
        simpa [follow, found, follow_nil] using same style
      rw [pass?, pass?, below]
    | some node =>
      cases node with
      | table own inner =>
        have below := ih own inner fun style => by simpa [follow, found] using same style
        rw [pass?, pass?, below]
      | tables elements =>
        obtain rfl | ⟨front, last, rfl⟩ := elements.eq_nil_or_append
        · rfl
        · rw [pass?, pass?, Nodes.alter_last?_append, Nodes.alter_last?_append]
          cases last with
          | table own inner =>
            have below := ih own inner fun style => by
              simpa [follow, found, Nodes.last?_append] using same style
            dsimp only
            rw [below]
          | scalar margin value => rfl
          | array style elements => rfl
          | inline style inner => rfl
          | tables elements => rfl
      | scalar margin value => rfl
      | array style elements => rfl
      | inline style inner => rfl

theorem descend?_refused (change : TableStyle → Entries → Option Entries) (path : List Key)
    (style : TableStyle) (entries : Entries)
    (refused : ∀ style, change style (follow path entries) = none) :
    entries.descend? byDots change path style = none :=
  (descend?_congr byDots change (fun _ _ => none) path style entries refused).trans
    (descend?_none byDots _ (fun _ _ => rfl) path style entries)

theorem descend?_descend? (first second : TableStyle → Entries → Option Entries) (path : List Key)
    (style : TableStyle) (entries : Entries) :
    (entries.descend? false first path style).bind (fun entries =>
        entries.descend? false second path style) =
      entries.descend? false (fun style entries => (first style entries).bind (second style)) path
        style := by
  induction path generalizing style entries with
  | nil => rfl
  | cons key path ih =>
    have both : (fun entries : Entries => entries.descend? false second (key :: path) style) =
        alter? key (pass? false second path) := by
      funext entries
      exact descend?_cons _ _ _ _ _ _
    rw [descend?_cons, descend?_cons, both, alter?_alter?]
    congr 1
    funext slot
    rcases slot with _ | node
    · rw [pass?, pass?, ← ih]
      cases nil.descend? false first path _ <;> simp [pass?]
    · cases node with
      | table own inner =>
        simp only [pass?, Bool.false_and, Bool.false_eq_true, if_false, ← ih]
        cases inner.descend? false first path own <;> simp
      | tables elements =>
        obtain rfl | ⟨front, last, rfl⟩ := elements.eq_nil_or_append
        · rfl
        · rw [pass?, pass?, Nodes.alter_last?_append, Nodes.alter_last?_append]
          cases last with
          | table own inner =>
            dsimp only
            rw [← ih]
            cases inner.descend? false first path own <;> simp [pass?, Nodes.alter_last?_append]
          | scalar margin value => rfl
          | array style elements => rfl
          | inline style inner => rfl
          | tables elements => rfl
      | scalar margin value => rfl
      | array style elements => rfl
      | inline style inner => rfl

end Entries

structure Block where
  header : Header
  lines : List Field

namespace Block

def statements (block : Block) : List Statement :=
  .header block.header :: block.lines.map .field

def edit (number : Nat) (block : Block) : Edit :=
  ⟨block.header.parents, block.header.key,
    .opens block.header.isElement ⟨block.header.margin, false, false, some number⟩ block.lines⟩

def edits (number : Nat) : List Block → List Edit
  | [] => []
  | block :: rest => block.edit (number + 1) :: edits (number + 1) rest

end Block

namespace Assembly

theorem foldl_m_lines (lines : List Field) (assembly : Assembly) :
    (lines.map Statement.field).foldlM step? assembly =
      (assembly.entries.addFields? lines assembly.style).map
        fun entries => { assembly with entries := entries } := by
  induction lines generalizing assembly with
  | nil => rfl
  | cons line lines ih =>
    rw [List.map_cons, List.foldlM_cons, step?, Entries.addFields?, List.foldlM_cons]
    cases assembly.entries.addField? line assembly.style with
    | none => rfl
    | some entries => exact ih { assembly with entries := entries }

theorem run_opens (parents : List Key) (key : Key) (isElement : Bool) (style : TableStyle)
    (lines : List Field) (root : Entries) :
    (Edit.mk parents key (.opens isElement style lines)).run .fresh root =
      root.descend? false (Deed.change key (.opens isElement style lines)) parents .fresh := rfl

theorem attach_element (key : Key) (style : TableStyle) (lines : List Field) (parents : List Key)
    (root : Entries) :
    ((Entries.nil.addFields? lines style).bind fun entries =>
      root.descend? false (fun _ parent => addElement? key (.table style entries) parent) parents
        .fresh) = (Edit.mk parents key (.opens true style lines)).run .fresh root := by
  rw [run_opens]
  cases fold : Entries.nil.addFields? lines style with
  | none =>
    refine (Entries.descend?_none false _ (fun own entries => ?_) parents .fresh root).symm
    refine Entries.alter?_none key _ (fun slot => ?_) entries
    rcases slot with _ | node
    · rw [Deed.here, fold]
      rfl
    · cases node <;> simp [Deed.here, fold]
  | some entries =>
    refine Entries.descend?_congr false _ _ parents .fresh root fun own => ?_
    refine Entries.alter?_congr key _ _ _ ?_
    rcases (root.follow parents).get? key.name with _ | node
    · simp [Deed.here, fold]
    · cases node <;> simp [Deed.here, fold]

-- Taking an old table out and attaching the new one, with the lines already read, is one change.
theorem attach_taken (key : Key) (style : TableStyle) (lines : List Field) (parents : List Key)
    (root inner : Entries) (first : Entries → Entries)
    (same : ∀ own, Deed.change key (.opens false style lines) own (root.follow parents) =
      (inner.addFields? lines style).map fun entries =>
        (first (root.follow parents)).append key (.table style entries)) :
    ((root.descend? false (fun _ parent => some (first parent)) parents .fresh).bind fun root =>
      (inner.addFields? lines style).bind fun entries => root.descend? false
        (fun _ parent => some (parent.append key (.table style entries))) parents .fresh) =
      root.descend? false (Deed.change key (.opens false style lines)) parents .fresh := by
  cases fold : inner.addFields? lines style with
  | none =>
    have refused := Entries.descend?_refused false (Deed.change key (.opens false style lines)) parents
      .fresh root fun own => by rw [same own, fold]; rfl
    rw [refused]
    cases root.descend? false (fun _ parent => some (first parent)) parents .fresh <;> rfl
  | some entries =>
    simp only [Option.bind_some]
    rw [Entries.descend?_descend?]
    refine Entries.descend?_congr false _ _ parents .fresh root fun own => ?_
    rw [same own, fold]
    rfl

theorem attach_table (header : Header) (style : TableStyle)
    (lines : List Field) (root : Entries) :
    ((take? header root).bind fun (root, entries) => (entries.addFields? lines style).bind
      fun entries => root.descend? false
        (fun _ parent => some (parent.append header.key (.table style entries))) header.parents
        .fresh) = (Edit.mk header.parents header.key (.opens false style lines)).run .fresh root := by
  have attach := attach_taken header.key style lines header.parents root
  have refuse := Entries.descend?_refused false (Deed.change header.key (.opens false style lines))
    header.parents .fresh root
  rw [run_opens, take?]
  cases found : (root.follow header.parents).get? header.key.name with
  | none =>
    have missing := (Entries.get?_eq_none_iff _ _).mp found
    rw [← attach .nil id fun own => by
      simp only [Deed.change, found, Deed.here, Entries.erase_of_missing _ _ missing, id,
        Option.map_map]
      rfl]
    simp only [id, Option.bind_map]
    rfl
  | some node =>
    cases node with
    | table own inner =>
      dsimp only
      split
      · case isTrue implicit =>
        rw [← attach inner (Entries.erase header.key.name) fun other => by
          simp only [Deed.change, found, Deed.here, if_pos implicit, Option.map_map]
          rfl]
        simp only [Option.bind_map]
        rfl
      · case isFalse explicit =>
        rw [refuse fun other => by
          simp only [Deed.change, found, Deed.here, if_neg explicit, Option.map_none]]
        rfl
    | scalar _ _ | array _ _ | inline _ _ | tables _ =>
      rw [refuse fun other => by rw [Deed.change, found]; rfl]
      rfl

theorem close?_lines (lines : List Field) (root entries : Entries) (header : Header)
    (style : TableStyle) (count : Nat) :
    ((lines.map Statement.field).foldlM step? ⟨root, some header, style, entries, count⟩).bind close? =
      (entries.addFields? lines style).bind fun entries => root.descend? false
        (fun _ parent =>
          if header.isElement then addElement? header.key (.table style entries) parent
          else some (parent.append header.key (.table style entries)))
        header.parents .fresh := by
  rw [foldl_m_lines]
  dsimp only
  cases entries.addFields? lines style <;> rfl

theorem headers_lines (lines : List Field) (assembly after : Assembly)
    (run : (lines.map Statement.field).foldlM step? assembly = some after) :
    after.headers = assembly.headers := by
  rw [foldl_m_lines] at run
  obtain ⟨entries, -, rfl⟩ := Option.map_eq_some_iff.mp run
  rfl

theorem headers_open_table? (assembly next : Assembly) (header : Header)
    (opened : assembly.openTable? header = some next) : next.headers = assembly.headers + 1 := by
  obtain ⟨root, -, taken⟩ := Option.bind_eq_some_iff.mp opened
  dsimp only at taken
  split at taken
  · cases taken
    rfl
  · obtain ⟨pair, -, made⟩ := Option.bind_eq_some_iff.mp taken
    cases made
    rfl

theorem close?_block (block : Block) (assembly : Assembly) :
    (block.statements.foldlM step? assembly).bind close? =
        assembly.close?.bind ((block.edit (assembly.headers + 1)).run .fresh) ∧
      ∀ after, block.statements.foldlM step? assembly = some after →
        after.headers = assembly.headers + 1 := by
  obtain ⟨header, lines⟩ := block
  refine ⟨?_, fun after run => ?_⟩
  · rw [Block.statements, List.foldlM_cons, step?, openTable?]
    cases assembly.close? with
    | none => rfl
    | some root =>
      simp only [Option.bind_eq_bind, Option.bind_some]
      cases element : header.isElement with
      | true =>
        rw [Block.edit, element, ← attach_element]
        simp only [if_true, Option.bind_some, Option.pure_def, close?_lines, element]
      | false =>
        rw [Block.edit, element, ← attach_table header]
        simp only [Bool.false_eq_true, if_false]
        cases take? header root with
        | none => rfl
        | some pair =>
          simp only [Option.bind_some, Option.pure_def, close?_lines, element,
            Bool.false_eq_true, if_false]
  · obtain ⟨next, opened, run⟩ := Option.bind_eq_some_iff.mp run
    rw [headers_lines lines next after run, headers_open_table? assembly next header opened]

theorem close?_blocks (blocks : List Block) (assembly : Assembly) :
    ((blocks.flatMap Block.statements).foldlM step? assembly).bind close? =
      assembly.close?.bind fun root => (Block.edits assembly.headers blocks).foldlM
        (fun root edit => edit.run .fresh root) root := by
  induction blocks generalizing assembly with
  | nil =>
    rw [List.flatMap_nil, List.foldlM_nil, Block.edits]
    simp
  | cons block blocks ih =>
    obtain ⟨first, count⟩ := close?_block block assembly
    rw [List.flatMap_cons, List.foldlM_append, Block.edits]
    simp only [Option.bind_eq_bind, List.foldlM_cons]
    rw [← Option.bind_assoc, ← first, Option.bind_assoc, Option.bind_assoc]
    cases run : block.statements.foldlM step? assembly with
    | none => rfl
    | some after =>
      rw [Option.bind_some, Option.bind_some, ih after, count after run]

end Assembly

theorem Entries.of_statements?_eq (lines : List Field) (blocks : List Block) :
    ofStatements? (lines.map Statement.field ++ blocks.flatMap Block.statements) =
      (nil.addFields? lines .fresh).bind fun root => (Block.edits 0 blocks).foldlM
        (fun root edit => edit.run .fresh root) root := by
  have whole : ofStatements? (lines.map Statement.field ++ blocks.flatMap Block.statements) =
      ((lines.map Statement.field ++ blocks.flatMap Block.statements).foldlM Assembly.step? .start).bind
        Assembly.close? := rfl
  rw [whole, List.foldlM_append, Assembly.foldl_m_lines, Option.bind_eq_bind]
  cases fold : nil.addFields? lines .fresh with
  | none =>
    have start : Assembly.start.entries.addFields? lines Assembly.start.style = none := fold
    rw [start]
    rfl
  | some root =>
    have start : Assembly.start.entries.addFields? lines Assembly.start.style = some root := fold
    rw [start, Option.map_some, Option.bind_some, Assembly.close?_blocks]
    rfl

end Reroot
