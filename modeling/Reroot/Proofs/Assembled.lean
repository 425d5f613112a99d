import Reroot.Proofs.Blocks
import Reroot.Proofs.Planned
import Reroot.Proofs.Scanned

set_option autoImplicit false

namespace Reroot

open Text

mutual
theorem Node.spans_mono {low high more : Nat} (le : high ≤ more) :
    (node : Node) → node.Spans low high → node.Spans low more
  | .scalar _ _, _ | .array _ _, _ | .inline _ _, _ => trivial
  | .table _ entries, spans =>
    ⟨fun position found => ⟨(spans.1 position found).1, Nat.le_trans (spans.1 position found).2 le⟩,
      Entries.spans_mono le entries spans.2⟩
  | .tables elements, spans => Nodes.spans_mono le elements spans
theorem Nodes.spans_mono {low high more : Nat} (le : high ≤ more) :
    (nodes : Nodes) → nodes.Spans low high → nodes.Spans low more
  | .nil, _ => trivial
  | .cons (.table _ _) tail, spans => by
    obtain ⟨own, last, isOwn, above, less, below, inner, rest⟩ := spans
    exact ⟨own, last, isOwn, above, less, Nat.le_trans below le, inner, Nodes.spans_mono le tail rest⟩
  | .cons (.scalar _ _) _, spans | .cons (.array _ _) _, spans | .cons (.inline _ _) _, spans
  | .cons (.tables _) _, spans => spans.elim
theorem Entries.spans_mono {low high more : Nat} (le : high ≤ more) :
    (entries : Entries) → entries.Spans low high → entries.Spans low more
  | .nil, _ => trivial
  | .cons _ node tail, spans =>
    ⟨Node.spans_mono le node spans.1, Entries.spans_mono le tail spans.2⟩
end

namespace Nodes

theorem legible_append (site : Site) (node : Node) (nodes : Nodes) :
    (nodes.append node).Legible site ↔ nodes.Legible site ∧ node.Legible site := by
  induction nodes with
  | nil => simp [append, Legible]
  | cons head tail ih => rw [append, Legible, Legible, ih, and_assoc]

theorem spans_append (low high : Nat) (le : low ≤ high) (style : TableStyle) (entries : Entries)
    (nodes : Nodes) : (nodes.append (.table style entries)).Spans low high ↔
      ∃ own middle, style.position = some own ∧ low ≤ middle ∧ middle ≤ own ∧ own ≤ high ∧
        nodes.Spans low middle ∧ entries.Spans own high := by
  induction nodes generalizing low with
  | nil =>
    constructor
    · rintro ⟨own, last, isOwn, above, less, below, inner, -⟩
      exact ⟨own, low, isOwn, le_rfl, above, by omega, trivial, Entries.spans_mono below _ inner⟩
    · rintro ⟨own, middle, isOwn, above, less, below, -, inner⟩
      exact ⟨own, high, isOwn, by omega, below, le_rfl, inner, trivial⟩
  | cons head tail ih =>
    cases head with
    | table style' entries' =>
      constructor
      · rintro ⟨own, last, isOwn, above, less, below, inner, rest⟩
        obtain ⟨own', middle, isOwn', above', less', below', front, inner'⟩ := (ih last below).mp rest
        exact ⟨own', middle, isOwn', by omega, less', below',
          ⟨own, last, isOwn, above, less, above', inner, front⟩, inner'⟩
      · rintro ⟨own', middle, isOwn', above', less', below', front, inner'⟩
        obtain ⟨own, last, isOwn, above, less, below, inner, rest⟩ := front
        exact ⟨own, last, isOwn, above, less, by omega, inner, (ih last (by omega)).mpr
          ⟨own', middle, isOwn', below, less', below', rest, inner'⟩⟩
    | scalar margin value => exact ⟨False.elim, fun ⟨_, _, _, _, _, _, refuted, _⟩ => refuted.elim⟩
    | array style elements => exact ⟨False.elim, fun ⟨_, _, _, _, _, _, refuted, _⟩ => refuted.elim⟩
    | inline style entries => exact ⟨False.elim, fun ⟨_, _, _, _, _, _, refuted, _⟩ => refuted.elim⟩
    | tables elements => exact ⟨False.elim, fun ⟨_, _, _, _, _, _, refuted, _⟩ => refuted.elim⟩

end Nodes

mutual
-- Dotted keys outside braces lead through tables, never through inline tables.
def Node.Native : Node → Prop
  | .inline style _ => style.dotted = false
  | .table _ entries => entries.Native
  | .tables elements => elements.Native
  | .scalar _ _ | .array _ _ => True
def Nodes.Native : Nodes → Prop
  | .nil => True
  | .cons head tail => head.Native ∧ tail.Native
def Entries.Native : Entries → Prop
  | .nil => True
  | .cons _ node tail => node.Native ∧ tail.Native
end

theorem Nodes.native_append (node : Node) (nodes : Nodes) :
    (nodes.append node).Native ↔ nodes.Native ∧ node.Native := by
  induction nodes with
  | nil => simp [append, Native]
  | cons head tail ih => rw [append, Native, Native, ih, and_assoc]

structure Node.Holds (low high : Nat) (key : Key) (node : Node) : Prop where
  read : key.Legible
  suits : node.Suits .body key
  legible : node.Legible .body
  spans : node.Spans low high
  native : node.Native

structure Entries.Sound (low high : Nat) (entries : Entries) : Prop where
  distinct : entries.names.Nodup
  each : entries.Each (Node.Holds low high)

theorem Entries.spans_iff (low high : Nat) (entries : Entries) :
    entries.Spans low high ↔ entries.Each fun _ node => node.Spans low high := by
  induction entries with
  | nil => simp [Spans, Each, toList]
  | cons key node tail ih => rw [Spans, each_cons, ih]

theorem Entries.native_iff (entries : Entries) :
    entries.Native ↔ entries.Each fun _ node => node.Native := by
  induction entries with
  | nil => simp [Native, Each, toList]
  | cons key node tail ih => rw [Native, each_cons, ih]

theorem Entries.sound_iff (low high : Nat) (entries : Entries) : entries.Sound low high ↔
    entries.Legible .body ∧ entries.Spans low high ∧ entries.Native := by
  rw [legible_iff, spans_iff, native_iff]
  constructor
  · rintro ⟨distinct, each⟩
    exact ⟨⟨distinct, each.imp fun _ _ holds => ⟨holds.read, holds.suits, holds.legible⟩⟩,
      each.imp fun _ _ holds => holds.spans, each.imp fun _ _ holds => holds.native⟩
  · rintro ⟨⟨distinct, each⟩, positions, natives⟩
    refine ⟨distinct, fun entry member => ?_⟩
    obtain ⟨legibleKey, suits, legible⟩ := each entry member
    exact ⟨legibleKey, suits, legible, positions entry member, natives entry member⟩

theorem Node.Holds.mono {low high more : Nat} (le : high ≤ more) {key : Key} {node : Node}
    (holds : node.Holds low high key) : node.Holds low more key :=
  { holds with spans := Node.spans_mono le node holds.spans }

namespace Entries

theorem sound_nil (low high : Nat) : nil.Sound low high :=
  ⟨List.nodup_nil, fun _ member => by cases member⟩

theorem Sound.mono {low high more : Nat} (le : high ≤ more) {entries : Entries}
    (sound : entries.Sound low high) : entries.Sound low more :=
  ⟨sound.distinct, sound.each.imp fun _ _ holds => Node.Holds.mono le holds⟩

theorem sound_append {low high : Nat} {key : Key} {node : Node} {entries : Entries}
    (sound : entries.Sound low high) (missing : key.name ∉ entries.names)
    (holds : node.Holds low high key) : (entries.append key node).Sound low high :=
  ⟨nodup_append key node entries missing sound.distinct,
    each_append _ key node entries sound.each holds⟩

theorem sound_erase {low high : Nat} {entries : Entries} (sound : entries.Sound low high)
    (name : String) : (entries.erase name).Sound low high := by
  refine ⟨?_, each_erase _ name entries sound.each⟩
  rw [names_erase]
  exact sound.distinct.filter _

theorem sound_alter? {low high more : Nat} (le : high ≤ more) {key : Key}
    {change : Option Node → Option Node} {entries out : Entries} (sound : entries.Sound low high)
    (fresh : ∀ node, change none = some node → node.Holds low more key)
    (kept : ∀ other node new, node.Holds low high other → change (some node) = some new →
      new.Holds low more other)
    (altered : entries.alter? key change = some out) : out.Sound low more :=
  ⟨nodup_alter? key change entries out sound.distinct altered,
    each_alter? _ _ (fun _ _ holds => Node.Holds.mono le holds) key change fresh kept entries out
      sound.each altered⟩

end Entries

theorem Entries.sound_of_holds {low high : Nat} {key : Key} {style : TableStyle} {entries : Entries}
    (holds : (Node.table style entries).Holds low high key) : entries.Sound low high :=
  (Entries.sound_iff low high entries).mpr ⟨holds.legible.2.2, holds.spans.2, holds.native⟩

theorem Node.Holds.table {low high more : Nat} (le : high ≤ more) {key : Key} {style : TableStyle}
    {entries out : Entries} (holds : (Node.table style entries).Holds low high key)
    (sound : out.Sound low more) : (Node.table style out).Holds low more key := by
  obtain ⟨legible, spans, native⟩ := (Entries.sound_iff low more out).mp sound
  obtain ⟨legibleKey, suits, ⟨-, margin, -⟩, ⟨position, -⟩, -⟩ := holds
  exact ⟨legibleKey, suits, ⟨rfl, margin, legible⟩, ⟨fun number found =>
    ⟨(position number found).1, Nat.le_trans (position number found).2 le⟩, spans⟩, native⟩

theorem Node.Holds.tables {low high more : Nat} (le : low ≤ high) (le' : high ≤ more) {key : Key}
    {front : Nodes} {style : TableStyle} {entries out : Entries}
    (holds : (Node.tables (front.append (.table style entries))).Holds low high key)
    (kept : ∀ own, own ≤ high → entries.Sound own high → out.Sound own more) :
    (Node.tables (front.append (.table style out))).Holds low more key := by
  obtain ⟨legibleKey, suits, ⟨-, -, isSection, legible⟩, spans, native⟩ := holds
  obtain ⟨legibleFront, -, margin, legibleEntries⟩ := (Nodes.legible_append _ _ _).mp legible
  obtain ⟨own, middle, isOwn, above, less, below, spansFront, inner⟩ :=
    (Nodes.spans_append low high le style entries front).mp spans
  obtain ⟨nativeFront, nativeEntries⟩ := (Nodes.native_append _ _).mp native
  have sound := kept own below
    ((Entries.sound_iff own high entries).mpr ⟨legibleEntries, inner, nativeEntries⟩)
  obtain ⟨legibleOut, spansOut, nativeOut⟩ := (Entries.sound_iff own more out).mp sound
  refine ⟨legibleKey, suits, ⟨rfl, Nodes.append_ne_nil _ _, ?_, ?_⟩, ?_, ?_⟩
  · rw [Nodes.to_list_append] at isSection ⊢
    intro node member
    rcases List.mem_append.mp member with early | last
    · exact isSection node (List.mem_append_left _ early)
    · rw [List.mem_singleton.mp last]
      exact isSection (.table style entries) (List.mem_append_right _ (List.mem_singleton.mpr rfl))
  · exact (Nodes.legible_append _ _ _).mpr ⟨legibleFront, rfl, margin, legibleOut⟩
  · exact (Nodes.spans_append low more (by omega) style out front).mpr
      ⟨own, middle, isOwn, above, less, by omega, spansFront, spansOut⟩
  · exact (Nodes.native_append _ _).mpr ⟨nativeFront, nativeOut⟩

namespace Entries

theorem sound_descend? {low high more : Nat} (le : low ≤ high) (le' : high ≤ more) (byDots : Bool)
    (change : TableStyle → Entries → Option Entries)
    (kept : ∀ low, low ≤ high → ∀ style (entries out : Entries), entries.Sound low high →
      change style entries = some out → out.Sound low more)
    (path : List Key) (each : ∀ key ∈ path, key.IsParent)
    (style : TableStyle) (entries out : Entries) (sound : entries.Sound low high)
    (changed : entries.descend? byDots change path style = some out) : out.Sound low more := by
  induction path generalizing low style entries out with
  | nil => exact kept low le style entries out sound changed
  | cons key path ih =>
    obtain ⟨legibleKey, unset⟩ := each key List.mem_cons_self
    have inner := fun {low : Nat} (le : low ≤ high) => ih le fun other member =>
      each other (List.mem_cons_of_mem _ member)
    rw [descend?_cons] at changed
    refine sound_alter? le' sound (fun node made => ?_) (fun other node new holds made => ?_) changed
    · obtain ⟨rest, deeper, rfl⟩ := Option.map_eq_some_iff.mp made
      obtain ⟨legible, spans, native⟩ :=
        (sound_iff _ _ _).mp (inner le _ nil rest (sound_nil low high) deeper)
      refine ⟨legibleKey, Node.suits_unset _ _ _ unset, ⟨rfl, ?_, legible⟩, ⟨?_, spans⟩, native⟩
      · cases byDots <;> exact .inr (Margin.fits_unset _ _)
      · cases byDots <;> exact fun position found => by cases found
    · obtain ⟨own, entries, rest, deeper, ⟨rfl, rfl⟩ | ⟨front, rfl, rfl⟩⟩ := table_of_pass? made
      · exact holds.table le' (inner le own entries rest (sound_of_holds holds) deeper)
      · exact holds.tables le le' fun position less sound => inner less own entries rest sound deeper

end Entries

theorem Node.legible_under (node : Node) (isValue : node.isValue = true) (legible : node.Legible .line) :
    node.Legible .body := by
  cases node with
  | scalar margin value => exact legible
  | array style elements => exact legible
  | inline style entries =>
    have single : ¬ style.dotted = true := by simpa [Node.isValue] using isValue
    rw [Node.Legible, if_neg single] at legible ⊢
    exact legible
  | table style entries => cases isValue
  | tables elements => cases isValue

theorem Node.spans_of_is_value (low high : Nat) (node : Node) (isValue : node.isValue = true) :
    node.Spans low high := by
  cases node with
  | scalar margin value => trivial
  | array style elements => trivial
  | inline style entries => trivial
  | table style entries => cases isValue
  | tables elements => cases isValue

theorem Node.native_of_is_value (node : Node) (isValue : node.isValue = true) : node.Native := by
  cases node with
  | scalar margin value => trivial
  | array style elements => trivial
  | inline style entries => simpa [Native, Node.isValue] using isValue
  | table style entries => cases isValue
  | tables elements => cases isValue

theorem Node.holds_of_line (low high : Nat) (field : Field) (legible : field.Legible .line) :
    field.value.Holds low high field.key := by
  obtain ⟨-, legibleKey, around, isValue, legibleValue⟩ := legible
  refine ⟨legibleKey, field.value.suits_of_is_value .body field.key isValue around,
    field.value.legible_under isValue legibleValue, ?_, ?_⟩
  · exact field.value.spans_of_is_value low high isValue
  · exact field.value.native_of_is_value isValue

namespace Entries

theorem sound_add? {low high : Nat} (byDots isDotted : Bool) {key : Key} {node : Node}
    {entries out : Entries} (sound : entries.Sound low high) (holds : node.Holds low high key)
    (added : entries.add? byDots isDotted key node = some out) : out.Sound low high := by
  rw [add?] at added
  split at added
  · case isTrue free =>
    cases added
    rw [Bool.and_eq_true, Bool.not_eq_true'] at free
    refine sound_append sound ?_ holds
    rw [← contains_iff_mem_names, free.2]
    exact Bool.false_ne_true
  · cases added

theorem sound_add_field? {low high : Nat} (le : low ≤ high) (field : Field)
    (isRead : field.IsRead .line) (style : TableStyle) (entries out : Entries)
    (sound : entries.Sound low high) (added : entries.addField? field style = some out) :
    out.Sound low high := by
  refine sound_descend? le le_rfl true _ (fun low _ own entries out sound added => ?_) field.parents
    (fun key member => ⟨isRead.1.1 key member, isRead.2 key member⟩) style entries out sound added
  exact sound_add? _ _ sound (Node.holds_of_line low high field isRead.1) added

theorem sound_add_fields? {low high : Nat} (le : low ≤ high) (lines : List Field)
    (isRead : ∀ line ∈ lines, line.IsRead .line) (style : TableStyle) (entries out : Entries)
    (sound : entries.Sound low high) (added : entries.addFields? lines style = some out) :
    out.Sound low high := by
  refine foldl_m_keeps (·.Sound low high) _ lines (fun line member before after sound first => ?_)
    entries out sound added
  exact sound_add_field? le line (isRead line member) style before after sound first

end Entries

structure Block.IsRead (block : Block) : Prop where
  header : block.header.Legible
  outer : ∀ key ∈ block.header.parents, key.outer = .unset
  lines : ∀ line ∈ block.lines, line.IsRead .line

namespace Block

theorem holds_table {low high : Nat} (le : low ≤ high) (block : Block) (isRead : block.IsRead)
    (inner : Entries) (sound : inner.Sound low high) :
    (Node.table ⟨block.header.margin, false, false, some (high + 1)⟩ inner).Holds low (high + 1)
      block.header.key := by
  obtain ⟨-, legibleKey, around, margin⟩ := isRead.header
  obtain ⟨legible, spans, native⟩ := (Entries.sound_iff _ _ _).mp (sound.mono (Nat.le_add_right high 1))
  refine ⟨legibleKey, ⟨around, by simp⟩, ⟨rfl, .inr margin, legible⟩, ⟨?_, spans⟩, native⟩
  intro position found
  cases found
  omega

theorem sound_table {low high : Nat} (le : low ≤ high) (block : Block) (isRead : block.IsRead)
    (style : TableStyle) (entries out : Entries) (sound : entries.Sound low high)
    (changed : Deed.change block.header.key (.opens false
      ⟨block.header.margin, false, false, some (high + 1)⟩ block.lines) style entries = some out) :
    out.Sound low (high + 1) := by
  rw [Deed.change] at changed
  obtain ⟨node, made, rfl⟩ := Option.map_eq_some_iff.mp changed
  have missing : block.header.key.name ∉ (entries.erase block.header.key.name).names := by
    simp [Entries.names_erase]
  refine Entries.sound_append ((Entries.sound_erase sound _).mono (Nat.le_add_right high 1)) missing ?_
  obtain ⟨inner, rest, run, rfl, from'⟩ := Deed.table_of_here made
  have inside : inner.Sound low high := by
    rcases from' with rfl | ⟨own, found, -⟩
    · exact Entries.sound_nil low high
    · obtain ⟨key, -, holds⟩ := Entries.each_get? _ _ sound.each _ _ found
      exact Entries.sound_of_holds holds
  exact block.holds_table le isRead rest
    (Entries.sound_add_fields? le _ isRead.lines _ _ _ inside run)

theorem sound_element {low high : Nat} (le : low ≤ high) (block : Block) (isRead : block.IsRead)
    (style : TableStyle) (entries out : Entries) (sound : entries.Sound low high)
    (changed : Deed.change block.header.key (.opens true
      ⟨block.header.margin, false, false, some (high + 1)⟩ block.lines) style entries = some out) :
    out.Sound low (high + 1) := by
  have fresh : ∀ low, low ≤ high + 1 → ∀ inner, Entries.nil.addFields? block.lines
      ⟨block.header.margin, false, false, some (high + 1)⟩ = some inner → inner.Sound low (high + 1) :=
    fun low le inner run => Entries.sound_add_fields? le _ isRead.lines _ _ _ (Entries.sound_nil _ _) run
  obtain ⟨-, legibleKey, around, margin⟩ := isRead.header
  refine Entries.sound_alter? (Nat.le_add_right high 1) sound (fun node made => ?_)
    (fun other node new holds made => ?_) changed
  · obtain ⟨inner, run, rfl⟩ := Option.map_eq_some_iff.mp made
    obtain ⟨legible, spans, native⟩ := (Entries.sound_iff _ _ _).mp (fresh (high + 1) le_rfl inner run)
    refine ⟨legibleKey, around, ⟨rfl, by simp, by simp [Nodes.toList, Node.isSection], ?_⟩, ?_,
      native, trivial⟩
    · exact ⟨⟨rfl, .inr margin, legible⟩, trivial⟩
    · exact ⟨high + 1, high + 1, rfl, by omega, le_rfl, le_rfl, spans, trivial⟩
  · obtain ⟨elements, inner, run, rfl, rfl⟩ := Deed.elements_of_here made
    obtain ⟨legible, spans, native⟩ :=
      (Entries.sound_iff _ _ _).mp (fresh (high + 1) le_rfl inner run)
    obtain ⟨legibleOther, suits, ⟨-, some', isSection, legibleElements⟩, spansElements, natives⟩ :=
      holds
    refine ⟨legibleOther, suits, ⟨rfl, Nodes.append_ne_nil _ _, ?_, ?_⟩, ?_,
      (Nodes.native_append _ _).mpr ⟨natives, native⟩⟩
    · rw [Nodes.to_list_append]
      intro node member
      rcases List.mem_append.mp member with early | last
      · exact isSection node early
      · rw [List.mem_singleton.mp last]
        rfl
    · exact (Nodes.legible_append _ _ _).mpr ⟨legibleElements, rfl, .inr margin, legible⟩
    · exact (Nodes.spans_append low (high + 1) (by omega) _ _ _).mpr
        ⟨high + 1, high, rfl, le, by omega, le_rfl, spansElements, spans⟩

theorem sound_change {low high : Nat} (le : low ≤ high) (block : Block) (isRead : block.IsRead)
    (style : TableStyle) (entries out : Entries) (sound : entries.Sound low high)
    (changed : (block.edit (high + 1)).deed.change block.header.key style entries = some out) :
    out.Sound low (high + 1) := by
  rw [edit] at changed
  cases element : block.header.isElement with
  | true =>
    rw [element] at changed
    exact block.sound_element le isRead style entries out sound changed
  | false =>
    rw [element] at changed
    exact block.sound_table le isRead style entries out sound changed

theorem sound_edit {high : Nat} (block : Block) (isRead : block.IsRead) (root out : Entries)
    (sound : root.Sound 0 high) (run : (block.edit (high + 1)).run .fresh root = some out) :
    out.Sound 0 (high + 1) := by
  refine Entries.sound_descend? (Nat.zero_le _) (Nat.le_add_right high 1) _ _
    (fun low le style entries out sound changed =>
      block.sound_change le isRead style entries out sound changed)
    block.header.parents ?_ .fresh root out sound run
  exact fun key member => ⟨isRead.header.1 key member, isRead.outer key member⟩

theorem sound_edits {high : Nat} (blocks : List Block) (isRead : ∀ block ∈ blocks, block.IsRead)
    (root out : Entries) (sound : root.Sound 0 high)
    (run : (edits high blocks).foldlM (fun root edit => edit.run .fresh root) root = some out) :
    out.Sound 0 (high + blocks.length) := by
  induction blocks generalizing high root with
  | nil =>
    cases run
    exact sound
  | cons block blocks ih =>
    rw [edits, List.foldlM_cons] at run
    obtain ⟨next, first, rest⟩ := Option.bind_eq_some_iff.mp run
    have whole := ih (fun other member => isRead other (List.mem_cons_of_mem _ member)) next
      (block.sound_edit (isRead block List.mem_cons_self) root next sound first) rest
    rw [List.length_cons]
    exact whole.mono (by omega)

end Block

theorem statements_split (list : List Statement) (isRead : ∀ statement ∈ list, statement.IsRead) :
    ∃ (lines : List Field) (blocks : List Block),
      list = lines.map Statement.field ++ blocks.flatMap Block.statements ∧
      (∀ line ∈ lines, line.IsRead .line) ∧ ∀ block ∈ blocks, block.IsRead := by
  induction list with
  | nil => exact ⟨[], [], rfl, by simp, by simp⟩
  | cons statement list ih =>
    obtain ⟨lines, blocks, rfl, legible, each⟩ :=
      ih fun other member => isRead other (List.mem_cons_of_mem _ member)
    have first := isRead statement List.mem_cons_self
    cases statement with
    | field line =>
      refine ⟨line :: lines, blocks, rfl, ?_, each⟩
      simpa using ⟨first, legible⟩
    | header line =>
      refine ⟨[], ⟨line, lines⟩ :: blocks, ?_, by simp, ?_⟩
      · simp [Block.statements]
      · simpa using ⟨⟨first.1, first.2, legible⟩, each⟩

namespace Document

theorem sound_of_of_text? (source : Text) (document : Document) (read : ofText? source = some document) :
    IsTail document.trailing ∧ ∃ high, document.root.Sound 0 high := by
  obtain ⟨⟨list, trailing⟩, scanned, read⟩ := Option.bind_eq_some_iff.mp read
  obtain ⟨root, made, read⟩ := Option.bind_eq_some_iff.mp read
  cases read
  obtain ⟨isRead, isTail⟩ := Reader.statements_is_read _ _ _ _ scanned
  obtain ⟨lines, blocks, rfl, legible, each⟩ := statements_split list isRead
  rw [Entries.of_statements?_eq] at made
  obtain ⟨start, first, rest⟩ := Option.bind_eq_some_iff.mp made
  exact ⟨isTail, _, Block.sound_edits blocks each start root
    (Entries.sound_add_fields? le_rfl lines legible .fresh .nil start (Entries.sound_nil 0 0) first) rest⟩

end Document

end Reroot
