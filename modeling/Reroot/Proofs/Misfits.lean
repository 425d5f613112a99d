import Reroot.Proofs.Merged
import Reroot.Proofs.Reread

set_option autoImplicit false

namespace Reroot

open Text

theorem Field.judged_of_braces (line : Field) (legible : line.Legible .braces) :
    (Statement.field line).Judged := by
  by_cases isLine : line.Legible .line
  · exact .legible _ isLine
  · exact .stuck line (.torn legible isLine)

namespace Node

variable {low high : Nat} {key : Key} {node : Node}

theorem Stands.legible_fields (stands : node.Stands low high key) (parents : List Key)
    (legible : ∀ parent ∈ parents, parent.Legible) :
    ∀ line ∈ node.fields parents key, line.Legible .line :=
  node.legible_fields .body parents key legible stands.read stands.suits stands.legible

theorem Mixed.judged_fields (mixed : node.Mixed low high key) (parents : List Key)
    (legible : ∀ parent ∈ parents, parent.Legible) :
    ∀ line ∈ node.fields parents key, (Statement.field line).Judged := by
  intro line member
  rcases mixed with stands | ⟨read, unset, inside⟩
  · exact .legible _ (stands.legible_fields parents legible line member)
  · exact line.judged_of_braces (node.legible_fields .braces parents key legible read
      (Node.suits_unset _ _ _ unset) inside line member)

theorem Mixed.legible_sections (mixed : node.Mixed low high key) (path : List Key)
    (legible : ∀ parent ∈ path, parent.Legible) :
    ∀ part ∈ node.sections (path ++ [key]) false, part.Legible := by
  rcases mixed with stands | ⟨-, -, inside⟩
  · exact node.legible_sections path key false legible stands.read stands.suits stands.legible
  · intro part member
    cases node with
    | table style entries => cases inside.1
    | tables elements => cases inside.1
    | scalar margin value => cases member
    | array style elements => cases member
    | inline style entries => cases member

theorem Loose.legible_or_open (loose : node.Loose key) :
    ∀ field ∈ node.fields [] key, field.Legible .braces ∨ field.Open := by
  intro field member
  rcases loose with ⟨read, suits, inside⟩ | isOpen
  · exact .inl (node.legible_fields .braces [] key (by simp) read suits inside field member)
  · have isValue : node.isValue = true := by
      rw [← Node.is_value_with_margin]
      exact isOpen.legible.2.2.2.1
    rw [node.fields_of_is_value [] key isValue, List.mem_singleton] at member
    rw [member]
    exact .inr isOpen

end Node

namespace Node.Rough

variable {low high : Nat} {key : Key} {node : Node}

theorem judged_fields (rough : node.Rough low high key) (oneLine : Fragment.OneLine node) :
    ∀ line ∈ node.fields [] key, (Statement.field line).Judged := by
  intro line member
  cases rough with
  | stands _ stands => exact .legible _ (stands.legible_fields [] (by simp) line member)
  | table style base entries stands distinct each =>
    rw [Node.fields] at member
    split at member
    · obtain ⟨entry, there, member⟩ := (Entries.mem_fields _ _ _).mp member
      exact (each entry there).judged_fields [key] (by simpa using stands.read) line member
    · cases member
  | inline style base entries single stands distinct each =>
    have plain : ¬ style.dotted = true := by simp [single]
    have legible := stands.legible
    rw [Node.Legible, if_neg plain] at legible
    rw [Node.fields, if_neg plain, List.mem_singleton] at member
    rw [member]
    have keys : ∀ part ∈ ([] : List Key) ++ [key], part.Legible := by simpa using stands.read
    have around := stands.suits.1
    by_cases some' : ∃ entry ∈ entries.toList, Field.Open ⟨[], entry.1, entry.2⟩
    · obtain ⟨entry, there, isOpen⟩ := some'
      have isValue : entry.2.isValue = true := by
        rw [← Node.is_value_with_margin]
        exact isOpen.legible.2.2.2.1
      refine .stuck _ (.commented style entries
        ⟨rfl, single, keys, around, legible.1, legible.2.1, fun field inside => ?_, ?_, ?_⟩)
      · obtain ⟨other, there, inside⟩ := (Entries.mem_fields _ _ _).mp inside
        exact Node.Loose.legible_or_open (each other there) field inside
      · refine ⟨_, (Entries.mem_fields _ _ _).mpr ⟨entry, there, ?_⟩, isOpen⟩
        rw [Node.fields_of_is_value [] entry.1 entry.2 isValue]
        exact List.mem_singleton.mpr rfl
      · refine oneLine.resolve_left fun uncommented => ?_
        have closed := uncommented entry there
        rw [IsGap, isOpen.opened] at closed
        cases closed
    · have inside : entries.Legible .braces := (Entries.legible_iff _ _).mpr ⟨distinct,
        fun entry there => (each entry there).resolve_right fun isOpen => some' ⟨entry, there, isOpen⟩⟩
      refine .legible _ ⟨by simp, stands.read, around, by simp [Node.isValue, single], ?_⟩
      rw [Node.Legible, if_neg plain]
      exact ⟨legible.1, legible.2.1, inside⟩

theorem judged_sections (rough : node.Rough low high key) : ∀ part ∈ node.sections [key] false,
    ∀ statement ∈ part.statements, statement.Judged := by
  intro part member statement within
  cases rough with
  | stands _ stands =>
    have legible := node.legible_sections [] key false (by simp) stands.read stands.suits stands.legible
    exact .legible _ ((legible part member).legible_statements statement within)
  | table style base entries stands distinct each =>
    rw [Node.sections, List.mem_append] at member
    rcases member with own | deeper
    · split at own
      · cases own
      · case isFalse headed =>
        have legible := (Node.table style base).legible_sections [] key false (by simp) stands.read
          stands.suits stands.legible ⟨[key], false, style, base⟩ (by
            rw [Node.sections, if_neg headed]
            exact List.mem_append_left _ (List.mem_singleton.mpr rfl))
        cases List.mem_singleton.mp own
        rw [Section.statements, List.mem_append] at within
        rcases within with top | below
        · obtain ⟨header, found, rfl⟩ := List.mem_map.mp top
          exact .legible _ (legible.legible_header ⟨[key], false, style, entries⟩ rfl rfl header
            (Option.mem_toList.mp found))
        · obtain ⟨line, inside, rfl⟩ := List.mem_map.mp below
          obtain ⟨entry, there, inside⟩ := (Entries.mem_fields _ _ _).mp inside
          exact (each entry there).judged_fields [] (by simp) line inside
    · obtain ⟨entry, there, inside⟩ := (Entries.mem_sections _ _ _).mp deeper
      have legible := (each entry there).legible_sections [key] (by simpa using stands.read) part inside
      exact .legible _ (legible.legible_statements statement within)
  | inline style base entries single stands distinct each => cases member

end Node.Rough

namespace Entries

theorem mem_statements (root : Entries) (statement : Statement) :
    statement ∈ root.statements ↔ (∃ line ∈ root.fields [], statement = .field line) ∨
      ∃ part ∈ root.sections [], statement ∈ part.statements := by
  have parts : ∀ part : Nat × Section, part ∈ Section.arranged (Section.numbered 0
      (⟨[], false, .fresh, root⟩ :: root.sections [])) ↔ part ∈ Section.numbered 0
        (⟨[], false, .fresh, root⟩ :: root.sections []) := fun part => Section.mem_arranged part _
  have numbers := Section.map_numbered 0 (⟨[], false, .fresh, root⟩ :: root.sections [])
  rw [statements, List.mem_flatMap]
  simp only [parts]
  constructor
  · rintro ⟨part, there, member⟩
    have inside := Section.mem_of_mem_numbered _ _ part there
    rcases List.mem_cons.mp inside with top | deeper
    · rw [top] at member
      obtain ⟨line, inside, rfl⟩ := List.mem_map.mp member
      exact .inl ⟨line, inside, rfl⟩
    · exact .inr ⟨part.2, deeper, member⟩
  · rintro (⟨line, inside, rfl⟩ | ⟨part, deeper, member⟩)
    · exact ⟨_, List.mem_cons_self, List.mem_map_of_mem inside⟩
    · have there :
          part ∈ (Section.numbered 0 (⟨[], false, .fresh, root⟩ :: root.sections [])).map (·.2) := by
        rw [numbers]
        exact List.mem_cons_of_mem _ deeper
      obtain ⟨numbered, inside, rfl⟩ := List.mem_map.mp there
      exact ⟨numbered, inside, member⟩

theorem each_statement (holds : Statement → Prop) (root : Entries)
    (fields : root.Each fun key node => ∀ line ∈ node.fields [] key, holds (.field line))
    (sections : root.Each fun key node => ∀ part ∈ node.sections [key] false,
      ∀ statement ∈ part.statements, holds statement) :
    ∀ statement ∈ root.statements, holds statement := by
  intro statement member
  rcases (root.mem_statements statement).mp member with ⟨line, inside, rfl⟩ | ⟨part, deeper, member⟩
  · obtain ⟨entry, there, inside⟩ := (mem_fields _ _ _).mp inside
    exact fields entry there line inside
  · obtain ⟨entry, there, inside⟩ := (mem_sections _ _ _).mp deeper
    exact sections entry there part inside statement member

theorem judged_of_rough {low high : Nat} (root : Entries) (each : root.Each (Node.Rough low high))
    (oneLine : ∀ entry ∈ root.toList, Fragment.OneLine entry.2) :
    ∀ statement ∈ root.statements, statement.Judged :=
  each_statement _ root (fun entry there => (each entry there).judged_fields (oneLine entry there))
    fun entry there => (each entry there).judged_sections

end Entries

namespace Node

variable {low high : Nat} {key : Key} {node : Node}

theorem straight_of_line (line : Field) (legible : line.Legible .line) :
    IsBlanks (line.value.margin.before.getD []) ∧ IsBlanks (line.key.outer.after.getD []) := by
  obtain ⟨-, -, around, isValue, legibleValue⟩ := legible
  have beside : line.value.margin.Fits IsBlanks IsTail :=
    line.value.margin_of_legible .line isValue legibleValue
  exact ⟨beside.before_get_d [] rfl, Margin.Fits.after_get_d around [] rfl⟩

theorem Mixed.stands (mixed : node.Mixed low high key) (lines : ∀ line ∈ node.fields [] key,
    IsBlanks (line.value.margin.before.getD []) ∧ IsBlanks (line.key.outer.after.getD [])) :
    node.Stands low high key := by
  rcases mixed with stands | ⟨read, unset, inside⟩
  · exact stands
  · refine ⟨read, Node.suits_unset _ _ _ unset, ?_,
      (Node.bare_of_line .braces (by simp) low high node inside).1⟩
    exact node.legible_joined key (Node.suits_unset _ _ _ unset) inside fun line member =>
      ⟨(lines line member).1, fun _ => (lines line member).2⟩

theorem Rough.stands_of_lines (rough : node.Rough low high key)
    (fields : ∀ line ∈ node.fields [] key, line.Legible .line)
    (sections : ∀ part ∈ node.sections [key] false, ∀ line ∈ part.entries.fields [],
      line.Legible .line) : node.Stands low high key := by
  cases rough with
  | stands _ stands => exact stands
  | table style base entries stands distinct each =>
    have lines : ∀ line ∈ entries.fields [],
        IsBlanks (line.value.margin.before.getD []) ∧ IsBlanks (line.key.outer.after.getD []) := by
      intro line member
      rw [Node.fields] at fields
      rw [Node.sections] at sections
      by_cases dotted : style.dotted = true
      · rw [if_pos dotted, List.nil_append, Entries.fields_single] at fields
        exact straight_of_line (line.below [key]) (fields _ (List.mem_map_of_mem member))
      · rw [if_neg dotted] at sections
        exact straight_of_line line (sections _ (List.mem_append_left _ (List.mem_singleton.mpr rfl))
          line member)
    have all : entries.Each (Node.Stands low high) := fun entry there =>
      (each entry there).stands fun line member =>
        lines line ((Entries.mem_fields _ _ _).mpr ⟨entry, there, member⟩)
    obtain ⟨legible, spans⟩ := (Entries.each_stands_iff low high entries).mp ⟨distinct, all⟩
    exact ⟨stands.read, stands.suits, ⟨rfl, stands.legible.2.1, legible⟩, stands.spans.1, spans⟩
  | inline style base entries single stands distinct each =>
    have plain : ¬ style.dotted = true := by simp [single]
    rw [Node.fields, if_neg plain] at fields
    have legible := (fields _ (List.mem_singleton.mpr rfl)).2.2.2.2
    rw [Node.Legible, if_neg plain] at legible
    refine ⟨stands.read, stands.suits, ?_, trivial⟩
    rw [Node.Legible, if_neg plain]
    exact legible

end Node

namespace Fragment

theorem fits_of_value (place node : Node) (value : place.isTable = false ∨ node.isTable = false) :
    Fits place node := by
  cases place with
  | scalar _ _ | array _ _ | tables _ => cases node <;> trivial
  | inline _ _ | table _ _ =>
    have isValue := value.resolve_left (by simp [Node.isTable, Node.entries?])
    cases node with
    | table _ _ | inline _ _ => cases isValue
    | scalar _ _ | array _ _ | tables _ => trivial

theorem fields_renamed (first second : Key) (node : Node) : ∀ line ∈ node.fields [] first,
    ∃ other ∈ node.fields [] second, other.value = line.value ∧
      (line.parents ≠ [] → other.key = line.key) := by
  have single : ∀ value : Node, ∀ line ∈ [(⟨[], first, value⟩ : Field)],
      ∃ other ∈ [(⟨[], second, value⟩ : Field)], other.value = line.value ∧
        (line.parents ≠ [] → other.key = line.key) := by
    intro value line member
    cases List.mem_singleton.mp member
    exact ⟨_, List.mem_singleton.mpr rfl, rfl, fun deeper => absurd rfl deeper⟩
  have spread : ∀ entries : Entries, ∀ line ∈ entries.fields [first],
      ∃ other ∈ entries.fields [second], other.value = line.value ∧
        (line.parents ≠ [] → other.key = line.key) := by
    intro entries line member
    rw [Entries.fields_single] at member ⊢
    obtain ⟨own, there, rfl⟩ := List.mem_map.mp member
    exact ⟨own.below [second], List.mem_map_of_mem there, rfl, fun _ => rfl⟩
  cases node with
  | scalar margin value => exact single _
  | array style elements => exact single _
  | inline style entries =>
    rw [Node.fields, Node.fields]
    split
    · exact spread entries
    · exact single _
  | table style entries =>
    rw [Node.fields, Node.fields]
    split
    · exact spread entries
    · exact fun line member => by cases member
  | tables elements => exact fun line member => by cases member

theorem put_all_form (entries : Entries) (place : Node) :
    ∃ out, putAll entries place = place.withEntries out := by
  induction entries generalizing place with
  | nil => exact ⟨place.entries?.getD .nil, by cases place <;> rfl⟩
  | cons key node tail ih =>
    obtain ⟨out, run⟩ := ih (place.putEntry key.name node)
    refine ⟨out, ?_⟩
    rw [putAll, run]
    cases place <;> rfl

theorem is_gap_of_to_value (node : Node) (native : node.Native) (legible : node.toValue.Legible .braces) :
    IsGap (node.margin.after.getD []) := by
  have inside : ∀ margin : Margin, Site.braces.Beside margin → IsGap (margin.after.getD []) :=
    fun margin beside => Margin.Fits.after_get_d beside [] rfl
  cases node with
  | scalar margin value => exact inside margin legible.1
  | array style elements => exact inside style.margin legible.1
  | inline style entries =>
    rw [Node.toValue, Node.Legible, if_neg (by simpa [Node.Native] using native)] at legible
    exact inside style.margin legible.1
  | table style entries => exact is_gap_nil
  | tables elements => exact is_gap_nil

theorem fits_of_legible (place node : Node) (entries : Entries) (inner : node.entries? = some entries)
    (distinct : entries.names.Nodup) (native : place.Native) (native' : node.Native)
    (legible : (putAll entries place).Legible .body) : Fits place node := by
  obtain ⟨out, run⟩ := put_all_form entries place
  have taken : place.isTable = true → ∀ entry ∈ entries.toList,
      (place.withEntries out).child? (.key entry.1.name) = some (place.adopt entry.2) := by
    intro isTable entry member
    rw [← run, child?_put_all entries distinct place isTable, entries.get?_of_mem distinct entry member]
  rw [run] at legible
  cases place with
  | scalar margin value => cases node <;> trivial
  | array style elements => cases node <;> trivial
  | tables elements => cases node <;> trivial
  | inline style base =>
    rw [Node.withEntries, Node.Legible, if_neg (by simpa [Node.Native] using native)] at legible
    cases node with
    | table style' entries' =>
      cases inner
      intro entry member
      obtain ⟨key, -, -, -, legible'⟩ :=
        Entries.each_get? _ out ((Entries.legible_iff _ _).mp legible.2.2).2 _ _
        (taken rfl entry member)
      exact is_gap_of_to_value entry.2 ((Entries.native_iff _).mp native' entry member) legible'
    | scalar margin value => cases inner
    | array style' elements => cases inner
    | inline style' entries' => trivial
    | tables elements => cases inner
  | table style base =>
    cases node with
    | inline style' entries' =>
      cases inner
      intro line member
      obtain ⟨entry, there, member⟩ := (Entries.mem_fields _ _ _).mp member
      obtain ⟨key, -, read, suits, legible'⟩ := Entries.each_get? _ out
        ((Entries.legible_iff _ _).mp legible.2.2).2 _ _ (taken rfl entry there)
      obtain ⟨other, inside, value, deeper⟩ := fields_renamed entry.1 key entry.2 line member
      obtain ⟨before, after⟩ := Node.straight_of_line other
        (entry.2.legible_fields .body [] key (by simp) read suits legible' other inside)
      exact ⟨value ▸ before, fun some' => deeper some' ▸ after⟩
    | scalar margin value => cases inner
    | array style' elements => cases inner
    | table style' entries' => trivial
    | tables elements => cases inner

end Fragment

namespace Document

structure Stands (high : Nat) (document : Document) : Prop where
  trailing : IsTail document.trailing
  distinct : document.root.names.Nodup
  each : document.root.Each (Node.Stands 0 high)

theorem Stands.rereads {high : Nat} {document : Document} (stands : document.Stands high)
    (within : document.within = true) (orderly : document.Orderly) :
    ∃ reread, ofText? document.text = some reread ∧ document.said.Alike reread.data := by
  obtain ⟨legible, spans⟩ := (Entries.each_stands_iff _ _ _).mp ⟨stands.distinct, stands.each⟩
  exact document.reads_back_of_orderly ⟨legible, stands.trailing⟩ within high spans orderly

theorem Stands.orderly {high : Nat} {document : Document} (stands : document.Stands high)
    (within : document.within = true) (reread : Document) (reads : ofText? document.text = some reread) :
    document.Orderly := by
  obtain ⟨legible, spans⟩ := (Entries.each_stands_iff _ _ _).mp ⟨stands.distinct, stands.each⟩
  exact document.orderly_of_reads reread ⟨legible, stands.trailing⟩ within high spans reads

theorem rereads_of_admits (manifest fragment : String) (document other : Document)
    (read : parse? manifest = some document) (read' : parse? fragment = some other)
    (within : (document.overlay other).1.within = true) (admits : document.Admits other)
    (orderly : (document.overlay other).1.Orderly) :
    ∃ reread, parse? (document.overlay other).1.render = some reread ∧
      (document.overlay other).1.said.Alike reread.data := by
  obtain ⟨isTail, high, -, sound, each⟩ := overlay_each manifest fragment document other read read'
  obtain ⟨distinct, all⟩ := each (Node.Stands 0 high) (fun _ _ stands => stands)
    fun entry member entries key place inner isPlace isTable native stands =>
      (Fragment.put_all_section place isTable native stands (sound.each entry member) inner).2
        (isPlace ▸ admits entry member)
  rw [parse?, render, String.toList_ofList]
  exact Stands.rereads ⟨isTail, distinct, all⟩ within orderly

theorem admits_of_reads (manifest fragment : String) (document other : Document)
    (read : parse? manifest = some document) (read' : parse? fragment = some other)
    (within : (document.overlay other).1.within = true) (oneLine : (document.overlay other).1.OneLine)
    (reads : (parse? (document.overlay other).1.render).isSome = true) :
    document.Admits other ∧ (document.overlay other).1.Orderly := by
  obtain ⟨isTail, high, sound, sound', each⟩ :=
    overlay_each manifest fragment document other read read'
  obtain ⟨distinct, rough⟩ := each (Node.Rough 0 high) (fun _ _ stands => .stands _ stands)
    fun entry member entries key place inner _ isTable native stands =>
      (Fragment.put_all_section place isTable native stands (sound'.each entry member) inner).1
  obtain ⟨reread, reads⟩ := Option.isSome_iff_exists.mp reads
  rw [parse?, render, String.toList_ofList] at reads
  have statements := (document.overlay other).1.legible_of_reads reread isTail
    (Entries.judged_of_rough _ rough oneLine) within reads
  have all : (document.overlay other).1.root.Each (Node.Stands 0 high) := by
    intro entry there
    refine (rough entry there).stands_of_lines (fun line member => ?_) fun part member line inside => ?_
    · exact statements _ ((Entries.mem_statements _ _).mpr
        (.inl ⟨line, (Entries.mem_fields _ _ _).mpr ⟨entry, there, member⟩, rfl⟩))
    · exact statements (.field line) ((Entries.mem_statements _ _).mpr
        (.inr ⟨part, (Entries.mem_sections _ _ _).mpr ⟨entry, there, member⟩,
          List.mem_append_right _ (List.mem_map_of_mem inside)⟩))
  refine ⟨fun entry member => ?_, Stands.orderly ⟨isTail, distinct, all⟩ within reread reads⟩
  have holds := sound'.each entry member
  have there := Fragment.get?_overlay_all document.root other.root sound'.distinct entry.1.name
  rw [other.root.get?_of_mem sound'.distinct entry member] at there
  dsimp only at there
  rw [Fragment.landed] at there
  cases inner : entry.2.entries? with
  | none =>
    refine Fragment.fits_of_value _ _ (.inr ?_)
    rw [Node.isTable, inner]
    rfl
  | some entries =>
    rw [inner] at there
    dsimp only at there
    split at there
    · case isTrue isTable =>
      obtain ⟨key, -, stands⟩ := Entries.each_get? _ _ all _ _ there
      have native := Fragment.native_place document.root (sound.each.imp fun _ _ own => own.native)
        entry.1.name entry.2
      have distinctInner : entries.names.Nodup := entries.names_nodup
        (Entries.distinct_entries? entry.2 (entry.2.distinct_of_legible .body holds.legible) entries inner)
      exact Fragment.fits_of_legible _ _ entries inner distinctInner native holds.native stands.legible
    · case isFalse isValue => exact Fragment.fits_of_value _ _ (.inl (by simpa using isValue))

-- Laying a fragment over a manifest leaves a text that says the same if every section of the fragment
-- fits where it goes and no header comes before one it has to follow; and it leaves no text of a
-- document at all if not, as long as comments between braces run up to the closing one.
theorem overlay_rereads (manifest fragment : String) (document other : Document)
    (read : parse? manifest = some document) (read' : parse? fragment = some other)
    (within : (document.overlay other).1.within = true) :
    (document.Admits other ∧ (document.overlay other).1.Orderly →
      ∃ reread, parse? (document.overlay other).1.render = some reread ∧
        (document.overlay other).1.said.Alike reread.data) ∧
    ((document.overlay other).1.OneLine → (parse? (document.overlay other).1.render).isSome = true →
      document.Admits other ∧ (document.overlay other).1.Orderly) :=
  ⟨fun fits => rereads_of_admits manifest fragment document other read read' within fits.1 fits.2,
    admits_of_reads manifest fragment document other read read' within⟩

theorem overlay_rereads_into_braces :
    ∃ document other reread : Document,
      parse? "features = \x7b default = [] \x7d\n[b]\n" = some document ∧
      parse? "[features]\nfuzz = 1\n[features.deep]\nx = 2 # c\n[b]\ny.z = 3 # d\n" = some other ∧
      parse? (document.overlay other).1.render = some reread ∧
      (document.overlay other).1.said.Alike reread.data := by
  have fits : ((parse? "features = \x7b default = [] \x7d\n[b]\n").bind fun document =>
      (parse? "[features]\nfuzz = 1\n[features.deep]\nx = 2 # c\n[b]\ny.z = 3 # d\n").map fun other =>
        ((document.overlay other).1.within, decide (document.Admits other),
          decide (document.overlay other).1.Orderly)) = some (true, true, true) := by decide +kernel
  obtain ⟨document, read, fits⟩ := Option.bind_eq_some_iff.mp fits
  obtain ⟨other, read', fits⟩ := Option.map_eq_some_iff.mp fits
  simp only [Prod.mk.injEq, decide_eq_true_eq] at fits
  obtain ⟨reread, parsed, alike⟩ :=
    (overlay_rereads _ _ document other read read' fits.1).1 fits.2
  exact ⟨document, other, reread, read, read', parsed, alike⟩

-- A comment between braces, a line end beside an equals sign, and a header in front of one that it
-- has to follow.
theorem overlay_unreadable :
    [("features = \x7b default = [] \x7d\n", "[features]\nfuzz = 1 # c\n"),
      ("[x]\n", "x = \x7b a =\n 1 \x7d\n"),
      ("[p]\n[q]\n[a]\n", "[a]\nb.x = 1\n[a.b.c]\ny = 1\n")].map (fun texts =>
        (parse? texts.1).bind fun document => (parse? texts.2).map fun other =>
          ((document.overlay other).1.within, (parse? (document.overlay other).1.render).isSome)) =
      [some (true, false), some (true, false), some (true, false)] := by decide +kernel

end Document

end Reroot
