import Reroot.Proofs.Kept
import Reroot.Proofs.Lines

set_option autoImplicit false

namespace Reroot

open Text

def Text.LeavesBraces (text : Text) : Prop :=
  ∀ taken behind, gap text = some (taken, behind) →
    behind.head? ≠ some ',' ∧ behind.head? ≠ some '\x7d'

def Text.Breaks (text : Text) : Prop := ∃ c rest, text = c :: rest ∧ (c = '\n' ∨ c = '#')

namespace Text

theorem leaves_braces_append (first second : Text) (isGap : IsGap first)
    (leaves : LeavesBraces second) : LeavesBraces (first ++ second) := by
  intro taken behind read
  rw [gap, gap_from_append false false first second isGap] at read
  obtain ⟨⟨other, after⟩, inner, same⟩ := Option.map_eq_some_iff.mp read
  cases same
  exact leaves other behind inner

theorem leaves_braces_of_open (before line rest : Text) (opened : gapEnd false before = some true)
    (straight : '\n' ∉ line) (leaves : LeavesBraces rest) :
    LeavesBraces (before ++ (line ++ '\n' :: rest)) := by
  intro taken behind read
  obtain ⟨other, inner⟩ := gap_of_open before line rest taken behind opened straight read
  exact leaves other behind inner

theorem IsGap.breaks {text : Text} (isGap : IsGap text) (bent : ¬ IsBlanks text) (rest : Text) :
    ∃ space more, text ++ rest = space ++ more ∧ IsBlanks space ∧ more.Breaks := by
  obtain ⟨space, more, rfl, blank, -, head⟩ := isGap.split_blanks
  cases more with
  | nil => exact absurd (by simpa using blank) bent
  | cons c more => exact ⟨space, c :: more ++ rest, by simp, blank, c, _, rfl, head c rfl⟩

theorem Breaks.ends_path {text : Text} (breaks : text.Breaks) : EndsPath text := by
  obtain ⟨c, rest, rfl, kind⟩ := breaks
  exact ends_path_cons c rest (.inr (.inr kind))

end Text

namespace Reader

theorem value_of_breaks (depth : Nat) (text : Text) (breaks : text.Breaks) :
    value depth text = none := by
  obtain ⟨c, rest, rfl, kind⟩ := breaks
  have plain : value depth (c :: rest) = scalar (c :: rest) := by
    cases depth with
    | zero => rfl
    | succ depth => rcases kind with rfl | rfl <;> rfl
  rw [plain, scalar]
  rcases kind with rfl | rfl
  · rfl
  · rfl

theorem path_of_breaks (before text : Text) (breaks : text.Breaks) : path before text = none := by
  obtain ⟨c, rest, rfl, kind⟩ := breaks
  rcases kind with rfl | rfl <;> rfl

theorem header_of_breaks (isElement : Bool) (before source space more : Text)
    (spaced : blanks source = (space, more)) (breaks : more.Breaks) :
    header isElement before source = none := by
  simp only [header, spaced, path_of_breaks space more breaks, Option.bind_eq_bind, Option.bind_none]

theorem field_without_equals (before source rest : Text) (parents : List Key) (key : Key)
    (readPath : path before source = some (parents, key, rest)) (breaks : rest.Breaks) :
    field before source = none := by
  obtain ⟨c, rest, rfl, kind⟩ := breaks
  simp only [field, readPath, Option.bind_eq_bind, Option.bind_some]
  rcases kind with rfl | rfl <;> rfl

theorem field_without_value (before source space part tail : Text) (parents : List Key) (key : Key)
    (readPath : path before source = some (parents, key, '=' :: tail))
    (spaced : blanks tail = (space, part)) (stuck : value limit part = none) :
    field before source = none := by
  simp only [field, readPath, spaced, stuck, Option.bind_eq_bind, Option.bind_some, Option.bind_none]

theorem fields_without_end (value : Scan Node) (bound : Nat)
    (source before between before' behind part part' tail : Text) (c : Char)
    (parents : List Key) (key : Key) (node : Node)
    (space : gap source = some (before, c :: part)) (other : c ≠ '\x7d')
    (readPath : path before (c :: part) = some (parents, key, between ++ '=' :: tail))
    (isBetween : IsGap between) (space' : gap tail = some (before', part'))
    (read : value part' = some (node, behind)) (leaves : LeavesBraces behind) :
    fields value (bound + 1) source = none := by
  have equals := gap_of_is_gap between ('=' :: tail) isBetween (starts_token_cons _ _ rfl)
  cases ends : gap behind with
  | none => simp [fields, space, other, readPath, equals, space', read, ends]
  | some result =>
    obtain ⟨after, next⟩ := result
    obtain ⟨comma, brace⟩ := leaves after next ends
    cases next with
    | nil => simp [fields, space, other, readPath, equals, space', read, ends]
    | cons d next =>
      have notComma : d ≠ ',' := by simpa using comma
      have notBrace : d ≠ '\x7d' := by simpa using brace
      simp [fields, space, other, readPath, equals, space', read, ends, notComma, notBrace]

end Reader

namespace Node

theorem text_with_margin (margin : Margin) (node : Node) :
    (node.withMargin margin).text = node.text := by
  cases node <;> rfl

theorem within_with_margin (depth : Nat) (margin : Margin) (node : Node) :
    (node.withMargin margin).within depth = node.within depth := by
  cases node with
  | inline style entries => rw [withMargin, within, within]
  | scalar own value => rw [withMargin, within, within]
  | array style elements => rw [withMargin, within, within]
  | table style entries => rfl
  | tables elements => rfl

theorem margin_with_margin (margin : Margin) (node : Node) (isValue : node.isValue = true) :
    (node.withMargin margin).margin = margin := by
  cases node with
  | scalar own value => rfl
  | array style elements => rfl
  | inline style entries => rfl
  | table style entries => cases isValue
  | tables elements => cases isValue

end Node

def Field.cut (field : Field) : Field :=
  { field with value := field.value.withMargin { field.value.margin with after := none } }

structure Field.Open (field : Field) : Prop where
  legible : field.cut.Legible .braces
  opened : gapEnd false (field.value.margin.after.getD []) = some true

theorem Field.Open.stuck {field : Field} (isOpen : field.Open) (value : Scan Node) (bound : Nat)
    (short : field.parents.length < Reader.limit) (reads : field.value.ReadsBy value) (isLast : Bool)
    (lead more : Text) (stop : Char) (isGap : IsGap lead) (isStop : isStop stop = true)
    (leaves : LeavesBraces (field.value.margin.after.getD [] ++ stop :: more)) :
    Reader.fields value bound (lead ++ (field.written.print isLast ++ stop :: more)) = none := by
  obtain ⟨legible, opened⟩ := isOpen
  have isTail : IsTail (field.value.margin.after.getD []) := by
    rw [IsTail, opened]
    rfl
  have isValue : field.value.isValue = true := by
    rw [← Node.is_value_with_margin]
    exact legible.2.2.2.1
  obtain ⟨after, written⟩ : ∃ after, field.value.margin.after = some after := by
    cases found : field.value.margin.after with
    | none =>
      rw [found] at opened
      cases opened
    | some after => exact ⟨after, rfl⟩
  have readsCut : field.cut.value.ReadsBy value := by
    intro rest ends
    obtain ⟨same, data, whole, read⟩ := reads rest ends
    refine ⟨same, ?_, whole, ?_⟩
    · rw [data, Field.cut, Node.data_with_margin]
    · rw [Field.cut, Node.text_with_margin, read]
  cases bound with
  | zero => rfl
  | succ bound =>
    obtain ⟨before, between, before', part, part', tail, c, parents, key, node, space, other,
      readPath, isBetween, space', read, -⟩ :=
      field.cut.front_text value legible short readsCut lead (field.value.margin.after.getD []) more
        stop isGap isTail isStop
    refine Eq.trans (congrArg _ ?_) (Reader.fields_without_end value bound _ before between before' _
      part part' tail c parents key node space other readPath isBetween space' read leaves)
    simp [Field.written, Field.cut, WrittenField.print, Key.pathText, Margin.wrap, written,
      Node.text_with_margin, Node.margin_with_margin _ _ isValue]

theorem Field.Legible.stuck {field : Field} (legible : field.Legible .braces) (value : Scan Node)
    (short : field.parents.length < Reader.limit) (reads : field.value.ReadsBy value)
    (lead more : Text) (isGap : IsGap lead)
    (none' : ∀ bound, Reader.fields value bound more = none) (bound : Nat) :
    Reader.fields value bound (lead ++ (field.written.print false ++ ',' :: more)) = none := by
  obtain ⟨-, -, -, isValue, legibleValue⟩ := id legible
  have beside : field.value.margin.Fits IsGap IsGap :=
    field.value.margin_of_legible .braces isValue legibleValue
  have after : IsGap (field.value.margin.after.getD []) := beside.after_get_d [] rfl
  cases bound with
  | zero => rfl
  | succ bound =>
    obtain ⟨before, between, before', part, part', tail, c, parents, key, node, space, other,
      readPath, isBetween, space', read, -⟩ :=
      field.front_text value legible short reads lead _ more ',' isGap after.is_tail rfl
    have whole := Reader.fields_comma value bound _ before between before' _ part part' tail more c
      parents key node space other readPath isBetween space' read after
    rw [none' bound, Option.map_none] at whole
    refine Eq.trans (congrArg _ ?_) whole
    simp [Field.written, WrittenField.print, Key.pathText, Margin.wrap]

-- Fields are not read if a comment runs on from one of them past the brace that closes them.
theorem fields_stuck (value : Scan Node) (line behind : Text) (list : List Field)
    (each : ∀ field ∈ list, field.Legible .braces ∨ field.Open) (some' : ∃ field ∈ list, field.Open)
    (short : ∀ field ∈ list, field.parents.length < Reader.limit)
    (reads : ∀ field ∈ list, field.value.ReadsBy value)
    (straight : '\n' ∉ WrittenField.printAll (list.map Field.written)) (straight' : '\n' ∉ line)
    (leaves : LeavesBraces behind) (lead : Text) (isGap : IsGap lead) (bound : Nat) :
    Reader.fields value bound (lead ++ (WrittenField.printAll (list.map Field.written) ++
      '\x7d' :: (line ++ '\n' :: behind))) = none := by
  induction list generalizing lead bound with
  | nil =>
    obtain ⟨field, member, -⟩ := some'
    cases member
  | cons field list ih =>
    have short' := short field List.mem_cons_self
    have reads' := reads field List.mem_cons_self
    cases list with
    | nil =>
      obtain ⟨other, member, isOpen⟩ := some'
      cases List.mem_singleton.mp member
      refine isOpen.stuck value bound short' reads' true lead _ '\x7d' isGap rfl ?_
      exact leaves_braces_of_open _ ('\x7d' :: line) behind isOpen.opened
        (by simpa using straight') leaves
    | cons next list =>
      have onLine : '\n' ∉ WrittenField.printAll ((next :: list).map Field.written) := by
        simp only [List.map_cons, WrittenField.printAll, List.mem_append, List.mem_cons,
          not_or] at straight ⊢
        exact straight.2.2
      rw [List.map_cons, List.map_cons, WrittenField.printAll, ← List.map_cons, List.append_assoc,
        List.cons_append]
      · -- An open field ends the reading here, and in front of one the others follow.
        by_cases isOpen : field.Open
        · refine isOpen.stuck value bound short' reads' false lead _ ',' isGap rfl ?_
          have shape : ',' :: (WrittenField.printAll ((next :: list).map Field.written) ++
              '\x7d' :: (line ++ '\n' :: behind)) =
              (',' :: (WrittenField.printAll ((next :: list).map Field.written) ++ '\x7d' :: line)) ++
                '\n' :: behind := by simp
          rw [shape]
          exact leaves_braces_of_open _ _ behind isOpen.opened
            (by simpa using And.intro onLine straight') leaves
        · have legible := (each field List.mem_cons_self).resolve_right isOpen
          refine legible.stuck value short' reads' lead _ isGap (fun bound => ?_) bound
          refine ih (fun other member => each other (List.mem_cons_of_mem _ member)) ?_
            (fun other member => short other (List.mem_cons_of_mem _ member))
            (fun other member => reads other (List.mem_cons_of_mem _ member)) onLine [] rfl bound
          obtain ⟨other, member, otherOpen⟩ := some'
          rcases List.mem_cons.mp member with rfl | later
          · exact absurd otherOpen isOpen
          · exact ⟨other, later, otherOpen⟩
      · exact List.cons_ne_nil _ _

structure Field.Commented (line : Field) (style : InlineStyle) (entries : Entries) : Prop where
  value : line.value = .inline style entries
  single : style.dotted = false
  keys : ∀ part ∈ line.parents ++ [line.key], part.Legible
  around : Site.line.Around line.key.outer
  beside : Site.line.Beside style.margin
  preamble : IsGap style.preamble
  each : ∀ field ∈ entries.fields [], field.Legible .braces ∨ field.Open
  some : ∃ field ∈ entries.fields [], field.Open
  straight : '\n' ∉ (Node.inline style entries).text

inductive Field.Stuck (line : Field) : Prop where
  | torn (legible : line.Legible .braces) (torn : ¬ line.Legible .line)
  | commented (style : InlineStyle) (entries : Entries) (commented : line.Commented style entries)

theorem Field.legible_of_blanks (line : Field) (legible : line.Legible .braces)
    (after : IsBlanks (line.key.outer.after.getD [' ']))
    (before : IsBlanks (line.value.margin.before.getD [' '])) : line.Legible .line := by
  obtain ⟨legibleParents, legibleKey, around, isValue, legibleValue⟩ := legible
  have inside : line.value.margin.Fits IsGap IsGap :=
    line.value.margin_of_legible .braces isValue legibleValue
  have beside : Site.line.Beside line.value.margin := by
    refine ⟨fun text found => ?_, fun text found => (inside.2 text found).is_tail⟩
    rw [found] at before
    exact before
  have whole := (Node.whole_of_is_value .braces line.value isValue legibleValue).legible .line _ beside
  rw [Node.with_margin_margin] at whole
  refine ⟨legibleParents, legibleKey, ⟨around.1, fun text found => ?_⟩, isValue, whole⟩
  rw [found] at after
  exact after

theorem Field.stuck_of_torn (line : Field) (legible : line.Legible .braces)
    (torn : ¬ line.Legible .line) (short : line.parents.length < Reader.limit) (pending rest : Text) :
    Reader.field pending (line.onward rest) = none := by
  obtain ⟨legibleParents, legibleKey, around, isValue, legibleValue⟩ := id legible
  have legibleAll : ∀ part ∈ line.parents ++ [line.key], part.Legible := by
    simpa [or_imp, forall_and] using ⟨legibleParents, legibleKey⟩
  have after : IsGap (line.key.outer.after.getD [' ']) := Margin.Fits.after_get_d around [' '] rfl
  have inside : line.value.margin.Fits IsGap IsGap :=
    line.value.margin_of_legible .braces isValue legibleValue
  have before : IsGap (line.value.margin.before.getD [' ']) := inside.before_get_d [' '] rfl
  by_cases blank : IsBlanks (line.key.outer.after.getD [' '])
  · have bent : ¬ IsBlanks (line.value.margin.before.getD [' ']) :=
      fun blank' => torn (line.legible_of_blanks legible blank blank')
    obtain ⟨space, more, same, isBlanks, breaks⟩ := before.breaks bent (line.value.text ++
      (line.value.margin.after.getD [] ++ '\n' :: rest))
    obtain ⟨parents, key, readPath, -⟩ := Key.path_linked line.parents line.key pending
      (line.key.outer.after.getD [' ']) ('=' :: (space ++ more)) legibleAll short blank
      (ends_path_cons '=' _ (.inl rfl))
    have spaced := blanks_of_is_blanks space more isBlanks fun c found => (breaks.ends_path.2 c found).1
    rw [onward, same]
    exact Reader.field_without_value pending _ space more _ parents key readPath spaced
      (Reader.value_of_breaks _ more breaks)
  · obtain ⟨space, more, same, isBlanks, breaks⟩ := after.breaks blank ('=' ::
      (line.value.margin.before.getD [' '] ++ (line.value.text ++
        (line.value.margin.after.getD [] ++ '\n' :: rest))))
    obtain ⟨parents, key, readPath, -⟩ := Key.path_linked line.parents line.key pending space more
      legibleAll short isBlanks breaks.ends_path
    rw [onward, same]
    exact Reader.field_without_equals pending _ more parents key readPath breaks

theorem Reader.value_of_commented (line : Field) (style : InlineStyle) (entries : Entries)
    (commented : line.Commented style entries) (within : line.value.within limit = true)
    (end' behind : Text) (straight : '\n' ∉ end') (leaves : LeavesBraces behind) :
    value limit (line.value.text ++ (end' ++ '\n' :: behind)) = none := by
  have single : ¬ style.dotted = true := by simp [commented.single]
  rw [commented.value, show limit = 79 + 1 from rfl, Node.within, if_neg single] at within
  have limits : entries.within 79 = true ∧ ∀ field ∈ entries.fields [], field.parents.length < limit := by
    simpa using within
  have withinAll := entries.within_fields 79 [] limits.1
  have readsAll : ∀ field ∈ entries.fields [], field.value.ReadsBy (value 79) := by
    intro field member
    rcases commented.each field member with legible | isOpen
    · exact field.value.reads_of_legible 79 .braces legible.2.2.2.1 legible.2.2.2.2 (withinAll field member)
    · obtain ⟨-, -, -, isValue, legible⟩ := isOpen.legible
      intro rest ends
      obtain ⟨same, data, whole, read⟩ := field.cut.value.reads_of_legible 79 .braces isValue legible (by
        rw [Field.cut, Node.within_with_margin]
        exact withinAll field member) rest ends
      rw [Field.cut, Node.data_with_margin] at data
      rw [Field.cut, Node.text_with_margin] at read
      exact ⟨same, data, whole, read⟩
  have shape : line.value.text ++ (end' ++ '\n' :: behind) = '\x7b' :: (style.preamble ++
      (WrittenField.printAll ((entries.fields []).map Field.written) ++
        '\x7d' :: (end' ++ '\n' :: behind))) := by
    simp [commented.value, Node.text, InlineStyle.enclose, Entries.written_eq]
  have onLine : '\n' ∉ WrittenField.printAll ((entries.fields []).map Field.written) := by
    have whole := commented.straight
    simp only [Node.text, InlineStyle.enclose, Entries.written_eq, List.mem_append, List.mem_cons,
      not_or] at whole
    exact whole.1.2
  rw [shape, show limit = 79 + 1 from rfl, value, fields_stuck (value 79) end' behind (entries.fields [])
    commented.each commented.some limits.2 readsAll onLine straight leaves style.preamble
    commented.preamble]
  rfl

theorem Field.stuck_of_commented (line : Field) (style : InlineStyle) (entries : Entries)
    (commented : line.Commented style entries) (within : line.within Reader.limit = true)
    (pending rest : Text) (leaves : LeavesBraces rest) :
    Reader.field pending (line.onward rest) = none := by
  have limits : line.parents.length < Reader.limit ∧ line.value.within Reader.limit = true := by
    simpa [Field.within] using within
  have beside : line.value.margin.Fits IsBlanks IsTail := by
    rw [commented.value]
    exact commented.beside
  have after : IsBlanks (line.key.outer.after.getD [' ']) :=
    Margin.Fits.after_get_d commented.around [' '] rfl
  have before : IsBlanks (line.value.margin.before.getD [' ']) := beside.before_get_d [' '] rfl
  have isTail : IsTail (line.value.margin.after.getD []) := beside.after_get_d [] rfl
  obtain ⟨end', more, same, straight, -, isGap⟩ := isTail.split_line
  obtain ⟨parents, key, readPath, -⟩ := Key.path_linked line.parents line.key pending
    (line.key.outer.after.getD [' ']) ('=' :: (line.value.margin.before.getD [' '] ++
      (line.value.text ++ (line.value.margin.after.getD [] ++ '\n' :: rest)))) commented.keys limits.1
    after (ends_path_cons '=' _ (.inl rfl))
  have spaced := blanks_of_is_blanks (line.value.margin.before.getD [' ']) (line.value.text ++
    (line.value.margin.after.getD [] ++ '\n' :: rest)) before fun c found => by
      rw [commented.value] at found
      cases found
      rfl
  have stuck := Reader.value_of_commented line style entries commented limits.2 end' (more ++ rest)
    straight (leaves_braces_append more rest isGap leaves)
  rw [← same] at stuck
  rw [onward]
  exact Reader.field_without_value pending _ _ _ _ parents key readPath spaced stuck

structure Header.Broken (line : Header) : Prop where
  margin : line.margin.Fits IsGap IsTail
  lead : IsGap (line.key.outer.before.getD [])
  broken : ¬ IsBlanks (line.key.outer.before.getD [])

theorem Header.stuck_of_broken (line : Header) (broken : line.Broken) (isFirst : Bool)
    (pending rest : Text) (isGap : IsGap pending) :
    ∃ before part, gap (pending ++ (line.text isFirst ++ rest)) = some (before, '[' :: part) ∧
      Reader.statement before ('[' :: part) = none := by
  have before : IsGap (pending ++ line.margin.before.getD (if isFirst then [] else ['\n'])) := by
    apply isGap.append
    apply broken.margin.before_get_d
    cases isFirst <;> rfl
  obtain ⟨space, more, same, isBlanks, breaks⟩ := broken.lead.breaks broken.broken
    (Key.linked true line.parents line.key ++ (line.key.outer.after.getD [] ++
      (closing line.isElement ++ (line.margin.after.getD [] ++ '\n' :: rest))))
  have spaced := blanks_of_is_blanks space more isBlanks fun c found => (breaks.ends_path.2 c found).1
  obtain ⟨c, tail, shape, other⟩ : ∃ c tail, space ++ more = c :: tail ∧ c ≠ '[' := by
    cases space with
    | nil =>
      obtain ⟨c, tail, rfl, kind⟩ := breaks
      refine ⟨c, tail, rfl, ?_⟩
      rcases kind with rfl | rfl <;> decide
    | cons c space =>
      refine ⟨c, space ++ more, rfl, ?_⟩
      rintro rfl
      exact absurd isBlanks (by simp [IsBlanks, isBlank])
  have whole := Reader.statement_of_bracket line.isElement
    (pending ++ line.margin.before.getD (if isFirst then [] else ['\n'])) c tail other
  rw [← shape, Reader.header_of_breaks line.isElement _ _ space more spaced breaks] at whole
  obtain ⟨part, begins⟩ : ∃ part, opening line.isElement ++ (space ++ more) = '[' :: part := by
    cases line.isElement with
    | false => exact ⟨space ++ more, rfl⟩
    | true => exact ⟨'[' :: (space ++ more), rfl⟩
  refine ⟨_, part, ?_, begins ▸ whole⟩
  have opens := gap_of_is_gap _ ('[' :: part) before (starts_token_cons _ _ rfl)
  rw [← begins, ← same] at opens
  rw [line.text_eq, ← List.append_assoc, opens, same, begins]

namespace Statement

inductive Judged : Statement → Prop where
  | legible (statement : Statement) (legible : statement.Legible) : Judged statement
  | stuck (line : Field) (stuck : line.Stuck) : Judged (.field line)
  | broken (line : Header) (broken : line.Broken) : Judged (.header line)

theorem opens_stuck (line : Field) (stuck : line.Stuck) (isFirst : Bool) (pending rest : Text)
    (isGap : IsGap pending) :
    ∃ before c part, gap (pending ++ ((Statement.field line).text isFirst ++ rest)) =
      some (before, c :: part) ∧ c ≠ '[' ∧ StartsStatement c ∧ line.onward rest = c :: part := by
  have parts : (∀ part ∈ line.parents ++ [line.key], part.Legible) ∧
      IsGap (line.key.outer.before.getD []) := by
    cases stuck with
    | torn legible torn =>
      obtain ⟨legibleParents, legibleKey, around, -, -⟩ := legible
      exact ⟨by simpa [or_imp, forall_and] using ⟨legibleParents, legibleKey⟩,
        Margin.Fits.before_get_d around [] rfl⟩
    | commented style entries commented =>
      exact ⟨commented.keys, Margin.Fits.before_get_d commented.around [] rfl⟩
  obtain ⟨opens, c, part, begins, other, starts⟩ := line.opens_text parts.1 parts.2 pending rest isGap
  rw [begins] at opens
  exact ⟨_, c, part, opens, other, starts, begins⟩

theorem opens_text (statement : Statement) (judged : statement.Judged)
    (within : statement.within = true) (isFirst : Bool) (pending rest : Text) (isGap : IsGap pending) :
    ∃ before c part, gap (pending ++ (statement.text isFirst ++ rest)) = some (before, c :: part) ∧
      StartsStatement c := by
  cases judged with
  | legible _ legible =>
    obtain ⟨before, c, part, same, more, opens, read, -, -⟩ :=
      statement.statement_text isFirst legible within pending rest isGap
    exact ⟨before, c, part, opens, Reader.starts_of_statement before c part _ read⟩
  | stuck line stuck =>
    obtain ⟨before, c, part, opens, -, starts, -⟩ := opens_stuck line stuck isFirst pending rest isGap
    exact ⟨before, c, part, opens, starts⟩
  | broken line broken =>
    obtain ⟨before, part, opens, -⟩ := line.stuck_of_broken broken isFirst pending rest isGap
    exact ⟨before, '[', part, opens, .inl rfl⟩

theorem leaves_braces_print_from (trailing : Text) (isTail : IsTail trailing) (list : List Statement)
    (judged : ∀ statement ∈ list, statement.Judged)
    (within : ∀ statement ∈ list, statement.within = true) (isFirst : Bool) :
    LeavesBraces (printFrom isFirst list ++ trailing) := by
  intro taken behind read
  cases list with
  | nil =>
    rw [printFrom, List.nil_append, gap_of_is_tail trailing isTail] at read
    cases read
    exact ⟨by simp, by simp⟩
  | cons first rest =>
    obtain ⟨before, c, part, opens, starts⟩ := first.opens_text (judged _ List.mem_cons_self)
      (within _ List.mem_cons_self) isFirst [] (printFrom false rest ++ trailing) is_gap_nil
    rw [printFrom, List.append_assoc] at read
    cases opens.symm.trans read
    constructor
    · intro same
      cases same
      exact absurd starts (by decide)
    · intro same
      cases same
      exact absurd starts (by decide)

theorem statement_stuck (line : Field) (stuck : line.Stuck) (within : line.within Reader.limit = true)
    (isFirst : Bool) (pending rest : Text) (isGap : IsGap pending) (leaves : LeavesBraces rest) :
    ∃ before c part, gap (pending ++ ((Statement.field line).text isFirst ++ rest)) =
      some (before, c :: part) ∧ Reader.statement before (c :: part) = none := by
  obtain ⟨before, c, part, opens, other, -, begins⟩ :=
    opens_stuck line stuck isFirst pending rest isGap
  refine ⟨before, c, part, opens, ?_⟩
  rw [Reader.statement_of_key before _ c part rfl other, ← begins]
  cases stuck with
  | torn legible torn =>
    have short : line.parents.length < Reader.limit := by
      simp only [Field.within, Bool.and_eq_true, decide_eq_true_eq] at within
      exact within.1
    exact line.stuck_of_torn legible torn short before rest
  | commented style entries commented =>
    exact line.stuck_of_commented style entries commented within before rest leaves

theorem legible_of_reads (trailing : Text) (isTail : IsTail trailing) (list : List Statement)
    (judged : ∀ statement ∈ list, statement.Judged)
    (within : ∀ statement ∈ list, statement.within = true) (isFirst : Bool) (pending : Text)
    (bound : Nat) (isGap : IsGap pending) (result : List Statement × Text)
    (reads : Reader.statements bound (pending ++ (printFrom isFirst list ++ trailing)) = some result) :
    ∀ statement ∈ list, statement.Legible := by
  induction list generalizing isFirst pending bound result with
  | nil => exact fun _ member => by cases member
  | cons statement list ih =>
    have judgedRest : ∀ other ∈ list, other.Judged :=
      fun other member => judged other (List.mem_cons_of_mem _ member)
    have withinRest : ∀ other ∈ list, other.within = true :=
      fun other member => within other (List.mem_cons_of_mem _ member)
    rw [printFrom, List.append_assoc] at reads
    cases bound with
    | zero => cases reads
    | succ bound =>
      rw [Reader.statements] at reads
      cases judged statement List.mem_cons_self with
      | legible _ legible =>
        obtain ⟨before, c, part, same, more, opens, read, isMore, -⟩ :=
          statement.statement_text isFirst legible (within _ List.mem_cons_self) pending
            (printFrom false list ++ trailing) isGap
        simp only [opens, Option.bind_eq_bind, Option.bind_some, read] at reads
        obtain ⟨others, onward, -⟩ := Option.bind_eq_some_iff.mp reads
        intro other member
        rcases List.mem_cons.mp member with rfl | later
        · exact legible
        · exact ih judgedRest withinRest false more bound isMore others onward other later
      | stuck line stuck =>
        obtain ⟨before, c, part, opens, none'⟩ := statement_stuck line stuck
          (within _ List.mem_cons_self) isFirst pending _ isGap
          (leaves_braces_print_from trailing isTail list judgedRest withinRest false)
        simp only [opens, Option.bind_eq_bind, Option.bind_some, none'] at reads
        cases reads
      | broken line broken =>
        obtain ⟨before, part, opens, none'⟩ := line.stuck_of_broken broken isFirst pending
          (printFrom false list ++ trailing) isGap
        have opens' : gap (pending ++ ((Statement.header line).text isFirst ++
            (printFrom false list ++ trailing))) = some (before, '[' :: part) := opens
        simp only [opens', Option.bind_eq_bind, Option.bind_some, none'] at reads
        cases reads

end Statement

theorem Document.legible_of_reads (document reread : Document) (isTail : IsTail document.trailing)
    (judged : ∀ statement ∈ document.root.statements, statement.Judged)
    (within : document.within = true) (reads : ofText? document.text = some reread) :
    ∀ statement ∈ document.root.statements, statement.Legible := by
  have all : ∀ statement ∈ document.root.statements, statement.within = true :=
    List.all_eq_true.mp within
  have unmarked : ¬ document.text.HasMark := by
    rw [text_eq]
    exact Statement.unmarked_print_from _ isTail true _ fun statement member rest =>
      statement.opens_text (judged _ member) (all _ member) true [] rest is_gap_nil
  rw [of_text?_eq _ unmarked] at reads
  obtain ⟨result, read, -⟩ := Option.bind_eq_some_iff.mp reads
  refine Statement.legible_of_reads document.trailing isTail _ judged all true []
    (document.text.length + 1) is_gap_nil result ?_
  rw [List.nil_append, ← text_eq]
  exact read

end Reroot
