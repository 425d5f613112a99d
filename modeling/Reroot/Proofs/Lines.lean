import Reroot.Proofs.Braces

set_option autoImplicit false

namespace Reroot

open Text

structure Header.Says (header same : Header) : Prop where
  parents : same.parents.map (·.name) = header.parents.map (·.name)
  name : same.key.name = header.key.name
  isElement : same.isElement = header.isElement

inductive Statement.Says : Statement → Statement → Prop where
  | field {line same : Field} (alike : line.Says same) : Says (.field line) (.field same)
  | header {line same : Header} (alike : line.Says same) : Says (.header line) (.header same)

def Statement.within : Statement → Bool
  | .field line => line.within Reader.limit
  | .header line => decide (line.parents.length < Reader.limit)

def Document.within (document : Document) : Bool := document.root.statements.all Statement.within

namespace Text

theorem is_blank_of_is_token_start {c : Char} (start : isTokenStart c = true) : isBlank c = false := by
  simp only [isTokenStart, Bool.and_eq_true, Bool.not_eq_true'] at start
  exact start.1.1.1

end Text

namespace Reader

theorem field_of_parts (before source space part rest : Text) (parents : List Key) (key : Key)
    (node : Node) (line : Text) (more tail : Text)
    (readPath : path before source = some (parents, key, '=' :: tail))
    (spaced : blanks tail = (space, part)) (read : value limit part = some (node, rest))
    (ends : restOfLine rest = some (line, more)) :
    field before source =
      some (.field ⟨parents, key, node.withMargin (.around space line)⟩, more) := by
  simp only [field, readPath, spaced, read, ends, Option.bind_eq_bind, Option.bind_some]
  rfl

theorem statement_of_key (before source : Text) (c : Char) (tail : Text) (same : source = c :: tail)
    (other : c ≠ '[') : statement before source = field before source := by
  subst same
  simp [statement, other]

end Reader

def Field.onward (line : Field) (rest : Text) : Text :=
  Key.linked true line.parents line.key ++ (line.key.outer.after.getD [' '] ++ '=' ::
    (line.value.margin.before.getD [' '] ++ (line.value.text ++
      (line.value.margin.after.getD [] ++ '\n' :: rest))))

def Text.StartsStatement (c : Char) : Prop :=
  c = '[' ∨ c = '"' ∨ c = '\'' ∨ Spelling.isBare c = true

instance (c : Char) : Decidable (StartsStatement c) := inferInstanceAs (Decidable (_ ∨ _))

theorem Field.opens_text (line : Field) (legible : ∀ part ∈ line.parents ++ [line.key], part.Legible)
    (before : IsGap (line.key.outer.before.getD [])) (pending rest : Text) (isGap : IsGap pending) :
    gap (pending ++ (line.text ++ rest)) =
        some (pending ++ line.key.outer.before.getD [], line.onward rest) ∧
      ∃ c part, line.onward rest = c :: part ∧ c ≠ '[' ∧ StartsStatement c := by
  obtain ⟨c, text, begins, kind⟩ := Key.linked_head line.parents line.key legible
  obtain ⟨part, shape⟩ : ∃ part, line.onward rest = c :: part := by
    rw [onward, begins]
    exact ⟨_, rfl⟩
  constructor
  · have opens := gap_of_is_gap _ (line.onward rest) (isGap.append before) (by
      rw [shape]
      exact starts_token_cons _ _ (Key.is_token_start_of_head kind))
    rw [← opens]
    simp [Field.text, onward, Key.pathText, Margin.wrap]
  · refine ⟨c, part, shape, ?_, .inr kind⟩
    rintro rfl
    exact absurd kind (by decide)

theorem Field.statement_text (line : Field) (legible : line.Legible .line)
    (within : line.within Reader.limit = true) (pending rest : Text) (isGap : IsGap pending) :
    ∃ before c part same more, gap (pending ++ (line.text ++ rest)) = some (before, c :: part) ∧
      Reader.statement before (c :: part) = some (.field same, more ++ rest) ∧ IsGap more ∧
      line.Says same := by
  obtain ⟨legibleParents, legibleKey, around, isValue, legibleValue⟩ := legible
  have limits : line.parents.length < Reader.limit ∧ line.value.within Reader.limit = true := by
    simpa [Field.within] using within
  have beside : line.value.margin.Fits IsBlanks IsTail :=
    line.value.margin_of_legible .line isValue legibleValue
  have before : IsGap (line.key.outer.before.getD []) := Margin.Fits.before_get_d around [] rfl
  have after : IsBlanks (line.key.outer.after.getD [' ']) := Margin.Fits.after_get_d around [' '] rfl
  have before' : IsBlanks (line.value.margin.before.getD [' ']) := beside.before_get_d [' '] rfl
  have after' : IsTail (line.value.margin.after.getD []) := beside.after_get_d [] rfl
  have legibleAll : ∀ parent ∈ line.parents ++ [line.key], parent.Legible := by
    simpa [or_imp, forall_and] using ⟨legibleParents, legibleKey⟩
  obtain ⟨opens, c, part, begins, other, -⟩ := line.opens_text legibleAll before pending rest isGap
  obtain ⟨d, text', begins', start', -⟩ := line.value.text_head .line isValue legibleValue
  obtain ⟨left, more, isMore, ends⟩ := rest_of_line_of_is_tail _ after'
  obtain ⟨node, data, isValue', read⟩ := line.value.reads_of_legible Reader.limit .line isValue legibleValue
    limits.2 (line.value.margin.after.getD [] ++ '\n' :: rest)
    (ends_scalar_of_is_tail _ rest '\n' after' rfl)
  obtain ⟨parents, key, readPath, names, name, -⟩ := Key.path_linked line.parents line.key
    (pending ++ line.key.outer.before.getD []) (line.key.outer.after.getD [' '])
    ('=' :: (line.value.margin.before.getD [' '] ++ (line.value.text ++
      (line.value.margin.after.getD [] ++ '\n' :: rest)))) legibleAll limits.1 after
    (ends_path_cons '=' _ (.inl rfl))
  have spaced := blanks_of_is_blanks (line.value.margin.before.getD [' ']) (line.value.text ++
    (line.value.margin.after.getD [] ++ '\n' :: rest)) before' fun e found => by
      rw [begins'] at found
      cases found
      exact is_blank_of_is_token_start start'
  have whole := Reader.field_of_parts _ _ _ _ _ parents key node left (more ++ rest) _ readPath spaced
    read (ends rest)
  rw [begins] at opens
  refine ⟨_, c, part, ⟨parents, key, node.withMargin
    (.around (line.value.margin.before.getD [' ']) left)⟩, more, opens, ?_, isMore, names, name, ?_, ?_⟩
  · rw [Reader.statement_of_key _ _ c part rfl other, ← begins]
    exact whole
  · rw [Node.data_with_margin, data]
  · rw [Node.is_value_with_margin, isValue']

namespace Header

def opening (isElement : Bool) : Text := if isElement then ['[', '['] else ['[']

def closing (isElement : Bool) : Text := if isElement then [']', ']'] else [']']

end Header

namespace Reader

theorem header_of_parts (isElement : Bool) (before source space part rest line more : Text)
    (parents : List Key) (key : Key) (spaced : blanks source = (space, part))
    (readPath : path space part = some (parents, key, Header.closing isElement ++ rest))
    (ends : restOfLine rest = some (line, more)) :
    header isElement before source =
      some (.header ⟨parents, key, isElement, .around before line⟩, more) := by
  cases isElement with
  | false =>
    simp only [Header.closing, Bool.false_eq_true, if_false, List.singleton_append] at readPath
    simp only [header, spaced, readPath, ends, Option.bind_eq_bind, Option.bind_some]
    rfl
  | true =>
    simp only [Header.closing, if_true, List.cons_append, List.nil_append] at readPath
    simp only [header, spaced, readPath, ends, Option.bind_eq_bind, Option.bind_some]
    rfl

theorem statement_of_bracket (isElement : Bool) (before : Text) (c : Char) (tail : Text)
    (other : c ≠ '[') :
    statement before (Header.opening isElement ++ c :: tail) =
      header isElement before (c :: tail) := by
  cases isElement with
  | true => rfl
  | false =>
    simp [Header.opening, statement, other]

end Reader

theorem Header.text_eq (isFirst : Bool) (line : Header) (rest : Text) :
    line.text isFirst ++ rest = line.margin.before.getD (if isFirst then [] else ['\n']) ++
      (opening line.isElement ++ (line.key.outer.before.getD [] ++
        (Key.linked true line.parents line.key ++ (line.key.outer.after.getD [] ++
          (closing line.isElement ++ (line.margin.after.getD [] ++ '\n' :: rest)))))) := by
  cases element : line.isElement <;>
    simp [Header.text, opening, closing, element, Key.pathText, Margin.wrap]

-- Behind opening brackets stands a blank or the first key, so they are not misread.
theorem Key.linked_after_bracket (parents : List Key) (key : Key)
    (legible : ∀ parent ∈ parents ++ [key], parent.Legible) (lead : Text) (blank : IsBlanks lead)
    (more : Text) :
    ∃ c behind, lead ++ (Key.linked true parents key ++ more) = c :: behind ∧ c ≠ '[' := by
  cases lead with
  | nil =>
    obtain ⟨c, text, begins, kind⟩ := Key.linked_head parents key legible
    refine ⟨c, _, by rw [begins]; rfl, ?_⟩
    rintro rfl
    exact absurd kind (by decide)
  | cons c lead =>
    refine ⟨c, _, rfl, ?_⟩
    rintro rfl
    exact absurd (Bool.and_eq_true_iff.mp blank).1 (by decide)

theorem Header.statement_text (isFirst : Bool) (line : Header) (legible : line.Legible)
    (within : line.parents.length < Reader.limit) (pending rest : Text) (isGap : IsGap pending) :
    ∃ before c part same more, gap (pending ++ (line.text isFirst ++ rest)) = some (before, c :: part) ∧
      Reader.statement before (c :: part) = some (.header same, more ++ rest) ∧ IsGap more ∧
      line.Says same := by
  obtain ⟨legibleParents, legibleKey, around, beside⟩ := legible
  have before : IsGap (pending ++ line.margin.before.getD (if isFirst then [] else ['\n'])) := by
    apply isGap.append
    apply beside.before_get_d
    cases isFirst <;> rfl
  have after : IsTail (line.margin.after.getD []) := beside.after_get_d [] rfl
  have inside : IsBlanks (line.key.outer.before.getD []) := around.before_get_d [] rfl
  have inside' : IsBlanks (line.key.outer.after.getD []) := around.after_get_d [] rfl
  have legibleAll : ∀ parent ∈ line.parents ++ [line.key], parent.Legible := by
    simpa [or_imp, forall_and] using ⟨legibleParents, legibleKey⟩
  obtain ⟨c, text, begins, kind⟩ := Key.linked_head line.parents line.key legibleAll
  obtain ⟨left, more, isMore, ends⟩ := rest_of_line_of_is_tail _ after
  have closes : EndsPath (closing line.isElement ++ (line.margin.after.getD [] ++ '\n' :: rest)) := by
    cases line.isElement with
    | false => exact ends_path_cons ']' _ (.inr (.inl rfl))
    | true => exact ends_path_cons ']' _ (.inr (.inl rfl))
  obtain ⟨parents, key, readPath, names, name, -⟩ := Key.path_linked line.parents line.key
    (line.key.outer.before.getD []) (line.key.outer.after.getD []) _ legibleAll within inside' closes
  have spaced := blanks_of_is_blanks (line.key.outer.before.getD [])
    (Key.linked true line.parents line.key ++ (line.key.outer.after.getD [] ++
      (closing line.isElement ++ (line.margin.after.getD [] ++ '\n' :: rest)))) inside
    fun d found => by
      rw [begins] at found
      cases found
      exact is_blank_of_is_token_start (Key.is_token_start_of_head kind)
  have whole := Reader.header_of_parts line.isElement
    (pending ++ line.margin.before.getD (if isFirst then [] else ['\n'])) _ _ _ _ left (more ++ rest)
    parents key spaced readPath (ends rest)
  obtain ⟨d, behind, shape, other⟩ := Key.linked_after_bracket line.parents line.key legibleAll _ inside
    (line.key.outer.after.getD [] ++ (closing line.isElement ++
      (line.margin.after.getD [] ++ '\n' :: rest)))
  obtain ⟨tail, bracket⟩ : ∃ tail, opening line.isElement ++ d :: behind = '[' :: tail := by
    cases line.isElement with
    | false => exact ⟨_, rfl⟩
    | true => exact ⟨_, rfl⟩
  have opens := gap_of_is_gap _ ('[' :: tail) before (starts_token_cons _ _ rfl)
  refine ⟨pending ++ line.margin.before.getD (if isFirst then [] else ['\n']), '[', tail,
    ⟨parents, key, line.isElement,
      .around (pending ++ line.margin.before.getD (if isFirst then [] else ['\n'])) left⟩,
    more, ?_, ?_, isMore, names, name, rfl⟩
  · rw [Header.text_eq, shape, bracket, ← List.append_assoc]
    exact opens
  · rw [← bracket, Reader.statement_of_bracket _ _ d behind other, ← shape]
    exact whole

theorem Statement.statement_text (isFirst : Bool) (statement : Statement)
    (legible : statement.Legible) (within : statement.within = true) (pending rest : Text)
    (isGap : IsGap pending) :
    ∃ before c part same more,
      gap (pending ++ (statement.text isFirst ++ rest)) = some (before, c :: part) ∧
      Reader.statement before (c :: part) = some (same, more ++ rest) ∧ IsGap more ∧
      statement.Says same := by
  cases statement with
  | field line =>
    obtain ⟨before, c, part, same, more, opens, read, isMore, alike⟩ :=
      line.statement_text legible within pending rest isGap
    exact ⟨before, c, part, .field same, more, opens, read, isMore, .field alike⟩
  | header line =>
    obtain ⟨before, c, part, same, more, opens, read, isMore, alike⟩ :=
      line.statement_text isFirst legible (by simpa [Statement.within] using within) pending rest isGap
    exact ⟨before, c, part, .header same, more, opens, read, isMore, .header alike⟩

def Statement.printFrom (isFirst : Bool) : List Statement → Text
  | [] => []
  | first :: rest => first.text isFirst ++ printFrom false rest

theorem Statement.print_all_eq (list : List Statement) : printAll list = printFrom true list := by
  have later : ∀ list : List Statement, list.flatMap (text false) = printFrom false list := by
    intro list
    induction list with
    | nil => rfl
    | cons first rest ih => rw [List.flatMap_cons, ih, printFrom]
  cases list with
  | nil => rfl
  | cons first rest => rw [printAll, later, printFrom]

theorem Statement.length_le_print_from (isFirst : Bool) (list : List Statement) :
    list.length ≤ (printFrom isFirst list).length := by
  induction list generalizing isFirst with
  | nil => exact Nat.le_refl 0
  | cons statement list ih =>
    have own : 1 ≤ (statement.text isFirst).length := by
      cases statement with
      | field line =>
        simp only [text, Field.text, List.length_append, List.length_cons, List.length_nil]
        omega
      | header line =>
        simp only [text, Header.text, List.length_append, List.length_cons, List.length_nil]
        omega
    have rest := ih false
    simp only [printFrom, List.length_cons, List.length_append]
    omega

theorem statements_text (trailing : Text) (isTail : IsTail trailing) (list : List Statement)
    (legible : ∀ statement ∈ list, statement.Legible)
    (within : ∀ statement ∈ list, statement.within = true) (isFirst : Bool) (pending : Text)
    (bound : Nat) (isGap : IsGap pending) (enough : list.length < bound) :
    ∃ same, List.Forall₂ Statement.Says list same ∧ ∃ behind, Reader.statements bound
      (pending ++ (Statement.printFrom isFirst list ++ trailing)) = some (same, behind) := by
  induction list generalizing isFirst pending bound with
  | nil =>
    obtain ⟨bound, rfl⟩ : ∃ less, bound = less + 1 := ⟨bound - 1, by omega⟩
    refine ⟨[], .nil, pending ++ trailing, ?_⟩
    have opens := gap_of_is_tail _ (isGap.append_is_tail isTail)
    rw [Statement.printFrom, List.nil_append, Reader.statements, opens]
    rfl
  | cons statement list ih =>
    obtain ⟨bound, rfl⟩ : ∃ less, bound = less + 1 := ⟨bound - 1, by omega⟩
    obtain ⟨before, c, part, same, more, opens, read, isMore, alike⟩ :=
      statement.statement_text isFirst (legible _ List.mem_cons_self) (within _ List.mem_cons_self)
        pending (Statement.printFrom false list ++ trailing) isGap
    obtain ⟨others, alikeRest, behind, readRest⟩ := ih
      (fun other member => legible other (List.mem_cons_of_mem _ member))
      (fun other member => within other (List.mem_cons_of_mem _ member)) false more bound isMore
      (by simpa using enough)
    refine ⟨same :: others, .cons alike alikeRest, behind, ?_⟩
    rw [Statement.printFrom, List.append_assoc, Reader.statements, opens]
    simp only [Option.bind_eq_bind, Option.bind_some, read, readRest]
    rfl

def Text.HasMark (text : Text) : Prop := text.head? = some '\uFEFF'

namespace Reader

theorem starts_of_statement (before : Text) (c : Char) (part : Text) (result : Statement × Text)
    (read : statement before (c :: part) = some result) : StartsStatement c := by
  by_cases bracket : c = '['
  · exact .inl bracket
  · refine .inr ?_
    rw [statement_of_key before _ c part rfl bracket] at read
    obtain ⟨⟨parents, key, rest⟩, readPath, -⟩ := Option.bind_eq_some_iff.mp read
    obtain ⟨result, keys, -⟩ := Option.bind_eq_some_iff.mp readPath
    obtain ⟨⟨key, rest⟩, single, -⟩ := Option.bind_eq_some_iff.mp keys
    rw [simpleKey] at single
    by_contra other
    simp only [not_or] at other
    simp [other] at single

end Reader

theorem Text.unmarked_of_gap (text before part : Text) (c : Char)
    (opens : gap text = some (before, c :: part)) (starts : StartsStatement c) : ¬ text.HasMark := by
  intro mark
  cases text with
  | nil => cases mark
  | cons d text =>
    cases Option.some.inj mark
    have plain := gap_from_of_starts_token ('\uFEFF' :: text) (starts_token_cons _ _ (by decide))
    rw [gap, plain] at opens
    cases opens
    exact absurd starts (by decide)

theorem Text.unmarked_of_is_tail (text : Text) (isTail : IsTail text) : ¬ text.HasMark := by
  intro mark
  cases text with
  | nil => cases mark
  | cons c text =>
    cases Option.some.inj mark
    exact absurd isTail (by simp [IsTail, gapEnd, isBlank])

theorem Statement.unmarked_print_from (trailing : Text) (isTail : IsTail trailing) (isFirst : Bool)
    (list : List Statement) (begins : ∀ statement ∈ list, ∀ rest, ∃ before c part,
      gap (statement.text isFirst ++ rest) = some (before, c :: part) ∧ StartsStatement c) :
    ¬ (printFrom isFirst list ++ trailing).HasMark := by
  cases list with
  | nil => exact unmarked_of_is_tail trailing isTail
  | cons first rest =>
    obtain ⟨before, c, part, opens, starts⟩ := begins first List.mem_cons_self
      (printFrom false rest ++ trailing)
    rw [printFrom, List.append_assoc]
    exact unmarked_of_gap _ before part c opens starts

namespace Document

theorem of_text?_eq (source : Text) (unmarked : ¬ source.HasMark) : ofText? source =
    (Reader.statements (source.length + 1) source).bind fun (list, trailing) =>
      (Entries.ofStatements? list).map fun root => ⟨root, trailing⟩ := by
  have plain : ¬ (source.head? == some '\uFEFF') = true := fun mark => unmarked (beq_iff_eq.mp mark)
  rw [ofText?, if_neg plain]
  dsimp only
  cases Reader.statements (source.length + 1) source with
  | none => rfl
  | some result =>
    simp only [Option.bind_eq_bind, Option.bind_some]
    cases Entries.ofStatements? result.1 <;> rfl

theorem text_eq (document : Document) :
    document.text = Statement.printFrom true document.root.statements ++ document.trailing := by
  rw [text, Statement.print_all_eq]

theorem reads_statements (document : Document) (isTail : IsTail document.trailing)
    (legible : ∀ statement ∈ document.root.statements, statement.Legible)
    (within : document.within = true) :
    ∃ same, List.Forall₂ Statement.Says document.root.statements same ∧ ∃ behind,
      ofText? document.text = (Entries.ofStatements? same).map fun root => ⟨root, behind⟩ := by
  have all : ∀ statement ∈ document.root.statements, statement.within = true :=
    List.all_eq_true.mp within
  have unmarked : ¬ document.text.HasMark := by
    rw [text_eq]
    refine Statement.unmarked_print_from _ isTail true _ fun statement member rest => ?_
    obtain ⟨before, c, part, same, more, opens, read, -, -⟩ :=
      statement.statement_text true (legible _ member) (all _ member) [] rest rfl
    exact ⟨before, c, part, opens, Reader.starts_of_statement before c part _ read⟩
  have count := Statement.length_le_print_from true document.root.statements
  obtain ⟨same, alike, behind, read⟩ := statements_text document.trailing isTail _ legible all true []
    (document.text.length + 1) rfl (by
      rw [text_eq, List.length_append]
      omega)
  refine ⟨same, alike, behind, ?_⟩
  rw [List.nil_append, ← text_eq] at read
  rw [of_text?_eq _ unmarked, read]
  rfl

end Document

end Reroot
