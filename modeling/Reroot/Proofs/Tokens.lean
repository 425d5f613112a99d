import Reroot.Document.Data
import Reroot.Document.Reader
import Reroot.Text.Closing
import Reroot.Text.Gap

set_option autoImplicit false

namespace Reroot

namespace Text

def EndsKey (rest : Text) : Prop :=
  ∀ c, rest.head? = some c → Spelling.isBare c = false ∧ c ≠ '"' ∧ c ≠ '\''

-- A text that no scalar runs on into. A date runs on into a time of day over one blank.
def EndsScalar (rest : Text) : Prop :=
  (∀ c, rest.head? = some c → Reader.isAtom c = false ∧ c ≠ '"' ∧ c ≠ '\'') ∧
    ∀ c tail, rest = ' ' :: c :: tail → c.isDigit = false

theorem EndsKey.ends {rest : Text} (ends : EndsKey rest) : Quoted.Ends rest :=
  ⟨fun found => (ends _ found).2.1 rfl, fun found => (ends _ found).2.2 rfl⟩

theorem EndsScalar.ends {rest : Text} (ends : EndsScalar rest) : Quoted.Ends rest :=
  ⟨fun found => (ends.1 _ found).2.1 rfl, fun found => (ends.1 _ found).2.2 rfl⟩

theorem take_while_of_head (p : Char → Bool) (text rest : Text) (all : ∀ c ∈ text, p c = true)
    (stops : ∀ c, rest.head? = some c → p c = false) :
    (text ++ rest).takeWhile p = text ∧ (text ++ rest).dropWhile p = rest := by
  rw [List.takeWhile_append_of_pos all, List.dropWhile_append_of_pos all]
  cases rest with
  | nil => simp
  | cons c rest => simp [stops c rfl]

end Text

open Text

namespace Text.Spelling

theorem numbered_hex_char (c : Char) (control : ¬ isPrintable c = true) :
    Quoted.numbered ['0', '0', hexChar (c.toNat / 16), hexChar (c.toNat % 16)] = some c := by
  have small : c.toNat < 0x20 ∨ c.toNat = 0x7F := by
    by_contra large
    refine control ?_
    simp only [not_or, Nat.not_lt] at large
    simp [isPrintable, large]
  have all : ∀ n < 0x80, n < 0x20 ∨ n = 0x7F →
      Quoted.numbered ['0', '0', hexChar (n / 16), hexChar (n % 16)] = some (Char.ofNat n) := by
    decide
  rw [all c.toNat (by omega) small, Char.ofNat_toNat]

def shorts : List (Char × Char) :=
  [('b', '\x08'), ('t', '\t'), ('n', '\n'), ('f', '\x0C'), ('r', '\r'), ('\\', '\\')]

inductive Escaped (spansLines : Bool) (c : Char) : Text → Prop where
  | printable (shown : isPrintable c = true) (slash : c ≠ '\\') : Escaped spansLines c [c]
  | newline (spans : spansLines = true) (same : c = '\n') : Escaped spansLines c ['\n']
  | short {letter : Char} (pair : (letter, c) ∈ shorts) : Escaped spansLines c ['\\', letter]
  | numbered (control : ¬ isPrintable c = true) : Escaped spansLines c
      ['\\', 'u', '0', '0', hexChar (c.toNat / 16), hexChar (c.toNat % 16)]

theorem escaped_escaped (spansLines : Bool) (c : Char) :
    Escaped spansLines c (escaped spansLines c) := by
  unfold escaped
  split
  · exact .short (by decide)
  · exact .short (by decide)
  · cases spansLines
    · exact .short (by decide)
    · exact .newline rfl rfl
  · exact .short (by decide)
  · exact .short (by decide)
  · exact .short (by decide)
  · next slash =>
    split
    · next shown => exact .printable shown slash
    · next control => exact .numbered control

theorem basic_escaped (c : Char) (notQuote : c ≠ '"') (rest : Text) :
    Quoted.basic (escaped false c ++ rest) = Quoted.put (some c) (Quoted.basic rest) := by
  have shape := escaped_escaped false c
  generalize escaped false c = text at shape ⊢
  cases shape with
  | printable shown slash => simp [Quoted.basic, shown, slash]
  | newline spans => cases spans
  | @short letter pair =>
    have all : ∀ pair ∈ shorts, ∀ rest,
        Quoted.basic ('\\' :: pair.1 :: rest) = Quoted.put (some pair.2) (Quoted.basic rest) := by
      simp [shorts, Quoted.basic, Quoted.shortEscape]
    exact all _ pair rest
  | numbered control =>
    simp only [List.cons_append, List.nil_append, Quoted.basic, numbered_hex_char c control]

theorem basic_escape_from (name rest : Text) :
    Quoted.basic (escapeFrom false 0 name ++ '"' :: rest) = some (name, rest) := by
  induction name with
  | nil => rfl
  | cons c name ih =>
    by_cases quote : c = '"'
    · subst quote
      have shape : escapeFrom false 0 ('"' :: name) = '\\' :: '"' :: escapeFrom false 0 name := rfl
      rw [shape]
      simp [Quoted.basic, ih, Quoted.shortEscape, Quoted.put]
    · have shape : escapeFrom false 0 (c :: name) = escaped false c ++ escapeFrom false 0 name := by
        rw [escapeFrom]
        · rfl
        · exact quote
      rw [shape, List.append_assoc, basic_escaped c quote, ih]
      rfl

theorem plain_of_holds (name rest : Text) (holds : Form.plain.holds name = true) :
    Quoted.plain (name ++ '\'' :: rest) = some (name, rest) := by
  induction name with
  | nil => rfl
  | cons c name ih =>
    have parts : (isPrintable c = true ∧ ∀ d ∈ name, isPrintable d = true) ∧
        '\'' ≠ c ∧ '\'' ∉ name := by
      simpa [Form.holds, Form.spansLines, not_or] using holds
    have inner : Form.plain.holds name = true := by
      simpa [Form.holds, Form.spansLines] using ⟨parts.1.2, parts.2.2⟩
    simp [Quoted.plain, parts.1.1, parts.2.1.symm, ih inner, Quoted.put]

theorem one_line_write (form : Form) (name rest : Text) (single : form.spansLines = false)
    (holds : form.escapes = true ∨ form.holds name = true) (ends : Quoted.Ends rest) :
    Quoted.oneLine (form.write name ++ rest) = some (name, rest) := by
  cases form with
  | basicLines => cases single
  | plainLines => cases single
  | basic =>
    have body := basic_escape_from name rest
    have shape : Form.basic.write name ++ rest = '"' :: (escapeFrom false 0 name ++ '"' :: rest) := by
      simp [Form.write, Form.quotes, Form.body, Form.escapes, Form.spansLines]
    rw [shape, Quoted.oneLine]
    · exact body
    · intro tail ahead
      rw [ahead] at body
      cases body
      exact ends.1 rfl
  | plain =>
    have body := plain_of_holds name rest (holds.resolve_left (by decide))
    have shape : Form.plain.write name ++ rest = '\'' :: (name ++ '\'' :: rest) := by
      simp [Form.write, Form.quotes, Form.body, Form.escapes, Form.spansLines]
    rw [shape, Quoted.oneLine]
    · exact body
    · intro tail ahead
      rw [ahead] at body
      cases body
      exact ends.2 rfl

theorem key_cases (name : Text) :
    (key name = name ∧ name ≠ [] ∧ ∀ c ∈ name, isBare c = true) ∨
      ∃ form : Form, key name = form.write name ∧ form.spansLines = false ∧
        (form.escapes = true ∨ form.holds name = true) := by
  unfold key
  split
  · case isTrue bare =>
    have parts : name ≠ [] ∧ ∀ c ∈ name, isBare c = true := by simpa using bare
    exact .inl ⟨rfl, parts⟩
  · split
    · exact .inr ⟨.basic, rfl, rfl, .inl rfl⟩
    · split
      · case isTrue holds => exact .inr ⟨.plain, rfl, rfl, .inr holds⟩
      · exact .inr ⟨.basic, rfl, rfl, .inl rfl⟩

end Text.Spelling

namespace Key

def Reads (key : Key) : Prop :=
  ∀ rest, EndsKey rest →
    Reader.simpleKey (key.text ++ rest) = some (⟨key.name, some key.text, .unset, .unset⟩, rest)

theorem simple_key_of_bare (name rest : Text) (some' : name ≠ [])
    (bare : ∀ c ∈ name, Spelling.isBare c = true) (ends : EndsKey rest) :
    Reader.simpleKey (name ++ rest) =
      some (⟨String.ofList name, some name, .unset, .unset⟩, rest) := by
  obtain ⟨taken, left⟩ := take_while_of_head Spelling.isBare name rest bare
    fun c found => (ends c found).1
  cases name with
  | nil => exact absurd rfl some'
  | cons c name =>
    have first := bare c List.mem_cons_self
    have notQuote : ¬ (c == '"' || c == '\'') = true := by
      intro quote
      rcases (by simpa using quote : c = '"' ∨ c = '\'') with rfl | rfl
      · exact absurd first (by decide)
      · exact absurd first (by decide)
    rw [List.cons_append] at taken left ⊢
    rw [Reader.simpleKey, if_neg notQuote]
    simp only [taken, left, List.isEmpty_cons, Bool.false_eq_true, if_false]

theorem simple_key_of_quoted (quote : Char) (isQuote : quote = '"' ∨ quote = '\'')
    (taken name rest : Text) (read : Quoted.oneLine (quote :: taken ++ rest) = some (name, rest)) :
    Reader.simpleKey (quote :: taken ++ rest) =
      some (⟨String.ofList name, some (quote :: taken), .unset, .unset⟩, rest) := by
  have opens : (quote == '"' || quote == '\'') = true := by simpa using isQuote
  have cut := up_to_append (quote :: taken) rest
  rw [List.cons_append] at read cut ⊢
  rw [Reader.simpleKey, if_pos opens, read, Option.map_some]
  simp only [cut]

theorem reads_of_simple_key (source : Text) (key : Key) (rest : Text)
    (read : Reader.simpleKey source = some (key, rest)) :
    key.Reads ∧ key.outer = .unset ∧ key.inner = .unset := by
  cases source with
  | nil => cases read
  | cons c source =>
    rw [Reader.simpleKey] at read
    split at read
    · obtain ⟨⟨name, after⟩, inner, same⟩ := Option.map_eq_some_iff.mp read
      obtain ⟨quote, taken, isQuote, source_eq, closes⟩ := Quoted.one_line_closes _ _ _ inner
      rw [source_eq] at same
      dsimp only at same
      rw [up_to_append] at same
      cases same
      exact ⟨fun other ends => simple_key_of_quoted quote isQuote taken name other
        (closes other ends.ends), rfl, rfl⟩
    · dsimp only at read
      split at read
      · cases read
      · case isFalse.isFalse some' =>
        cases read
        refine ⟨fun other ends => ?_, rfl, rfl⟩
        exact simple_key_of_bare _ other (fun empty => some' (List.isEmpty_iff.mpr empty))
          (fun d member => List.mem_takeWhile_imp member) ends

theorem reads_fresh (name : String) : (fresh name).Reads := by
  intro rest ends
  have text : (fresh name).text = Spelling.key name.toList := rfl
  rw [text]
  obtain ⟨same, some', bare⟩ | ⟨form, same, single, holds⟩ := Spelling.key_cases name.toList
  · rw [same, simple_key_of_bare _ rest some' bare ends, String.ofList_toList]
    rfl
  · have read := Spelling.one_line_write form name.toList rest single holds ends.ends
    have shape : ∃ quote taken, (quote = '"' ∨ quote = '\'') ∧
        form.write name.toList = quote :: taken := by
      cases form with
      | basic => exact ⟨'"', _, .inl rfl, rfl⟩
      | plain => exact ⟨'\'', _, .inr rfl, rfl⟩
      | basicLines => cases single
      | plainLines => cases single
    obtain ⟨quote, taken, isQuote, shape⟩ := shape
    rw [shape] at read
    rw [same, shape, simple_key_of_quoted quote isQuote taken name.toList rest read,
      String.ofList_toList]
    rfl

theorem is_token_start_of_head {c : Char} (kind : c = '"' ∨ c = '\'' ∨ Spelling.isBare c = true) :
    isTokenStart c = true := by
  rcases kind with rfl | rfl | bare
  · rfl
  · rfl
  · by_contra other
    have cases' : isBlank c = true ∨ c = '#' ∨ c = '\n' ∨ c = '\r' := by
      simpa [isTokenStart, or_iff_not_imp_left] using other
    rcases cases' with blank | rfl | rfl | rfl
    · rcases is_blank_cases blank with rfl | rfl <;> exact absurd bare (by decide)
    · exact absurd bare (by decide)
    · exact absurd bare (by decide)
    · exact absurd bare (by decide)

theorem Reads.exists_head {key : Key} (reads : key.Reads) :
    ∃ c tail, key.text = c :: tail ∧ (c = '"' ∨ c = '\'' ∨ Spelling.isBare c = true) := by
  have read := reads [] (fun c found => by cases found)
  rw [List.append_nil] at read
  cases text : key.text with
  | nil =>
    rw [text] at read
    cases read
  | cons c tail =>
    refine ⟨c, tail, rfl, ?_⟩
    rw [text, Reader.simpleKey] at read
    split at read
    · case isTrue quote => exact (by simpa using quote : c = '"' ∨ c = '\'').imp_right .inl
    · dsimp only at read
      split at read
      · cases read
      · case isFalse.isFalse some' =>
        by_cases bare : Spelling.isBare c = true
        · exact .inr (.inr bare)
        · simp [bare] at some'

end Key

namespace Scalar

def Reads (scalar : Scalar) : Prop :=
  ∀ rest, EndsScalar rest → ∃ same : Scalar, same.data = scalar.data ∧
    Reader.scalar (scalar.text ++ rest) = some (.scalar .unset same, rest)

theorem of_atom_nil : Reader.ofAtom [] = none := by decide

def IsAtomText (text : Text) : Prop :=
  (∀ c ∈ text, Reader.isAtom c = true) ∨
    ∃ date c time, text = date ++ ' ' :: c :: time ∧ Moment.isDate date = true ∧
      c.isDigit = true ∧ (∀ d ∈ date, Reader.isAtom d = true) ∧
      ∀ d ∈ c :: time, Reader.isAtom d = true

theorem atom_cases (source : Text) :
    Reader.atom source = (source.takeWhile Reader.isAtom, source.dropWhile Reader.isAtom) ∨
      ∃ c tail, source.dropWhile Reader.isAtom = ' ' :: c :: tail ∧
        Moment.isDate (source.takeWhile Reader.isAtom) = true ∧ c.isDigit = true ∧
        Reader.atom source =
          (source.takeWhile Reader.isAtom ++ ' ' :: (c :: tail).takeWhile Reader.isAtom,
            (c :: tail).dropWhile Reader.isAtom) := by
  rcases left : source.dropWhile Reader.isAtom with _ | ⟨space, _ | ⟨c, tail⟩⟩
  · exact .inl (by simp [Reader.atom, left])
  · exact .inl (by simp [Reader.atom, left])
  by_cases joins : space = ' ' ∧ Moment.isDate (source.takeWhile Reader.isAtom) = true ∧ c.isDigit = true
  · obtain ⟨rfl, isDate, digit⟩ := joins
    exact .inr ⟨c, tail, rfl, isDate, digit, by simp [Reader.atom, left, isDate, digit]⟩
  · refine .inl ?_
    by_cases blank : space = ' '
    · subst blank
      have stays : (Moment.isDate (source.takeWhile Reader.isAtom) && c.isDigit) = false := by
        simpa using joins
      simp [Reader.atom, left, stays]
    · simp [Reader.atom, left, blank]

theorem atom_of_is_atom_text (text rest : Text) (isText : IsAtomText text) (ends : EndsScalar rest) :
    Reader.atom (text ++ rest) = (text, rest) := by
  obtain all | ⟨date, c, time, rfl, isDate, digit, allDate, allTime⟩ := isText
  · obtain ⟨taken, left⟩ := take_while_of_head Reader.isAtom text rest all
      fun c found => (ends.1 c found).1
    rcases atom_cases (text ++ rest) with whole | ⟨c, tail, behind, -, digit, -⟩
    · rw [whole, taken, left]
    · rw [left] at behind
      rw [ends.2 c tail behind] at digit
      cases digit
  · obtain ⟨taken, left⟩ := take_while_of_head Reader.isAtom date (' ' :: c :: (time ++ rest)) allDate
      fun d found => by cases found; decide
    obtain ⟨takenTime, leftTime⟩ := take_while_of_head Reader.isAtom (c :: time) rest allTime
      fun d found => (ends.1 d found).1
    have shape : date ++ ' ' :: c :: time ++ rest = date ++ ' ' :: c :: (time ++ rest) := by simp
    rw [List.cons_append] at takenTime leftTime
    simp only [Reader.atom, shape, taken, left, isDate, digit, takenTime, leftTime, Bool.and_self,
      if_true]

theorem atom_append (source : Text) : (Reader.atom source).1 ++ (Reader.atom source).2 = source := by
  have parts := List.takeWhile_append_dropWhile (p := Reader.isAtom) (l := source)
  rcases atom_cases source with whole | ⟨c, tail, left, -, -, whole⟩ <;> rw [whole]
  · exact parts
  · rw [left] at parts
    rw [List.append_assoc, List.cons_append, List.takeWhile_append_dropWhile]
    exact parts

theorem is_atom_text_atom (source : Text) : IsAtomText (Reader.atom source).1 := by
  have all : ∀ text : Text, ∀ c ∈ text.takeWhile Reader.isAtom, Reader.isAtom c = true :=
    fun text c member => List.mem_takeWhile_imp member
  rcases atom_cases source with whole | ⟨c, tail, -, isDate, digit, whole⟩ <;> rw [whole]
  · exact .inl (all source)
  · have first : Reader.isAtom c = true := by simp [Reader.isAtom, Char.isAlphanum, digit]
    have rest := all (c :: tail)
    rw [List.takeWhile_cons, if_pos first] at rest
    refine .inr ⟨_, c, tail.takeWhile Reader.isAtom, ?_, isDate, digit, all source, rest⟩
    rw [List.takeWhile_cons, if_pos first]

theorem text_of_atom (atom : Text) (scalar : Scalar) (read : Reader.ofAtom atom = some scalar) :
    scalar.text = atom := by
  unfold Reader.ofAtom at read
  split at read
  · case isTrue same =>
    cases read
    exact (by simpa using same : atom = "true".toList).symm
  · split at read
    · case isTrue same =>
      cases read
      exact (by simpa using same : atom = "false".toList).symm
    · split at read
      · cases read
        rfl
      · split at read
        · cases read
          rfl
        · split at read
          · cases read
            rfl
          · cases read

theorem head_of_is_atom_text (text : Text) (isText : IsAtomText text) (some' : text ≠ []) :
    ∃ c tail, text = c :: tail ∧ Reader.isAtom c = true := by
  obtain all | ⟨date, c, time, rfl, isDate, -, allDate, -⟩ := isText
  · cases text with
    | nil => exact absurd rfl some'
    | cons c tail => exact ⟨c, tail, rfl, all c List.mem_cons_self⟩
  · cases date with
    | nil => exact absurd isDate (by decide)
    | cons d date => exact ⟨d, _, rfl, allDate d List.mem_cons_self⟩

theorem string_of_atom (c : Char) (rest : Text) (isAtom : Reader.isAtom c = true) :
    Quoted.string (c :: rest) = none := by
  have double : c ≠ '"' := by rintro rfl; exact absurd isAtom (by decide)
  have single : c ≠ '\'' := by rintro rfl; exact absurd isAtom (by decide)
  simp [Quoted.string, double, single]

theorem reads_of_scalar (source rest : Text) (node : Node)
    (read : Reader.scalar source = some (node, rest)) :
    ∃ value : Scalar, node = .scalar .unset value ∧ value.Reads := by
  unfold Reader.scalar at read
  cases inner : Quoted.string source with
  | some taken =>
    obtain ⟨text, after⟩ := taken
    obtain ⟨quote, taken, -, same, closes⟩ := Quoted.string_closes _ _ _ inner
    rw [inner] at read
    dsimp only at read
    rw [same, up_to_append] at read
    cases read
    refine ⟨_, rfl, fun other ends => ⟨_, rfl, ?_⟩⟩
    have read := closes other ends.ends
    have spelled : (Scalar.string (String.ofList text) (some (quote :: taken))).text =
        quote :: taken := rfl
    rw [Reader.scalar, spelled, read]
    dsimp only
    rw [up_to_append]
  | none =>
    rw [inner] at read
    dsimp only at read
    obtain ⟨value, inner, same⟩ := Option.map_eq_some_iff.mp read
    cases same
    have isText := is_atom_text_atom source
    refine ⟨value, rfl, fun other ends => ⟨value, rfl, ?_⟩⟩
    have some' : (Reader.atom source).1 ≠ [] := by
      intro empty
      rw [empty, of_atom_nil] at inner
      cases inner
    obtain ⟨c, tail, begins, first⟩ := head_of_is_atom_text _ isText some'
    have noString := string_of_atom c (tail ++ other) first
    rw [← List.cons_append, ← begins] at noString
    rw [text_of_atom _ value inner, Reader.scalar, noString]
    dsimp only
    rw [atom_of_is_atom_text _ other isText ends, inner]
    rfl

theorem Reads.exists_head {scalar : Scalar} (reads : scalar.Reads) :
    ∃ c tail, scalar.text = c :: tail ∧ (c = '"' ∨ c = '\'' ∨ Reader.isAtom c = true) := by
  obtain ⟨same, -, read⟩ := reads [] ⟨by simp, by simp⟩
  rw [List.append_nil] at read
  unfold Reader.scalar at read
  cases inner : Quoted.string scalar.text with
  | some taken =>
    obtain ⟨quote, taken, isQuote, same, -⟩ := Quoted.string_closes _ _ _ inner
    exact ⟨quote, _, same, isQuote.imp_right .inl⟩
  | none =>
    rw [inner] at read
    dsimp only at read
    obtain ⟨value, inner, -⟩ := Option.map_eq_some_iff.mp read
    have some' : (Reader.atom scalar.text).1 ≠ [] := by
      intro empty
      rw [empty, of_atom_nil] at inner
      cases inner
    obtain ⟨c, tail, begins, first⟩ := head_of_is_atom_text _ (is_atom_text_atom _) some'
    have whole := atom_append scalar.text
    rw [begins] at whole
    exact ⟨c, _, whole.symm, .inr (.inr first)⟩

end Scalar

end Reroot
