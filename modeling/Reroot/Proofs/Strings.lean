import Reroot.Proofs.Tokens

set_option autoImplicit false

namespace Reroot

open Text

namespace Text.Spelling

def Closes (quote : Char) (text : Text) : Prop := ∃ rest, text = quote :: quote :: rest

theorem not_closes_of_head (quote : Char) (text : Text) (other : text.head? ≠ some quote) :
    ¬ Closes quote text := by
  rintro ⟨rest, rfl⟩
  exact other rfl

theorem basic_lines_escaped (c : Char) (notQuote : c ≠ '"') (rest : Text) :
    Quoted.basicLines false (escaped true c ++ rest) =
      Quoted.put (some c) (Quoted.basicLines false rest) := by
  have shape := escaped_escaped true c
  generalize escaped true c = text at shape ⊢
  cases shape with
  | printable shown slash =>
    exact Quoted.basic_lines_step false c rest rfl shown slash fun _ quote => absurd quote notQuote
  | newline _ same =>
    subst same
    simp [Quoted.basicLines]
  | @short letter pair =>
    have all : ∀ pair ∈ shorts, ∀ rest, Quoted.basicLines false ('\\' :: pair.1 :: rest) =
        Quoted.put (some pair.2) (Quoted.basicLines false rest) := by
      simp only [shorts, List.forall_mem_cons, List.not_mem_nil]
      refine ⟨fun _ => rfl, fun _ => rfl, fun _ => rfl, fun _ => rfl, fun _ => rfl, fun _ => rfl, ?_⟩
      simp
    exact all _ pair rest
  | numbered control =>
    simp only [List.cons_append, List.nil_append, Quoted.basicLines, numbered_hex_char c control]

theorem escape_from_cons (free : Nat) (c : Char) (text : Text) (notQuote : c ≠ '"') :
    escapeFrom true free (c :: text) = escaped true c ++ escapeFrom true 2 text := by
  rw [escapeFrom]
  · rfl
  · exact notQuote

theorem head_escaped (c : Char) (notQuote : c ≠ '"') (rest : Text) :
    (escaped true c ++ rest).head? ≠ some '"' := by
  have shape := escaped_escaped true c
  generalize escaped true c = text at shape ⊢
  cases shape with
  | printable => exact fun same => notQuote (Option.some.inj same)
  | newline | short | numbered => exact fun same => by cases same

theorem not_closes_zero (c : Char) (text rest : Text) :
    (escapeFrom true 0 (c :: text) ++ rest).head? ≠ some '"' := by
  by_cases quote : c = '"'
  · rw [quote]
    exact fun same => by cases same
  · rw [escape_from_cons 0 c text quote, List.append_assoc]
    exact head_escaped c quote _

theorem not_closes_one (c : Char) (text rest : Text) (goesOn : c = '"' → text ≠ []) :
    ¬ Closes '"' (escapeFrom true 1 (c :: text) ++ rest) := by
  rintro ⟨tail, ahead⟩
  by_cases quote : c = '"'
  · subst quote
    cases text with
    | nil => exact goesOn rfl rfl
    | cons d text =>
      have head := not_closes_zero d text rest
      have inner : escapeFrom true 0 (d :: text) ++ rest = '"' :: tail := (List.cons.inj ahead).2
      rw [inner] at head
      exact head rfl
  · rw [escape_from_cons 1 c text quote, List.append_assoc] at ahead
    have head := head_escaped c quote (escapeFrom true 2 text ++ rest)
    rw [ahead] at head
    exact head rfl

-- The quotes that are left unescaped do not close the string too early: at most two of them stand
-- in a row, and those at the end count as part of the string.
theorem basic_lines_escape_from (text rest : Text) (ends : Quoted.Parts '"' rest) (free : Nat)
    (few : free ≤ 2) : Quoted.basicLines false (escapeFrom true free text ++ '"' :: '"' :: '"' :: rest) =
      some (text, rest) := by
  induction text generalizing free with
  | nil => exact (Quoted.basic_lines_end false rest ends).1
  | cons c text ih =>
    by_cases quote : c = '"'
    · subst quote
      obtain rfl | rfl | rfl : free = 0 ∨ free = 1 ∨ free = 2 := by omega
      · have shape : escapeFrom true 0 ('"' :: text) = '\\' :: '"' :: escapeFrom true 2 text := rfl
        rw [shape]
        simp [Quoted.basicLines, ih 2 le_rfl, Quoted.breaksLine, lineEnd, isBlank, Quoted.shortEscape,
          Quoted.put]
      · have shape : escapeFrom true 1 ('"' :: text) = '"' :: escapeFrom true 0 text := rfl
        rw [shape, List.cons_append]
        cases text with
        | nil => exact (Quoted.basic_lines_end false rest ends).2
        | cons d text =>
          have goesOn := not_closes_of_head '"' _ (not_closes_zero d text ('"' :: '"' :: '"' :: rest))
          rw [Quoted.basic_lines_step false '"' _ rfl (by decide) (by decide)
            fun tail _ ahead => goesOn ⟨tail, ahead⟩, ih 0 (Nat.zero_le 2)]
          rfl
      · have shape : escapeFrom true 2 ('"' :: text) = '"' :: escapeFrom true 1 text := rfl
        rw [shape, List.cons_append]
        cases text with
        | nil => exact (Quoted.basic_lines_end false rest ends).2
        | cons d text =>
          by_cases last : d = '"' ∧ text = []
          · obtain ⟨rfl, rfl⟩ := last
            rfl
          · have goesOn := not_closes_one d text ('"' :: '"' :: '"' :: rest)
              fun same none => last ⟨same, none⟩
            rw [Quoted.basic_lines_step false '"' _ rfl (by decide) (by decide)
              fun tail _ ahead => goesOn ⟨tail, ahead⟩, ih 1 (by decide)]
            rfl
    · rw [escape_from_cons free c text quote, List.append_assoc, basic_lines_escaped c quote, ih 2 le_rfl]
      rfl

theorem plain_lines_of_holds (text rest : Text) (ends : Quoted.Parts '\'' rest)
    (holds : Form.plainLines.holds text = true) :
    Quoted.plainLines (text ++ '\'' :: '\'' :: '\'' :: rest) = some (text, rest) := by
  induction text with
  | nil => exact (Quoted.plain_lines_end rest ends).1
  | cons c text ih =>
    have parts : ((isPrintable c = true ∨ c = '\n') ∧ ∀ d ∈ text, isPrintable d = true ∨ d = '\n') ∧
        hasTriple '\'' (c :: text) = false := by
      simpa [Form.holds, Form.spansLines] using holds
    have fewer : hasTriple '\'' text = false := by
      have all := parts.2
      rcases text with _ | ⟨d, _ | ⟨e, text⟩⟩
      · rfl
      · rfl
      · exact (Bool.or_eq_false_iff.mp all).2
    have inner := ih (by simpa [Form.holds, Form.spansLines] using ⟨parts.1.2, fewer⟩)
    rcases parts.1.1 with printable | rfl
    · by_cases quote : c = '\''
      · subst quote
        cases text with
        | nil => exact (Quoted.plain_lines_end rest ends).2
        | cons d text =>
          by_cases last : d = '\'' ∧ text = []
          · obtain ⟨rfl, rfl⟩ := last
            rfl
          · have goesOn : ¬ Closes '\'' (d :: text ++ '\'' :: '\'' :: '\'' :: rest) := by
              rintro ⟨tail, ahead⟩
              obtain ⟨rfl, behind⟩ := List.cons.inj ahead
              cases text with
              | nil => exact last ⟨rfl, rfl⟩
              | cons e text =>
                obtain ⟨rfl, -⟩ := List.cons.inj behind
                cases parts.2
            rw [List.cons_append, Quoted.plain_lines_step _ _ printable
              fun tail _ ahead => goesOn ⟨tail, ahead⟩, inner]
            rfl
      · rw [List.cons_append, Quoted.plain_lines_step c _ printable
          fun _ same => absurd same quote, inner]
        rfl
    · rw [List.cons_append, Quoted.plainLines, inner]
      rfl

theorem skip_line_end_body (text body : Text) (start : ∀ c, body.head? = some c → c = '\n' → '\n' ∈ text)
    (carriage : body.head? ≠ some '\r') :
    Quoted.skipLineEnd ((if text.contains '\n' then ['\n'] else []) ++ body) = body := by
  split
  · rfl
  · case isFalse none =>
    cases body with
    | nil => rfl
    | cons c body =>
      have newline : c ≠ '\n' := fun same => none (by simpa using start c rfl same)
      have other : c ≠ '\r' := fun same => carriage (by rw [same]; rfl)
      simp [Quoted.skipLineEnd, lineEnd, newline, other]

theorem head_basic_lines (text rest : Text) (c : Char)
    (head : (escapeFrom true 2 text ++ '"' :: rest).head? = some c) :
    (c = '\n' → '\n' ∈ text) ∧ c ≠ '\r' := by
  cases text with
  | nil =>
    cases head
    exact ⟨fun same => absurd same (by decide), by decide⟩
  | cons d text =>
    by_cases quote : d = '"'
    · subst quote
      cases head
      exact ⟨fun same => absurd same (by decide), by decide⟩
    · rw [escape_from_cons 2 d text quote] at head
      have shape := escaped_escaped true d
      generalize escaped true d = first at shape head
      cases shape with
      | printable shown =>
        cases head
        refine ⟨fun same => same ▸ List.mem_cons_self, ?_⟩
        rintro rfl
        exact absurd shown (by decide)
      | newline _ same =>
        cases head
        exact ⟨fun _ => same ▸ List.mem_cons_self, by decide⟩
      | short | numbered =>
        cases head
        exact ⟨fun same => absurd same (by decide), by decide⟩

theorem string_write (form : Form) (text rest : Text)
    (holds : form.escapes = true ∨ form.holds text = true) (ends : Quoted.Ends rest) :
    Quoted.string (form.write text ++ rest) = some (text, rest) := by
  cases form with
  | basic => exact Quoted.string_of_one_line (one_line_write .basic text rest rfl holds ends)
  | plain => exact Quoted.string_of_one_line (one_line_write .plain text rest rfl holds ends)
  | basicLines =>
    have shape : Form.basicLines.write text ++ rest = '"' :: '"' :: '"' ::
        ((if text.contains '\n' then ['\n'] else []) ++
          (escapeFrom true 2 text ++ '"' :: '"' :: '"' :: rest)) := by
      simp [Form.write, Form.quotes, Form.body, Form.escapes, Form.spansLines]
    have head := head_basic_lines text ('"' :: '"' :: rest)
    rw [shape, Quoted.string, skip_line_end_body text _ (fun c found => (head c found).1)
      fun found => (head _ found).2 rfl]
    exact basic_lines_escape_from text rest ends.1 2 le_rfl
  | plainLines =>
    have holds := holds.resolve_left (by decide)
    have shape : Form.plainLines.write text ++ rest = '\'' :: '\'' :: '\'' ::
        ((if text.contains '\n' then ['\n'] else []) ++ (text ++ '\'' :: '\'' :: '\'' :: rest)) := by
      simp [Form.write, Form.quotes, Form.body, Form.escapes, Form.spansLines]
    have printable : ∀ c ∈ text, isPrintable c = true ∨ c = '\n' := by
      have parts : (∀ c ∈ text, isPrintable c = true ∨ c = '\n') ∧ hasTriple '\'' text = false := by
        simpa [Form.holds, Form.spansLines] using holds
      exact parts.1
    have head : ∀ c, (text ++ '\'' :: '\'' :: '\'' :: rest).head? = some c →
        (c = '\n' → '\n' ∈ text) ∧ c ≠ '\r' := by
      intro c found
      cases text with
      | nil =>
        cases found
        exact ⟨fun same => absurd same (by decide), by decide⟩
      | cons d text =>
        cases found
        refine ⟨fun same => same ▸ List.mem_cons_self, ?_⟩
        rintro rfl
        exact absurd (printable _ List.mem_cons_self) (by decide)
    rw [shape, Quoted.string, skip_line_end_body text _ (fun c found => (head c found).1)
      fun found => (head _ found).2 rfl]
    exact plain_lines_of_holds text rest ends.2 holds

theorem form_of (text : Text) : (Form.of text).escapes = true ∨ (Form.of text).holds text = true := by
  unfold Form.of
  split
  · exact .inl rfl
  · split
    · case isTrue holds => exact .inr holds
    · split
      · exact .inl rfl
      · split
        · case isTrue holds => exact .inr holds
        · split
          · exact .inl rfl
          · exact .inl rfl

end Text.Spelling

theorem Scalar.scalar_string (value : String) (rest : Text) (ends : Quoted.Ends rest) :
    Reader.scalar ((Scalar.string value none).text ++ rest) =
      some (.scalar .unset (.string value (some (Scalar.string value none).text)), rest) := by
  have read := Spelling.string_write (Spelling.Form.of value.toList) value.toList rest
    (Spelling.form_of value.toList) ends
  have text : (Scalar.string value none).text = (Spelling.Form.of value.toList).write value.toList := rfl
  rw [Reader.scalar, text, read]
  dsimp only
  rw [up_to_append, String.ofList_toList]

theorem Scalar.reads_string (value : String) : (Scalar.string value none).Reads := by
  intro rest ends
  exact ⟨.string value (some (Scalar.string value none).text), rfl,
    Scalar.scalar_string value rest ends.ends⟩

end Reroot
