import Mathlib.Data.List.TakeWhile
import Reroot.Text.Space

set_option autoImplicit false

namespace Reroot.Text

-- Whether a comment is still open behind a text of blanks, line ends and comments; nothing if the
-- text holds anything else.
def gapEnd (inComment : Bool) : Text → Option Bool
  | [] => some inComment
  | c :: rest =>
    if c = '\n' then gapEnd false rest
    else if inComment then if isPrintable c then gapEnd true rest else none
    else if isBlank c then gapEnd false rest
    else if c = '#' then gapEnd true rest
    else none

def IsGap (text : Text) : Prop := gapEnd false text = some false

def IsTail (text : Text) : Prop := (gapEnd false text).isSome = true

def IsBlanks (text : Text) : Prop := text.all isBlank = true

instance (text : Text) : Decidable (IsGap text) := inferInstanceAs (Decidable (_ = _))
instance (text : Text) : Decidable (IsTail text) := inferInstanceAs (Decidable (_ = _))
instance (text : Text) : Decidable (IsBlanks text) := inferInstanceAs (Decidable (_ = _))

def isTokenStart (c : Char) : Bool := !isBlank c && c != '#' && c != '\n' && c != '\r'

def StartsToken (text : Text) : Prop := ∀ c, text.head? = some c → isTokenStart c = true

theorem starts_token_cons (c : Char) (rest : Text) (start : isTokenStart c = true) :
    StartsToken (c :: rest) := by
  intro other found
  exact Option.some.inj found ▸ start

theorem is_blank_cases {c : Char} (blank : isBlank c = true) : c = ' ' ∨ c = '\t' := by
  rw [isBlank, Bool.or_eq_true] at blank
  simpa using blank

theorem is_printable_of_is_blank {c : Char} (blank : isBlank c = true) : isPrintable c = true := by
  rcases is_blank_cases blank with rfl | rfl <;> decide

theorem ne_newline_of_is_printable {c : Char} (printable : isPrintable c = true) : c ≠ '\n' := by
  rintro rfl
  exact absurd printable (by decide)

theorem gap_end_append (inComment : Bool) (first second : Text) :
    gapEnd inComment (first ++ second) = (gapEnd inComment first).bind (gapEnd · second) := by
  induction first generalizing inComment with
  | nil => rfl
  | cons c rest ih =>
    simp only [List.cons_append, gapEnd, ih]
    split
    · rfl
    · split
      · split <;> rfl
      · split
        · rfl
        · split <;> rfl

theorem is_gap_nil : IsGap [] := rfl

theorem IsGap.append {first second : Text} (gap : IsGap first) (more : IsGap second) :
    IsGap (first ++ second) := by
  rw [IsGap, gap_end_append, gap]
  exact more

theorem IsGap.append_is_tail {first second : Text} (gap : IsGap first) (tail : IsTail second) :
    IsTail (first ++ second) := by
  rw [IsTail, gap_end_append, gap]
  exact tail

theorem IsGap.is_tail {text : Text} (gap : IsGap text) : IsTail text := by
  rw [IsTail, gap]
  rfl

theorem IsTail.append_newline {text : Text} (tail : IsTail text) : IsGap (text ++ ['\n']) := by
  obtain ⟨state, ends⟩ := Option.isSome_iff_exists.mp tail
  rw [IsGap, gap_end_append, ends]
  rfl

theorem gap_end_of_is_blanks (text : Text) (blanks : IsBlanks text) : gapEnd false text = some false := by
  induction text with
  | nil => rfl
  | cons c rest ih =>
    have both : isBlank c = true ∧ IsBlanks rest := by simpa [IsBlanks] using blanks
    have other := ne_newline_of_is_printable (is_printable_of_is_blank both.1)
    rw [gapEnd, if_neg other, if_neg Bool.false_ne_true, if_pos both.1, ih both.2]

theorem IsBlanks.is_gap {text : Text} (blanks : IsBlanks text) : IsGap text :=
  gap_end_of_is_blanks text blanks

theorem IsGap.split_blanks {text : Text} (gap : IsGap text) :
    ∃ space more, text = space ++ more ∧ IsBlanks space ∧ IsGap more ∧
      ∀ c, more.head? = some c → c = '\n' ∨ c = '#' := by
  induction text with
  | nil => exact ⟨[], [], rfl, rfl, rfl, by simp⟩
  | cons c text ih =>
    by_cases blank : isBlank c = true
    · have onward : IsGap text := by
        have other := ne_newline_of_is_printable (is_printable_of_is_blank blank)
        rwa [IsGap, gapEnd, if_neg other, if_neg Bool.false_ne_true, if_pos blank] at gap
      obtain ⟨space, more, same, blanks, isGap, head⟩ := ih onward
      refine ⟨c :: space, more, by rw [same]; rfl, ?_, isGap, head⟩
      simpa [IsBlanks, blank] using blanks
    · refine ⟨[], c :: text, rfl, rfl, gap, fun d found => ?_⟩
      cases found
      by_contra other
      simp only [not_or] at other
      simp [IsGap, gapEnd, other, blank] at gap

theorem gap_from_append (inComment ends : Bool) (text rest : Text)
    (reaches : gapEnd inComment text = some ends) :
    gapFrom inComment (text ++ rest) =
      (gapFrom ends rest).map fun (gap, after) => (text ++ gap, after) := by
  induction text generalizing inComment with
  | nil =>
    rw [← Option.some.inj reaches]
    exact Option.map_id'.symm
  | cons c text ih =>
    rw [gapEnd] at reaches
    rw [List.cons_append]
    by_cases newline : c = '\n'
    · subst newline
      rw [if_pos rfl] at reaches
      rw [gapFrom, ih false reaches, Option.map_map]
      rfl
    · rw [if_neg newline] at reaches
      -- A carriage return is no gap text, so the scanner looks at one character here.
      have single : c ≠ '\r' := by
        rintro rfl
        cases inComment <;> simp [isPrintable, isBlank] at reaches
      rw [gapFrom]
      · cases inComment with
        | true =>
          rw [if_pos rfl] at reaches ⊢
          split at reaches
          · case isTrue printable =>
            rw [if_pos printable, ih true reaches, Option.map_map]
            rfl
          · cases reaches
        | false =>
          rw [if_neg Bool.false_ne_true] at reaches ⊢
          split at reaches
          · case isTrue blank =>
            rw [if_pos blank, ih false reaches, Option.map_map]
            rfl
          · case isFalse solid =>
            split at reaches
            · case isTrue mark =>
              rw [if_neg solid, if_pos (by simpa using mark), ih true reaches, Option.map_map]
              rfl
            · cases reaches
      · exact fun same => newline same
      · intro _ same
        exact absurd same single

theorem gap_from_comment (line rest taken behind : Text) (straight : '\n' ∉ line)
    (read : gapFrom true (line ++ '\n' :: rest) = some (taken, behind)) :
    ∃ other, gapFrom false rest = some (other, behind) := by
  induction line generalizing taken with
  | nil =>
    obtain ⟨⟨other, after⟩, inner, same⟩ := Option.map_eq_some_iff.mp read
    cases same
    exact ⟨other, inner⟩
  | cons c line ih =>
    have differs : c ≠ '\n' := fun same => straight (same ▸ List.mem_cons_self)
    have onward : '\n' ∉ line := fun member => straight (List.mem_cons_of_mem _ member)
    rw [List.cons_append] at read
    by_cases final : c = '\r' ∧ line = []
    · obtain ⟨rfl, rfl⟩ := final
      obtain ⟨⟨other, after⟩, inner, same⟩ := Option.map_eq_some_iff.mp read
      cases same
      exact ⟨other, inner⟩
    · rw [gapFrom] at read
      · rw [if_pos rfl] at read
        split at read
        · obtain ⟨⟨other, after⟩, inner, same⟩ := Option.map_eq_some_iff.mp read
          cases same
          exact ih other onward inner
        · cases read
      · exact differs
      · intro more same ahead
        cases line with
        | nil => exact final ⟨same, rfl⟩
        | cons d line =>
          cases ahead
          exact onward List.mem_cons_self

theorem gap_of_open (before line rest taken behind : Text) (opened : gapEnd false before = some true)
    (straight : '\n' ∉ line) (read : gap (before ++ (line ++ '\n' :: rest)) = some (taken, behind)) :
    ∃ other, gap rest = some (other, behind) := by
  rw [gap, gap_from_append false true before _ opened] at read
  obtain ⟨⟨other, after⟩, inner, same⟩ := Option.map_eq_some_iff.mp read
  cases same
  exact gap_from_comment line rest other behind straight inner

theorem gap_from_of_starts_token (rest : Text) (starts : StartsToken rest) :
    gapFrom false rest = some ([], rest) := by
  cases rest with
  | nil => rfl
  | cons c rest =>
    have start : ((isBlank c = false ∧ c ≠ '#') ∧ c ≠ '\n') ∧ c ≠ '\r' := by
      simpa [isTokenStart] using starts c rfl
    obtain ⟨⟨⟨solid, mark⟩, newline⟩, single⟩ := start
    rw [gapFrom, if_neg Bool.false_ne_true, if_neg (by simp [solid]), if_neg (by simpa using mark)]
    · exact newline
    · intro _ same
      exact absurd same single

theorem gap_of_is_gap (text rest : Text) (isGap : IsGap text) (starts : StartsToken rest) :
    gap (text ++ rest) = some (text, rest) := by
  rw [gap, gap_from_append false false text rest isGap, gap_from_of_starts_token rest starts]
  simp

theorem gap_of_is_tail (text : Text) (isTail : IsTail text) : gap text = some (text, []) := by
  obtain ⟨ends, reaches⟩ := Option.isSome_iff_exists.mp isTail
  have whole := gap_from_append false ends text [] reaches
  rw [List.append_nil] at whole
  rw [gap, whole, gapFrom]
  simp

theorem gap_end_of_gap_from (inComment : Bool) (source text rest : Text)
    (read : gapFrom inComment source = some (text, rest)) :
    ∃ ends, gapEnd inComment text = some ends ∧ (rest ≠ [] → ends = false) := by
  fun_induction gapFrom inComment source generalizing text with
  | case1 inComment =>
    cases read
    exact ⟨inComment, rfl, fun h => absurd rfl h⟩
  | case2 inComment source ih | case3 inComment source ih =>
    obtain ⟨⟨gap, after⟩, inner, same⟩ := Option.map_eq_some_iff.mp read
    cases same
    obtain ⟨ends, reaches, closed⟩ := ih gap inner
    exact ⟨ends, by rw [gapEnd, if_pos rfl, reaches], closed⟩
  | case4 c source newline _ printable ih =>
    obtain ⟨⟨gap, after⟩, inner, same⟩ := Option.map_eq_some_iff.mp read
    cases same
    obtain ⟨ends, reaches, closed⟩ := ih gap inner
    exact ⟨ends, by rw [gapEnd, if_neg newline, if_pos rfl, if_pos printable, reaches], closed⟩
  | case5 => cases read
  | case6 inComment c source newline _ open' blank ih =>
    obtain ⟨⟨gap, after⟩, inner, same⟩ := Option.map_eq_some_iff.mp read
    cases same
    obtain ⟨ends, reaches, closed⟩ := ih gap inner
    exact ⟨ends, by rw [gapEnd, if_neg newline, if_neg open', if_pos blank, reaches], closed⟩
  | case7 inComment c source newline _ open' solid mark ih =>
    obtain ⟨⟨gap, after⟩, inner, same⟩ := Option.map_eq_some_iff.mp read
    cases same
    obtain ⟨ends, reaches, closed⟩ := ih gap inner
    have hash : c = '#' := by simpa using mark
    exact ⟨ends, by rw [gapEnd, if_neg newline, if_neg open', if_neg solid, if_pos hash, reaches],
      closed⟩
  | case8 inComment c source _ _ open' =>
    cases read
    exact ⟨inComment, rfl, fun _ => by simpa using open'⟩

theorem is_gap_of_gap (source text rest : Text) (read : gap source = some (text, rest))
    (more : rest ≠ []) : IsGap text := by
  obtain ⟨ends, reaches, closed⟩ := gap_end_of_gap_from false source text rest read
  rw [IsGap, reaches, closed more]

theorem is_tail_of_gap (source text rest : Text) (read : gap source = some (text, rest)) :
    IsTail text := by
  obtain ⟨ends, reaches, -⟩ := gap_end_of_gap_from false source text rest read
  rw [IsTail, reaches]
  rfl

theorem blanks_of_is_blanks (text rest : Text) (isBlanks : IsBlanks text)
    (solid : ∀ c, rest.head? = some c → isBlank c = false) : blanks (text ++ rest) = (text, rest) := by
  have all : ∀ c ∈ text, isBlank c = true := List.all_eq_true.mp isBlanks
  rw [blanks, List.takeWhile_append_of_pos all, List.dropWhile_append_of_pos all]
  cases rest with
  | nil => simp
  | cons c rest => simp [solid c rfl]

theorem is_blanks_blanks (source : Text) : IsBlanks (blanks source).1 := by
  rw [IsBlanks, blanks, List.all_eq_true]
  exact fun c member => List.mem_takeWhile_imp member

def IsComment (text : Text) : Prop :=
  text = [] ∨ ∃ rest, text = '#' :: rest ∧ ∀ c ∈ rest, isPrintable c = true

theorem gap_end_of_printable (text : Text) (printable : ∀ c ∈ text, isPrintable c = true) :
    gapEnd true text = some true := by
  induction text with
  | nil => rfl
  | cons c text ih =>
    have first := printable c List.mem_cons_self
    rw [gapEnd, if_neg (ne_newline_of_is_printable first), if_pos rfl, if_pos first]
    exact ih fun d member => printable d (List.mem_cons_of_mem _ member)

theorem printable_of_gap_end (text : Text) (straight : '\n' ∉ text)
    (ends : (gapEnd true text).isSome = true) : ∀ c ∈ text, isPrintable c = true := by
  induction text with
  | nil => simp
  | cons c text ih =>
    have other : c ≠ '\n' := fun same => straight (same ▸ List.mem_cons_self)
    rw [gapEnd, if_neg other, if_pos rfl] at ends
    split at ends
    · case isTrue printable =>
      have rest := ih (fun member => straight (List.mem_cons_of_mem _ member)) ends
      simpa [printable] using rest
    · cases ends

theorem IsComment.is_tail {text : Text} (comment : IsComment text) : IsTail text := by
  obtain rfl | ⟨rest, rfl, printable⟩ := comment
  · rfl
  · have opens : gapEnd false ('#' :: rest) = gapEnd true rest := rfl
    rw [IsTail, opens, gap_end_of_printable rest printable]
    rfl

theorem IsTail.split_comment {text : Text} (tail : IsTail text) (straight : '\n' ∉ text) :
    ∃ space comment, text = space ++ comment ∧ IsBlanks space ∧ IsComment comment := by
  induction text with
  | nil => exact ⟨[], [], rfl, rfl, .inl rfl⟩
  | cons c text ih =>
    have other : c ≠ '\n' := fun same => straight (same ▸ List.mem_cons_self)
    have onward : '\n' ∉ text := fun member => straight (List.mem_cons_of_mem _ member)
    rw [IsTail, gapEnd, if_neg other, if_neg Bool.false_ne_true] at tail
    split at tail
    · case isTrue blank =>
      obtain ⟨space, comment, same, blanks, isComment⟩ := ih tail onward
      refine ⟨c :: space, comment, by rw [same]; rfl, ?_, isComment⟩
      simpa [IsBlanks, blank] using blanks
    · split at tail
      · case isTrue hash =>
        exact ⟨[], c :: text, rfl, rfl,
          .inr ⟨text, by rw [hash], printable_of_gap_end text onward tail⟩⟩
      · cases tail

theorem rest_of_line_of_parts (space comment rest : Text) (blank : IsBlanks space)
    (isComment : IsComment comment) :
    restOfLine (space ++ (comment ++ '\n' :: rest)) = some (space ++ comment, rest) := by
  obtain rfl | ⟨text, rfl, printable⟩ := isComment
  · have parts := blanks_of_is_blanks space ('\n' :: rest) blank fun c found => by
      cases found
      rfl
    simp [restOfLine, parts, lineEnd]
  · have parts := blanks_of_is_blanks space ('#' :: (text ++ '\n' :: rest)) blank fun c found => by
      cases found
      rfl
    have all : ∀ c ∈ '#' :: text, isPrintable c = true := by
      simpa [show isPrintable '#' = true by decide] using printable
    have stops : isPrintable '\n' = false := by decide
    have taken : ('#' :: (text ++ '\n' :: rest)).takeWhile isPrintable = '#' :: text := by
      rw [← List.cons_append, List.takeWhile_append_of_pos all]
      simp [stops]
    have left : ('#' :: (text ++ '\n' :: rest)).dropWhile isPrintable = '\n' :: rest := by
      rw [← List.cons_append, List.dropWhile_append_of_pos all]
      simp [stops]
    rw [List.cons_append, restOfLine, parts]
    simp only [List.head?_cons, if_true, taken, left, lineEnd, Option.map_some]

theorem rest_of_line_of_straight (text rest : Text) (isTail : IsTail text) (straight : '\n' ∉ text) :
    restOfLine (text ++ '\n' :: rest) = some (text, rest) := by
  obtain ⟨space, comment, same, blank, isComment⟩ := isTail.split_comment straight
  rw [same, List.append_assoc]
  exact rest_of_line_of_parts space comment rest blank isComment

theorem IsTail.split_line {text : Text} (isTail : IsTail text) :
    ∃ line more, (∀ rest, text ++ '\n' :: rest = line ++ '\n' :: (more ++ rest)) ∧ '\n' ∉ line ∧
      IsTail line ∧ IsGap more := by
  by_cases straight : '\n' ∈ text
  · obtain ⟨line, more, rfl, first⟩ := List.eq_append_cons_of_mem straight
    obtain ⟨ends, reaches⟩ := Option.isSome_iff_exists.mp isTail
    rw [gap_end_append] at reaches
    obtain ⟨middle, begins, onward⟩ := Option.bind_eq_some_iff.mp reaches
    rw [gapEnd, if_pos rfl] at onward
    have lineTail : IsTail line := by rw [IsTail, begins]; rfl
    have moreTail : IsTail more := by rw [IsTail, onward]; rfl
    exact ⟨line, more ++ ['\n'], fun rest => by simp, first, lineTail, moreTail.append_newline⟩
  · exact ⟨text, [], fun _ => rfl, straight, isTail, is_gap_nil⟩

theorem rest_of_line_of_is_tail (text : Text) (isTail : IsTail text) :
    ∃ line more, IsGap more ∧
      ∀ rest, restOfLine (text ++ '\n' :: rest) = some (line, more ++ rest) := by
  obtain ⟨line, more, same, straight, lineTail, isGap⟩ := isTail.split_line
  refine ⟨line, more, isGap, fun rest => ?_⟩
  rw [same rest]
  exact rest_of_line_of_straight line (more ++ rest) lineTail straight

theorem is_tail_of_rest_of_line (source text rest : Text)
    (read : restOfLine source = some (text, rest)) : IsTail text := by
  have space := (is_blanks_blanks source).is_gap
  have comment : ∀ after : Text, IsComment (if after.head? = some '#' then
      (after.takeWhile isPrintable, after.dropWhile isPrintable) else ([], after)).1 := by
    intro after
    split
    · case isTrue mark =>
      cases after with
      | nil => cases mark
      | cons c after =>
        cases Option.some.inj mark
        rw [List.takeWhile_cons, if_pos (by decide)]
        exact .inr ⟨_, rfl, fun d member => List.mem_takeWhile_imp member⟩
    · exact .inl rfl
  rw [restOfLine] at read
  dsimp only at read
  split at read
  · rw [← (Prod.mk.inj (Option.some.inj read)).1]
    exact space.append_is_tail (comment _).is_tail
  · obtain ⟨after, -, same⟩ := Option.map_eq_some_iff.mp read
    rw [← (Prod.mk.inj same).1]
    exact space.append_is_tail (comment _).is_tail

end Reroot.Text
