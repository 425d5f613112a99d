import Reroot.Text.Quoted

set_option autoImplicit false

namespace Reroot.Text.Quoted

def Parts (quote : Char) (rest : Text) : Prop := rest.head? ≠ some quote

theorem of_put_eq_some {c : Option Char} {read : Option (Text × Text)} {value rest : Text}
    (h : put c read = some (value, rest)) :
    ∃ first tail, c = some first ∧ read = some (tail, rest) ∧ value = first :: tail := by
  unfold put at h
  split at h
  · cases h
    exact ⟨_, _, rfl, rfl, rfl⟩
  · cases h

-- A scan that reads up to closing quotes, and reads the same value whatever may come behind them.
def ReadsUpTo (quotes : Text) (follows : Text → Prop) (scan : Scan Text) (source value rest : Text) :
    Prop :=
  ∃ body, source = body ++ (quotes ++ rest) ∧
    ∀ other, follows other → scan (body ++ (quotes ++ other)) = some (value, other)

section ReadsUpTo

variable {quotes source value rest : Text} {follows : Text → Prop} {scan inner : Scan Text}

theorem ReadsUpTo.skip (front : Text) (later : ReadsUpTo quotes follows inner source value rest)
    (step : ∀ body other, source = body ++ (quotes ++ rest) →
      scan (front ++ (body ++ (quotes ++ other))) = inner (body ++ (quotes ++ other))) :
    ReadsUpTo quotes follows scan (front ++ source) value rest := by
  obtain ⟨body, same, reads⟩ := later
  refine ⟨front ++ body, by rw [same, List.append_assoc], fun other ends => ?_⟩
  rw [List.append_assoc, step body other same, reads other ends]

theorem ReadsUpTo.put (front : Text) {c : Option Char}
    (later : ∀ tail, inner source = some (tail, rest) →
      ReadsUpTo quotes follows inner source tail rest)
    (read : Quoted.put c (inner source) = some (value, rest))
    (step : ∀ body other, source = body ++ (quotes ++ rest) →
      scan (front ++ (body ++ (quotes ++ other))) =
        Quoted.put c (inner (body ++ (quotes ++ other)))) :
    ReadsUpTo quotes follows scan (front ++ source) value rest := by
  obtain ⟨first, tail, rfl, behind, rfl⟩ := of_put_eq_some read
  obtain ⟨body, same, reads⟩ := later tail behind
  refine ⟨front ++ body, by rw [same, List.append_assoc], fun other ends => ?_⟩
  rw [List.append_assoc, step body other same, reads other ends]
  rfl

theorem ReadsUpTo.put_two (front : Text) {c d : Option Char}
    (later : ∀ tail, inner source = some (tail, rest) →
      ReadsUpTo quotes follows inner source tail rest)
    (read : Quoted.put c (Quoted.put d (inner source)) = some (value, rest))
    (step : ∀ body other, source = body ++ (quotes ++ rest) →
      scan (front ++ (body ++ (quotes ++ other))) =
        Quoted.put c (Quoted.put d (inner (body ++ (quotes ++ other))))) :
    ReadsUpTo quotes follows scan (front ++ source) value rest := by
  obtain ⟨first, tail, rfl, behind, rfl⟩ := of_put_eq_some read
  obtain ⟨second, tail, rfl, deeper, rfl⟩ := of_put_eq_some behind
  obtain ⟨body, same, reads⟩ := later tail deeper
  refine ⟨front ++ body, by rw [same, List.append_assoc], fun other ends => ?_⟩
  rw [List.append_assoc, step body other same, reads other ends]
  rfl

end ReadsUpTo

theorem basic_closes (source value rest : Text) (read : basic source = some (value, rest)) :
    ReadsUpTo ['"'] (fun _ => True) basic source value rest := by
  fun_induction basic source generalizing value with
  | case1 => cases read
  | case2 source =>
    cases read
    exact ⟨[], rfl, fun other _ => rfl⟩
  | case3 a b source ih => exact .put ['\\', 'x', a, b] ih read fun _ _ _ => rfl
  | case4 a b c d source ih => exact .put ['\\', 'u', a, b, c, d] ih read fun _ _ _ => rfl
  | case5 a b c d e f g h source ih =>
    exact .put ['\\', 'U', a, b, c, d, e, f, g, h] ih read fun _ _ _ => rfl
  | case6 c source notX notU notLong ih =>
    refine .put ['\\', c] ih read fun body other _ => ?_
    -- A letter that begins an escape by number is no short escape.
    have short : c ≠ 'x' ∧ c ≠ 'u' ∧ c ≠ 'U' := by
      obtain ⟨first, tail, escape, -⟩ := of_put_eq_some read
      refine ⟨?_, ?_, ?_⟩ <;> rintro rfl <;> cases escape
    simp [basic, short]
  | case7 c source _ _ _ _ notEscape printable ih =>
    refine .put [c] ih read fun body other same => ?_
    have slash : c ≠ '\\' := by
      intro slash
      cases body with
      | nil => exact notEscape _ _ slash same
      | cons d body => exact notEscape _ _ slash same
    simp [basic, slash, printable]
  | case8 => cases read

theorem plain_closes (source value rest : Text) (read : plain source = some (value, rest)) :
    ReadsUpTo ['\''] (fun _ => True) plain source value rest := by
  fun_induction plain source generalizing value with
  | case1 => cases read
  | case2 source =>
    cases read
    exact ⟨[], rfl, fun other _ => rfl⟩
  | case3 c source notQuote printable ih =>
    refine .put [c] ih read fun body other _ => ?_
    simp [plain, printable]
  | case4 => cases read

theorem ahead_of_quotes (quote : Char) (body rest other tail : Text) (a b : Char)
    (same : body ++ quote :: quote :: quote :: other = a :: b :: tail) :
    ∃ tail, body ++ quote :: quote :: quote :: rest = a :: b :: tail := by
  match body with
  | [] =>
    cases same
    exact ⟨_, rfl⟩
  | [c] =>
    cases same
    exact ⟨_, rfl⟩
  | c :: d :: body =>
    cases same
    exact ⟨_, rfl⟩

theorem plain_lines_step (c : Char) (rest : Text) (printable : isPrintable c = true)
    (inside : ∀ tail, c = '\'' → rest = '\'' :: '\'' :: tail → False) :
    plainLines (c :: rest) = put (some c) (plainLines rest) := by
  have solid : c ≠ '\n' ∧ c ≠ '\r' := by
    refine ⟨?_, ?_⟩ <;> rintro rfl <;> exact absurd printable (by decide)
  rw [plainLines, if_pos printable]
  · exact fun tail quote ahead => inside _ quote ahead
  · exact fun tail quote ahead => inside _ quote ahead
  · exact inside
  · exact solid.1
  · exact fun _ same => absurd same solid.2

theorem plain_lines_end (rest : Text) (ends : Parts '\'' rest) :
    plainLines ('\'' :: '\'' :: '\'' :: rest) = some ([], rest) ∧
      plainLines ('\'' :: '\'' :: '\'' :: '\'' :: rest) = some (['\''], rest) := by
  cases rest with
  | nil => exact ⟨rfl, rfl⟩
  | cons c rest =>
    have other : c ≠ '\'' := fun same => ends (by rw [same]; rfl)
    exact ⟨by simp [plainLines, other], by simp [plainLines, other]⟩

theorem plain_lines_closes (source value rest : Text) (read : plainLines source = some (value, rest)) :
    ReadsUpTo ['\'', '\'', '\''] (Parts '\'') plainLines source value rest := by
  fun_induction plainLines source generalizing value with
  | case1 => cases read
  | case2 source =>
    cases read
    exact ⟨['\'', '\''], rfl, fun other _ => rfl⟩
  | case3 source notFive =>
    cases read
    exact ⟨['\''], rfl, fun other parts => (plain_lines_end other parts).2⟩
  | case4 source notFour notFive =>
    cases read
    exact ⟨[], rfl, fun other parts => (plain_lines_end other parts).1⟩
  | case5 source ih => exact .put ['\n'] ih read fun _ _ _ => rfl
  | case6 source ih => exact .put_two ['\r', '\n'] ih read fun _ _ _ => rfl
  | case7 c source notFive notFour notThree newline notReturn printable ih =>
    refine .put [c] ih read fun body other same => plain_lines_step c _ printable ?_
    intro tail quote ahead
    obtain ⟨tail, ahead⟩ := ahead_of_quotes '\'' body rest other tail _ _ ahead
    exact notThree tail quote (same.trans ahead)
  | case8 source => cases read

theorem basic_lines_step (joining : Bool) (c : Char) (rest : Text) (kept : (joining && isBlank c) = false)
    (printable : isPrintable c = true) (slash : c ≠ '\\')
    (inside : ∀ tail, c = '"' → rest = '"' :: '"' :: tail → False) :
    basicLines joining (c :: rest) = put (some c) (basicLines false rest) := by
  have solid : c ≠ '\n' ∧ c ≠ '\r' := by
    refine ⟨?_, ?_⟩ <;> rintro rfl <;> exact absurd printable (by decide)
  rw [basicLines, kept, if_neg Bool.false_ne_true, if_pos printable]
  · exact fun tail quote ahead => inside _ quote ahead
  · exact fun tail quote ahead => inside _ quote ahead
  · exact inside
  · exact solid.1
  · exact fun _ same => absurd same solid.2
  · exact fun _ _ _ same => absurd same slash
  · exact fun _ _ _ _ _ same => absurd same slash
  · exact fun _ _ _ _ _ _ _ _ _ same => absurd same slash
  · exact fun _ _ same => absurd same slash

theorem basic_lines_slash (joining : Bool) (c : Char) (rest : Text)
    (short : c ≠ 'x' ∧ c ≠ 'u' ∧ c ≠ 'U') :
    basicLines joining ('\\' :: c :: rest) =
      if breaksLine (c :: rest) then
        if c == '\n' || isBlank c || c == '\r' then basicLines true rest else none
      else put (shortEscape c) (basicLines false rest) := by
  rw [basicLines]
  · exact fun _ _ _ same => absurd same short.1
  · exact fun _ _ _ _ _ same => absurd same short.2.1
  · exact fun _ _ _ _ _ _ _ _ _ same => absurd same short.2.2

theorem basic_lines_end (joining : Bool) (rest : Text) (ends : Parts '"' rest) :
    basicLines joining ('"' :: '"' :: '"' :: rest) = some ([], rest) ∧
      basicLines joining ('"' :: '"' :: '"' :: '"' :: rest) = some (['"'], rest) := by
  cases rest with
  | nil => exact ⟨rfl, rfl⟩
  | cons c rest =>
    have other : c ≠ '"' := fun same => ends (by rw [same]; rfl)
    exact ⟨by simp [basicLines, other], by simp [basicLines, other]⟩

theorem breaks_line_closes (body rest other : Text) :
    breaksLine (body ++ '"' :: rest) = breaksLine (body ++ '"' :: other) := by
  have quote : isBlank '"' = false := by decide
  induction body with
  | nil => simp [breaksLine, lineEnd, quote]
  | cons c body ih =>
    by_cases blank : isBlank c = true
    · simpa [breaksLine, blank] using ih
    · by_cases newline : c = '\n'
      · simp [breaksLine, lineEnd, newline, isBlank]
      · cases body with
        | nil =>
          by_cases return' : c = '\r'
          · simp [breaksLine, lineEnd, return', isBlank]
          · simp [breaksLine, lineEnd, blank, newline, return']
        | cons d body =>
          by_cases second : d = '\n'
          · by_cases return' : c = '\r'
            · simp [breaksLine, lineEnd, return', second, isBlank]
            · simp [breaksLine, lineEnd, blank, newline, return']
          · simp [breaksLine, lineEnd, blank, newline, second]

theorem basic_lines_closes (joining : Bool) (source value rest : Text)
    (read : basicLines joining source = some (value, rest)) :
    ReadsUpTo ['"', '"', '"'] (Parts '"') (basicLines joining) source value rest := by
  fun_induction basicLines joining source generalizing value with
  | case1 => cases read
  | case2 source =>
    cases read
    exact ⟨['"', '"'], rfl, fun other _ => rfl⟩
  | case3 joining source notFive =>
    cases read
    exact ⟨['"'], rfl, fun other parts => (basic_lines_end joining other parts).2⟩
  | case4 joining source notFour notFive =>
    cases read
    exact ⟨[], rfl, fun other parts => (basic_lines_end joining other parts).1⟩
  | case5 source ih => exact .skip ['\n'] (ih value read) fun _ _ _ => rfl
  | case6 joining source straight ih =>
    exact .put ['\n'] ih read fun _ _ _ => if_neg straight
  | case7 source ih => exact .skip ['\r', '\n'] (ih value read) fun _ _ _ => rfl
  | case8 joining source straight ih =>
    exact .put_two ['\r', '\n'] ih read fun _ _ _ => if_neg straight
  | case9 joining a b source ih => exact .put ['\\', 'x', a, b] ih read fun _ _ _ => rfl
  | case10 joining a b c d source ih =>
    exact .put ['\\', 'u', a, b, c, d] ih read fun _ _ _ => rfl
  | case11 joining a b c d e f g h source ih =>
    exact .put ['\\', 'U', a, b, c, d, e, f, g, h] ih read fun _ _ _ => rfl
  | case12 joining c source _ _ _ breaks space ih =>
    refine .skip ['\\', c] (ih value read) fun body other same => ?_
    have short : c ≠ 'x' ∧ c ≠ 'u' ∧ c ≠ 'U' := by
      refine ⟨?_, ?_, ?_⟩ <;> rintro rfl <;> exact absurd space (by decide)
    have ahead : breaksLine (c :: (body ++ (['"', '"', '"'] ++ other))) = true := by
      rw [← breaks, same]
      exact breaks_line_closes (c :: body) _ _
    rw [List.cons_append, List.cons_append, List.nil_append, basic_lines_slash joining c _ short,
      if_pos ahead, if_pos space]
  | case13 => cases read
  | case14 joining c source _ _ _ whole ih =>
    refine .put ['\\', c] ih read fun body other same => ?_
    have short : c ≠ 'x' ∧ c ≠ 'u' ∧ c ≠ 'U' := by
      obtain ⟨first, tail, escape, -⟩ := of_put_eq_some read
      refine ⟨?_, ?_, ?_⟩ <;> rintro rfl <;> cases escape
    have ahead : ¬ breaksLine (c :: (body ++ (['"', '"', '"'] ++ other))) = true := by
      rw [same] at whole
      exact fun breaks => whole ((breaks_line_closes (c :: body) _ _).trans breaks)
    rw [List.cons_append, List.cons_append, List.nil_append, basic_lines_slash joining c _ short,
      if_neg ahead]
  | case15 joining c source _ _ notThree newline _ _ _ _ notEscape space ih =>
    refine .skip [c] (ih value read) fun body other same => ?_
    have blank : isBlank c = true := (Bool.and_eq_true_iff.mp space).2
    have plain : c ≠ '"' ∧ c ≠ '\n' ∧ c ≠ '\r' ∧ c ≠ '\\' := by
      refine ⟨?_, ?_, ?_, ?_⟩ <;> rintro rfl <;> exact absurd blank (by decide)
    simp [basicLines, plain, space]
  | case16 joining c source _ _ notThree newline _ _ _ _ notEscape notSpace printable ih =>
    refine .put [c] ih read fun body other same =>
      basic_lines_step joining c _ (Bool.eq_false_iff.mpr notSpace) printable ?_ ?_
    · intro slash
      cases body with
      | nil => exact notEscape _ _ slash same
      | cons d body => exact notEscape _ _ slash same
    · intro tail quote ahead
      obtain ⟨tail, ahead⟩ := ahead_of_quotes '"' body rest other tail _ _ ahead
      exact notThree tail quote (same.trans ahead)
  | case17 => cases read

def Ends (rest : Text) : Prop := Parts '"' rest ∧ Parts '\'' rest

theorem not_three_quotes (quote : Char) (body rest other tail : Text) (parts : Parts quote other)
    (notThree : ∀ tail, body ++ quote :: rest = quote :: quote :: tail → False)
    (ahead : body ++ quote :: other = quote :: quote :: tail) : False := by
  match body with
  | [] =>
    refine parts ?_
    rw [List.nil_append, List.cons.injEq] at ahead
    rw [ahead.2]
    rfl
  | [c] =>
    cases ahead
    exact notThree rest rfl
  | c :: d :: body =>
    cases ahead
    exact notThree _ rfl

theorem skip_line_end_closes (quote : Char) (isQuote : quote = '"' ∨ quote = '\'')
    (source body rest : Text)
    (same : skipLineEnd source = body ++ quote :: quote :: quote :: rest) :
    ∃ front, source = front ++ quote :: quote :: quote :: rest ∧
      ∀ other, skipLineEnd (front ++ quote :: quote :: quote :: other) =
        body ++ quote :: quote :: quote :: other := by
  unfold skipLineEnd lineEnd at same
  split at same
  · cases same
    exact ⟨'\n' :: body, rfl, fun other => rfl⟩
  · cases same
    exact ⟨'\r' :: '\n' :: body, rfl, fun other => rfl⟩
  · next newline double =>
    refine ⟨body, same, fun other => ?_⟩
    rw [Option.getD_none] at same
    subst same
    have solid : quote ≠ '\n' ∧ quote ≠ '\r' := by
      obtain rfl | rfl := isQuote <;> decide
    have missing : lineEnd (body ++ quote :: quote :: quote :: other) = none := by
      cases body with
      | nil => simp [lineEnd, solid]
      | cons c body =>
        have first : c ≠ '\n' := fun same => newline _ (by rw [same]; rfl)
        cases body with
        | nil => simp [lineEnd, first, solid]
        | cons d body =>
          have second : c = '\r' → d ≠ '\n' := fun return' same =>
            double _ (by rw [return', same]; rfl)
          by_cases return' : c = '\r'
          · simp [lineEnd, return', second return']
          · simp [lineEnd, first, return']
    rw [skipLineEnd, missing, Option.getD_none]

section Whole

variable (whole : Scan Text) {quote : Char} {body : Scan Text} {source value rest : Text}

theorem single_closes (closes : ReadsUpTo [quote] (fun _ => True) body source value rest)
    (notThree : ∀ tail, source = quote :: quote :: tail → False)
    (behind : ∀ source, (∀ tail, source = quote :: quote :: tail → False) →
      whole (quote :: source) = body source) :
    ∃ taken, quote :: source = quote :: taken ++ rest ∧
      ∀ other, Parts quote other → whole (quote :: taken ++ other) = some (value, other) := by
  obtain ⟨front, rfl, reads⟩ := closes
  refine ⟨front ++ [quote], by simp, fun other parts => ?_⟩
  have shape : quote :: (front ++ [quote]) ++ other = quote :: (front ++ ([quote] ++ other)) := by simp
  have free tail := not_three_quotes quote front rest other tail parts notThree
  rw [shape]
  exact (behind _ free).trans (reads other trivial)

theorem triple_closes (isQuote : quote = '"' ∨ quote = '\'')
    (closes : ReadsUpTo [quote, quote, quote] (Parts quote) body (skipLineEnd source) value rest)
    (behind : ∀ source, whole (quote :: quote :: quote :: source) = body (skipLineEnd source)) :
    ∃ taken, quote :: quote :: quote :: source = quote :: taken ++ rest ∧
      ∀ other, Parts quote other → whole (quote :: taken ++ other) = some (value, other) := by
  obtain ⟨inner, skipped, reads⟩ := closes
  obtain ⟨front, rfl, skips⟩ := skip_line_end_closes quote isQuote source inner rest skipped
  refine ⟨quote :: quote :: front ++ [quote, quote, quote], by simp, fun other parts => ?_⟩
  have shape : quote :: (quote :: quote :: front ++ [quote, quote, quote]) ++ other =
      quote :: quote :: quote :: (front ++ quote :: quote :: quote :: other) := by simp
  rw [shape, behind, skips other]
  exact reads other parts

end Whole

theorem one_line_cases {source : Text} {result : Text × Text} (read : oneLine source = some result) :
    ∃ quote tail, source = quote :: tail ∧ (∀ rest, tail = quote :: quote :: rest → False) ∧
      (quote = '"' ∧ basic tail = some result ∨ quote = '\'' ∧ plain tail = some result) := by
  unfold oneLine at read
  split at read
  · cases read
  · cases read
  · next notThree => exact ⟨'"', _, rfl, notThree, .inl ⟨rfl, read⟩⟩
  · next notThree => exact ⟨'\'', _, rfl, notThree, .inr ⟨rfl, read⟩⟩
  · cases read

theorem one_line_of_basic {tail : Text} (free : ∀ rest, tail = '"' :: '"' :: rest → False) :
    oneLine ('"' :: tail) = basic tail := by
  rw [oneLine]
  exact free

theorem one_line_of_plain {tail : Text} (free : ∀ rest, tail = '\'' :: '\'' :: rest → False) :
    oneLine ('\'' :: tail) = plain tail := by
  rw [oneLine]
  exact free

theorem string_of_one_line {source : Text} {result : Text × Text}
    (read : oneLine source = some result) : string source = some result := by
  obtain ⟨quote, tail, rfl, free, ⟨rfl, body⟩ | ⟨rfl, body⟩⟩ := one_line_cases read
  · rw [string, body]
    exact free
  · rw [string, body]
    exact free

theorem string_cases {source : Text} {result : Text × Text} (read : string source = some result) :
    oneLine source = some result ∨
      (∃ tail, source = '"' :: '"' :: '"' :: tail ∧
        basicLines false (skipLineEnd tail) = some result) ∨
      ∃ tail, source = '\'' :: '\'' :: '\'' :: tail ∧ plainLines (skipLineEnd tail) = some result := by
  unfold string at read
  split at read
  · exact .inr (.inl ⟨_, rfl, read⟩)
  · exact .inr (.inr ⟨_, rfl, read⟩)
  · next free => exact .inl ((one_line_of_basic free).trans read)
  · next free => exact .inl ((one_line_of_plain free).trans read)
  · cases read

theorem one_line_closes (source value rest : Text) (read : oneLine source = some (value, rest)) :
    ∃ quote taken, (quote = '"' ∨ quote = '\'') ∧ source = quote :: taken ++ rest ∧
      ∀ other, Ends other → oneLine (quote :: taken ++ other) = some (value, other) := by
  obtain ⟨quote, tail, rfl, free, ⟨rfl, body⟩ | ⟨rfl, body⟩⟩ := one_line_cases read
  · obtain ⟨taken, same, reads⟩ := single_closes oneLine (basic_closes _ _ _ body) free
      fun _ => one_line_of_basic
    exact ⟨'"', taken, .inl rfl, same, fun other ends => reads other ends.1⟩
  · obtain ⟨taken, same, reads⟩ := single_closes oneLine (plain_closes _ _ _ body) free
      fun _ => one_line_of_plain
    exact ⟨'\'', taken, .inr rfl, same, fun other ends => reads other ends.2⟩

theorem string_closes (source value rest : Text) (read : string source = some (value, rest)) :
    ∃ quote taken, (quote = '"' ∨ quote = '\'') ∧ source = quote :: taken ++ rest ∧
      ∀ other, Ends other → string (quote :: taken ++ other) = some (value, other) := by
  obtain single | ⟨tail, rfl, body⟩ | ⟨tail, rfl, body⟩ := string_cases read
  · obtain ⟨quote, taken, isQuote, same, reads⟩ := one_line_closes source value rest single
    exact ⟨quote, taken, isQuote, same, fun other ends => string_of_one_line (reads other ends)⟩
  · obtain ⟨taken, same, reads⟩ := triple_closes string (.inl rfl)
      (basic_lines_closes _ _ _ _ body) fun _ => rfl
    exact ⟨'"', taken, .inl rfl, same, fun other ends => reads other ends.1⟩
  · obtain ⟨taken, same, reads⟩ := triple_closes string (.inr rfl)
      (plain_lines_closes _ _ _ body) fun _ => rfl
    exact ⟨'\'', taken, .inr rfl, same, fun other ends => reads other ends.2⟩

end Reroot.Text.Quoted
