import Mathlib.Data.List.Induction
import Mathlib.Data.List.TakeWhile
import Reroot.CommandLine.Grammar

set_option autoImplicit false

namespace Reroot

theorem Except.bind_eq_ok_iff {ε α β : Type} {first : Except ε α} {next : α → Except ε β} {last : β} :
    first.bind next = .ok last ↔ ∃ middle, first = .ok middle ∧ next middle = .ok last := by
  cases first <;> simp [Except.bind]

theorem Except.map_eq_ok_iff {ε α β : Type} {first : Except ε α} {next : α → β} {last : β} :
    first.map next = .ok last ↔ ∃ middle, first = .ok middle ∧ next middle = last := by
  cases first <;> simp [Except.map]

theorem Except.bind_assoc {ε α β γ : Type} (first : Except ε α) (next : α → Except ε β)
    (last : β → Except ε γ) : (first.bind next).bind last = first.bind (next · |>.bind last) := by
  cases first <;> rfl

namespace Arguments

theorem long_flag?_eq_setting_iff {name : String} {own : Setting} :
    longFlag? name = some (.setting own) ↔ name = own.name := by
  constructor
  · intro found
    unfold longFlag? at found
    split at found <;> cases found <;> rfl
  · rintro rfl
    cases own <;> rfl

theorem long_flag?_eq_switch_iff {name : String} {own : Switch} :
    longFlag? name = some (.switch own) ↔ name = own.name := by
  constructor
  · intro found
    unfold longFlag? at found
    split at found <;> cases found <;> rfl
  · rintro rfl
    cases own <;> rfl

theorem short_flag?_eq_setting_iff {letter : Char} {own : Setting} :
    shortFlag? letter = some (.setting own) ↔ own.letter? = some letter := by
  constructor
  · intro found
    unfold shortFlag? at found
    split at found <;> cases found <;> rfl
  · intro short
    cases own <;> cases short <;> rfl

theorem short_flag?_eq_switch_iff {letter : Char} {own : Switch} :
    shortFlag? letter = some (.switch own) ↔ own.letter? = some letter := by
  constructor
  · intro found
    unfold shortFlag? at found
    split at found <;> cases found
    rfl
  · intro short
    cases own <;> cases short
    rfl

theorem shape_long_equals {name value : String} (free : '=' ∉ name.toList) :
    shape ("--" ++ name ++ "=" ++ value) = .long name (some value) := by
  have other : ∀ c ∈ name.toList, (c != '=') = true := fun c member => by
    simpa using fun same : c = '=' => free (same ▸ member)
  have spelt : ("--" ++ name ++ "=" ++ value).toList =
      '-' :: '-' :: (name.toList ++ '=' :: value.toList) := by simp
  have ended : (name.toList ++ '=' :: value.toList).dropWhile (· != '=') = '=' :: value.toList := by
    rw [List.dropWhile_append_of_pos other]
    rfl
  have before : (name.toList ++ '=' :: value.toList).takeWhile (· != '=') = name.toList := by
    rw [List.takeWhile_append_of_pos other]
    simp
  obtain ⟨c, more, all⟩ := List.exists_cons_of_ne_nil
    (by simp : name.toList ++ '=' :: value.toList ≠ [])
  rw [all] at spelt ended before
  simp only [shape, spelt, ended, before, String.ofList_toList]

theorem shape_long {name : String} (named : name ≠ "") (free : '=' ∉ name.toList) :
    shape ("--" ++ name) = .long name none := by
  obtain ⟨c, more, spelt⟩ := List.exists_cons_of_ne_nil (mt String.toList_eq_nil_iff.mp named)
  have ended : (c :: more).dropWhile (· != '=') = [] := by
    rw [← spelt, List.dropWhile_eq_nil_iff]
    exact fun other member => by simpa using fun same : other = '=' => free (same ▸ member)
  have dashed : ("--" ++ name).toList = '-' :: '-' :: c :: more := by simp [spelt]
  simp only [shape, dashed, ended]
  rw [← spelt, String.ofList_toList]

theorem shape_short {c : Char} (other : c ≠ '-') (rest : Text) :
    shape (String.ofList ('-' :: c :: rest)) = .short (c :: rest) := by
  simp [shape, other]

theorem shape_of_is_plain {word : String} (plain : IsPlain word) : shape word = .word := by
  rcases plain with first | rfl
  · cases spelt : word.toList with
    | nil => simp [shape, spelt]
    | cons c rest =>
      have other : c ≠ '-' := by simpa [spelt] using first
      simp [shape, spelt, other]
  · rfl

inductive Spelt : String → Shape → Prop where
  | endOfOptions : Spelt "--" .endOfOptions
  | long (name : String) (value : Option String) :
      Spelt ("--" ++ name ++ (value.map ("=" ++ ·)).getD "") (.long name value)
  | short {text : Text} (nonempty : text ≠ []) : Spelt (String.ofList ('-' :: text)) (.short text)
  | word {word : String} (plain : IsPlain word) : Spelt word .word

theorem spelt_shape_long (rest : Text) :
    Spelt (String.ofList ('-' :: '-' :: rest)) (shape (String.ofList ('-' :: '-' :: rest))) := by
  by_cases equals : '=' ∈ rest
  · obtain ⟨name, value, rfl, free⟩ := List.eq_append_cons_of_mem equals
    have whole : String.ofList ('-' :: '-' :: (name ++ '=' :: value)) =
        "--" ++ String.ofList name ++ ("=" ++ String.ofList value) := by simp [← String.toList_inj]
    rw [whole, ← String.append_assoc, shape_long_equals (by simpa using free), String.append_assoc]
    exact .long _ (some _)
  · have whole : String.ofList ('-' :: '-' :: rest) = "--" ++ String.ofList rest := by
      simp [← String.toList_inj]
    cases rest with
    | nil => exact .endOfOptions
    | cons c rest =>
      rw [whole, shape_long (by simp [← String.toList_inj]) (by simpa using equals)]
      simpa using Spelt.long (String.ofList (c :: rest)) none

theorem spelt_shape (word : String) : Spelt word (shape word) := by
  obtain ⟨text, rfl⟩ : ∃ text, word = String.ofList text := ⟨_, String.ofList_toList.symm⟩
  by_cases plain : IsPlain (String.ofList text)
  · rw [shape_of_is_plain plain]
    exact .word plain
  · rcases text with _ | ⟨first, _ | ⟨second, rest⟩⟩
    · exact absurd (.inl (by simp)) plain
    · by_cases dash : first = '-'
      · exact absurd (.inr (by rw [dash])) plain
      · exact absurd (.inl (by simpa using dash)) plain
    · obtain rfl : first = '-' := by
        by_contra other
        exact plain (.inl (by simpa using other))
      by_cases twice : second = '-'
      · subst twice
        exact spelt_shape_long rest
      · rw [shape_short twice]
        exact .short (by simp)

def addGiven (known : List Given) : Given → Except Refusal (List Given)
  | .setting own value => Progress.addSetting known own value
  | .switch own => if Given.isOn own known then .error .conflict else .ok (known ++ [.switch own])

def addAll (known : List Given) : List Given → Except Refusal (List Given)
  | [] => .ok known
  | item :: rest => (addGiven known item).bind (addAll · rest)

theorem add_given_eq_ok_iff {known result : List Given} {item : Given} :
    addGiven known item = .ok result ↔ item.Follows known ∧ known ++ [item] = result := by
  cases item with
  | setting own value =>
    have conflict : (!own.repeats && (Given.value? own known).isSome) = true ↔
        ¬ (own.repeats = false → Given.values own known = []) := by
      simp [Given.value?]
    have invalid : (own.isPath && value.isEmpty) = true ↔ ¬ (own.isPath = true → value ≠ "") := by
      simp
    simp only [addGiven, Progress.addSetting, Given.Follows, conflict, invalid]
    split
    · simp_all
    · split <;> simp_all
  | switch own =>
    simp only [addGiven, Given.Follows, Given.isOn]
    by_cases known : Given.switch own ∈ known <;> simp [known]

theorem add_all_append (known first second : List Given) :
    addAll known (first ++ second) = (addAll known first).bind (addAll · second) := by
  induction first generalizing known with
  | nil => rfl
  | cons item rest ih =>
    rw [List.cons_append, addAll, addAll, Except.bind_assoc]
    congr 1
    exact funext fun more => ih more

theorem add_all_eq_ok_iff {known items result : List Given} :
    addAll known items = .ok result ↔ known ++ items = result ∧
      ∀ before item after, items = before ++ item :: after → item.Follows (known ++ before) := by
  induction items generalizing known with
  | nil => simp [addAll]
  | cons item rest ih =>
    rw [addAll, Except.bind_eq_ok_iff]
    simp only [add_given_eq_ok_iff, ih]
    constructor
    · rintro ⟨_, ⟨follows, rfl⟩, rfl, later⟩
      refine ⟨by simp, fun before other after split => ?_⟩
      cases before with
      | nil =>
        cases split
        simpa using follows
      | cons head tail =>
        cases split
        simpa using later tail other after rfl
    · rintro ⟨rfl, each⟩
      refine ⟨_, ⟨by simpa using each [] item rest rfl, rfl⟩, by simp, ?_⟩
      intro before other after split
      simpa using each (item :: before) other after (by rw [split]; rfl)

theorem add_all_nil_eq_ok_iff {items result : List Given} :
    addAll [] items = .ok result ↔ items = result ∧ Given.Allowed items := add_all_eq_ok_iff

namespace Progress

def opened (progress : Progress) : Option Setting :=
  match progress.waiting with
  | some (own, none) => some own
  | _ => none

def known (progress : Progress) : Except Refusal (List Given) :=
  match progress.waiting with
  | some (_, none) => .ok progress.given
  | _ => progress.settle

-- Once what waits is settled, takes what a word gives and leaves a setting open or none. All that a
-- word with dashes can do is this.
def enter (progress : Progress) (given : List Given) (opened : Option Setting) :
    Except Refusal Progress :=
  (progress.settle.bind (addAll · given)).map (⟨·, opened.map (·, none)⟩)

theorem opened_of_settle {progress : Progress} {known : List Given}
    (settled : progress.settle = .ok known) : progress.opened = none := by
  rcases waits : progress.waiting with _ | ⟨own, _ | value⟩
  · rw [opened, waits]
  · rw [settle, waits] at settled
    cases settled
  · rw [opened, waits]

theorem known_of_opened {progress : Progress} (closed : progress.opened = none) :
    progress.known = progress.settle := by
  unfold opened at closed
  unfold known
  split at closed <;> simp_all

theorem await_eq_enter (progress : Progress) (own : Setting) :
    progress.await own = progress.enter [] (some own) := by
  unfold await enter
  cases progress.settle <;> rfl

theorem give_setting_eq_enter (progress : Progress) (own : Setting) (value : String) :
    progress.giveSetting own value = progress.enter [.setting own value] none := by
  unfold giveSetting enter
  cases progress.settle with
  | error refusal => rfl
  | ok known =>
    simp only [Except.bind, addAll, addGiven]
    cases addSetting known own value <;> rfl

theorem give_switch_eq_enter (progress : Progress) (own : Switch) :
    progress.giveSwitch own = progress.enter [.switch own] none := by
  unfold giveSwitch enter
  cases progress.settle with
  | error refusal => rfl
  | ok known =>
    simp only [Except.bind, addAll, addGiven]
    split <;> rfl

theorem enter_cons (progress : Progress) (item : Given) (given : List Given)
    (opened : Option Setting) : progress.enter (item :: given) opened =
      (progress.enter [item] none).bind (·.enter given opened) := by
  unfold enter
  cases progress.settle with
  | error refusal => rfl
  | ok known =>
    simp only [Except.bind, addAll]
    cases addGiven known item <;> rfl

theorem opened_of_waiting {progress : Progress} {own : Option Setting}
    (waiting : progress.waiting = own.map (·, none)) : progress.opened = own := by
  unfold opened
  cases own <;> simp_all

theorem waiting_of_enter {progress next : Progress} {given : List Given} {opened : Option Setting}
    (entered : progress.enter given opened = .ok next) : next.waiting = opened.map (·, none) := by
  obtain ⟨_, -, rfl⟩ := Except.map_eq_ok_iff.mp entered
  rfl

theorem opened_of_enter {progress next : Progress} {given : List Given} {opened : Option Setting}
    (entered : progress.enter given opened = .ok next) :
    progress.opened = none ∧ next.opened = opened := by
  obtain ⟨_, added, -⟩ := Except.map_eq_ok_iff.mp entered
  obtain ⟨known, settled, -⟩ := Except.bind_eq_ok_iff.mp added
  exact ⟨opened_of_settle settled, opened_of_waiting (waiting_of_enter entered)⟩

theorem give_help_ne_ok (progress next : Progress) (page : HelpPage) :
    progress.giveHelp page ≠ .ok next := by
  unfold giveHelp
  cases progress.settle <;> simp [Except.bind]

theorem read_short_of_letters {text : Text} {given : List Given} {opened : Option Setting}
    (letters : Letters text given opened) (progress : Progress)
    (begun : text = [] → progress.waiting = none) :
    progress.readShort text = progress.enter given opened := by
  induction letters generalizing progress with
  | none =>
    obtain ⟨given, waiting⟩ := progress
    cases begun rfl
    rfl
  | @switch letter own rest given opened short more ih =>
    simp only [readShort, short_flag?_eq_switch_iff.mpr short]
    rw [give_switch_eq_enter, enter_cons progress _ given]
    cases entered : progress.enter [.switch own] none with
    | error refusal => rfl
    | ok next => exact ih next fun _ => waiting_of_enter entered
  | opens short =>
    rw [readShort, short_flag?_eq_setting_iff.mpr short]
    exact await_eq_enter progress _
  | equals short =>
    rw [readShort, short_flag?_eq_setting_iff.mpr short]
    exact give_setting_eq_enter progress _ _
  | joined short other =>
    simp only [readShort, short_flag?_eq_setting_iff.mpr short]
    rw [← give_setting_eq_enter]
    simp [other]

theorem exists_letters {letter : Char} {own : Setting} (short : own.letter? = some letter)
    (rest : Text) : ∃ given opened, Letters (letter :: rest) given opened := by
  rcases rest with _ | ⟨c, rest⟩
  · exact ⟨_, _, .opens short⟩
  by_cases equals : c = '='
  · subst equals
    exact ⟨_, _, .equals short⟩
  · exact ⟨_, _, .joined short equals⟩

theorem letters_of_read_short {text : Text} {progress next : Progress}
    (read : progress.readShort text = .ok next) (begun : text = [] → progress.waiting = none) :
    progress.opened = none ∧ ∃ given, Letters text given next.opened := by
  induction text generalizing progress with
  | nil =>
    cases read
    have closed : next.opened = none := opened_of_waiting (begun rfl)
    rw [closed]
    exact ⟨rfl, [], .none⟩
  | cons letter rest ih =>
    rcases found : shortFlag? letter with _ | own | own | _
    · rw [readShort, found] at read
      cases read
    · obtain ⟨given, opened, letters⟩ := exists_letters (short_flag?_eq_setting_iff.mp found) rest
      rw [read_short_of_letters letters progress (by simp)] at read
      obtain ⟨closed, left⟩ := opened_of_enter read
      exact ⟨closed, given, left ▸ letters⟩
    · simp only [readShort, found] at read
      rw [give_switch_eq_enter, Except.bind_eq_ok_iff] at read
      obtain ⟨middle, entered, read⟩ := read
      obtain ⟨-, given, letters⟩ := ih read fun _ => waiting_of_enter entered
      exact ⟨(opened_of_enter entered).1, _, .switch (short_flag?_eq_switch_iff.mp found) letters⟩
    · rw [readShort, found] at read
      exact absurd read (give_help_ne_ok progress next _)

theorem head?_ne_dash_of_letters {text : Text} {given : List Given} {opened : Option Setting}
    (letters : Letters text given opened) : text.head? ≠ some '-' := by
  cases letters with
  | none => simp
  | @switch _ own _ _ _ short =>
    cases own <;> cases short
    simp
  | @opens _ own short | @equals _ own _ short | @joined _ _ own _ short =>
    cases own <;> cases short <;> simp

theorem read_all_of_word {word : String} {given : List Given} {opened : Option Setting}
    (first : Word word given opened) (progress : Progress) (rest : List String) :
    progress.readAll (word :: rest) = (progress.enter given opened).bind (·.readAll rest) := by
  cases first with
  | switch own =>
    have found : shape ("--" ++ own.name) = .long own.name none := by cases own <;> rfl
    simp only [readAll, found, readLong, long_flag?_eq_switch_iff.mpr rfl]
    rw [give_switch_eq_enter]
  | equals own value =>
    have free : '=' ∉ own.name.toList := by cases own <;> decide
    simp only [readAll, shape_long_equals free, readLong, long_flag?_eq_setting_iff.mpr rfl]
    rw [give_setting_eq_enter]
  | opens own =>
    have found : shape ("--" ++ own.name) = .long own.name none := by cases own <;> rfl
    simp only [readAll, found, readLong, long_flag?_eq_setting_iff.mpr rfl]
    rw [await_eq_enter]
  | @letters text _ _ nonempty letters =>
    cases text with
    | nil => exact absurd rfl nonempty
    | cons c more =>
      have dash : c ≠ '-' := by simpa using head?_ne_dash_of_letters letters
      simp only [readAll, shape_short dash]
      rw [read_short_of_letters letters progress fun empty => absurd empty nonempty]

-- Along a line the setting left open is the one that waits, and only what a word gives is added. So
-- the line is refused for the first of its options that does not follow the others.
theorem read_all_of_line {own : Option Setting} {words : List String} {given : List Given}
    (line : Line own words given) (progress : Progress) (same : progress.opened = own) :
    progress.readAll words = progress.known.bind (addAll · given) := by
  induction line generalizing progress with
  | none =>
    rw [known_of_opened same, readAll]
    cases progress.settle <;> rfl
  | stop =>
    rw [known_of_opened same, readAll]
    cases progress.settle <;> rfl
  | @word word given more opened rest first later ih =>
    rw [read_all_of_word first, known_of_opened same, enter]
    cases progress.settle with
    | error refusal => rfl
    | ok known =>
      rw [Except.bind, Except.bind, add_all_append]
      cases addAll known given with
      | error refusal => rfl
      | ok known =>
        have followed := ih ⟨known, opened.map (·, none)⟩ (opened_of_waiting rfl)
        cases opened <;> exact followed
  | @value own value more rest plain later ih =>
    obtain ⟨known, waiting⟩ := progress
    have waits : waiting = some (own, none) := by
      unfold opened at same
      split at same <;> simp_all
    subst waits
    rw [readAll, shape_of_is_plain plain]
    exact ih ⟨known, some (own, some value)⟩ rfl

theorem word_of_read_long {name : String} {value : Option String} {progress next : Progress}
    (read : progress.readLong name value = .ok next) : progress.opened = none ∧
      ∃ given, Word ("--" ++ name ++ (value.map ("=" ++ ·)).getD "") given next.opened := by
  unfold readLong at read
  rcases found : longFlag? name with _ | own | own | _ <;> rw [found] at read
  · cases read
  · rw [long_flag?_eq_setting_iff.mp found]
    cases value with
    | none =>
      obtain ⟨closed, left⟩ := opened_of_enter ((await_eq_enter progress own).symm.trans read)
      exact ⟨closed, _, by simpa [left] using Word.opens own⟩
    | some value =>
      obtain ⟨closed, left⟩ :=
        opened_of_enter ((give_setting_eq_enter progress own value).symm.trans read)
      exact ⟨closed, [.setting own value], by
        simpa [left, String.append_assoc] using Word.equals own value⟩
  · rw [long_flag?_eq_switch_iff.mp found]
    cases value with
    | none =>
      obtain ⟨closed, left⟩ := opened_of_enter ((give_switch_eq_enter progress own).symm.trans read)
      exact ⟨closed, _, by simpa [left] using Word.switch own⟩
    | some value => cases read
  · cases value with
    | none => exact absurd read (give_help_ne_ok progress next _)
    | some value => cases read

theorem opened_of_read_word {word : String} {progress next : Progress}
    (read : progress.readWord word = .ok next) :
    ∃ own, progress.opened = some own ∧ next.opened = none := by
  unfold readWord at read
  rcases waits : progress.waiting with _ | ⟨own, _ | value⟩ <;> rw [waits] at read
  · cases read
  · cases read
    exact ⟨own, opened_of_waiting waits, rfl⟩
  · cases read

theorem line_of_read_all {words : List String} {progress : Progress} {result : List Given}
    (read : progress.readAll words = .ok result) : ∃ given, Line progress.opened words given := by
  induction words generalizing progress with
  | nil =>
    rw [opened_of_settle read]
    exact ⟨[], .none⟩
  | cons word rest ih =>
    rw [readAll] at read
    have spelt := spelt_shape word
    generalize shape word = form at read spelt
    cases spelt with
    | endOfOptions =>
      cases rest with
      | nil =>
        rw [opened_of_settle read]
        exact ⟨[], .stop⟩
      | cons => cases read
    | long name value =>
      obtain ⟨next, step, read⟩ := Except.bind_eq_ok_iff.mp read
      obtain ⟨closed, given, first⟩ := word_of_read_long step
      obtain ⟨more, later⟩ := ih read
      rw [closed]
      exact ⟨_, .word first later⟩
    | short nonempty =>
      obtain ⟨next, step, read⟩ := Except.bind_eq_ok_iff.mp read
      obtain ⟨closed, given, letters⟩ :=
        letters_of_read_short step fun empty => absurd empty nonempty
      obtain ⟨more, later⟩ := ih read
      rw [closed]
      exact ⟨_, .word (.letters nonempty letters) later⟩
    | word plain =>
      obtain ⟨next, step, read⟩ := Except.bind_eq_ok_iff.mp read
      obtain ⟨own, waits, closed⟩ := opened_of_read_word step
      obtain ⟨more, later⟩ := ih read
      rw [waits]
      exact ⟨_, .value plain (closed ▸ later)⟩

theorem start_read_all_eq_ok_iff {words : List String} {given : List Given} :
    start.readAll words = .ok given ↔ Line none words given ∧ Given.Allowed given := by
  constructor
  · intro read
    obtain ⟨other, line⟩ := line_of_read_all read
    have added : addAll [] other = .ok given := by
      rw [← read, read_all_of_line line start rfl]
      rfl
    obtain ⟨rfl, allowed⟩ := add_all_nil_eq_ok_iff.mp added
    exact ⟨line, allowed⟩
  · rintro ⟨line, allowed⟩
    rw [read_all_of_line line start rfl]
    exact add_all_nil_eq_ok_iff.mpr ⟨rfl, allowed⟩

theorem line_unique {words : List String} {given other : List Given} (line : Line none words given)
    (allowed : Given.Allowed given) (also : Line none words other) : other = given := by
  have read := start_read_all_eq_ok_iff.mpr ⟨line, allowed⟩
  rw [read_all_of_line also start rfl] at read
  exact (add_all_nil_eq_ok_iff.mp read).1

end Progress

theorem options_eq_ok_iff {words : List String} {result : Options} :
    options words = .ok result ↔ ∃ given, Line none words given ∧ Given.Allowed given ∧
      Options.ofGiven? given = some result := by
  rw [options, Except.bind_eq_ok_iff]
  simp only [Progress.start_read_all_eq_ok_iff, and_assoc]
  refine exists_congr fun given => and_congr_right' (and_congr_right' ?_)
  cases Options.ofGiven? given <;> simp

theorem read_ne_ok {word : String} (other : word ≠ "retarget") {words : List String}
    (result : Options) : read (word :: words) ≠ .ok result := by
  simp only [read, if_neg other]
  by_cases page : word = "help"
  · simp [page]
  · rw [if_neg page]
    cases shape word with
    | endOfOptions => cases words <;> simp
    | long | short | word => simp

theorem read_eq_ok_iff {arguments : List String} {result : Options} :
    read arguments = .ok result ↔ ∃ words given, arguments = "retarget" :: words ∧
      Line none words given ∧ Given.Allowed given ∧ Options.ofGiven? given = some result := by
  constructor
  · intro accepted
    cases arguments with
    | nil => cases accepted
    | cons word words =>
      by_cases command : word = "retarget"
      · simp only [read, if_pos command] at accepted
        obtain ⟨given, line⟩ := options_eq_ok_iff.mp accepted
        exact ⟨words, given, by rw [command], line⟩
      · exact absurd accepted (read_ne_ok command result)
  · rintro ⟨words, given, rfl, line⟩
    exact options_eq_ok_iff.mpr ⟨given, line⟩

end Arguments

namespace Given

theorem values_append (own : Setting) (first second : List Given) :
    values own (first ++ second) = values own first ++ values own second := List.filterMap_append ..

theorem allowed_of_append {first second : List Given} (allowed : Allowed (first ++ second)) :
    Allowed first := fun before item after split =>
  allowed before item (after ++ second) (by simp [split])

theorem values_of_allowed {given : List Given} (allowed : Allowed given) (own : Setting)
    (once : own.repeats = false) : values own given = (value? own given).toList := by
  induction given using List.reverseRecOn with
  | nil => rfl
  | append_singleton front item ih =>
    have earlier := ih (allowed_of_append allowed)
    rw [value?, values_append]
    cases item with
    | switch other =>
      have none : values own [.switch other] = [] := rfl
      rw [none, List.append_nil]
      exact earlier
    | setting other value =>
      by_cases same : other = own
      · subst same
        rw [((allowed front _ [] rfl).1 once : values other front = [])]
        simp [values]
      · have none : values own [.setting other value] = [] := by simp [values, same]
        rw [none, List.append_nil]
        exact earlier

theorem settles_of_allowed {given : List Given} (allowed : Allowed given) {own : Setting}
    (once : own.repeats = false) (preset : String) :
    Settles given own preset ((value? own given).getD preset) := by
  rw [Settles, values_of_allowed allowed own once]
  cases value? own given with
  | none => exact .inr ⟨rfl, rfl⟩
  | some value => exact .inl rfl

end Given

namespace Options

theorem exists_of_given?_iff {given : List Given} : (∃ options, ofGiven? given = some options) ↔
    Given.values .output given ≠ [] ∧
      (Given.values .agavePath given ≠ [] ∨ Given.values .commit given ≠ []) := by
  simp only [ofGiven?, Given.value?]
  cases Given.values .output given with
  | nil => simp
  | cons output rest =>
    by_cases path : Given.values .agavePath given = [] <;>
      by_cases revision : Given.values .commit given = [] <;> simp [path, revision]

theorem exists_output_of_of_given? {given : List Given} {options : Options}
    (made : ofGiven? given = some options) : ∃ output, Given.value? .output given = some output := by
  cases written : Given.value? .output given with
  | none => simp [ofGiven?, written] at made
  | some output => exact ⟨output, rfl⟩

theorem source_of_of_given? {given : List Given} {options : Options} (allowed : Given.Allowed given)
    (made : ofGiven? given = some options) :
    (∃ root, Given.values .agavePath given = [root] ∧ options.source = .checkout root) ∨
      Given.values .agavePath given = [] ∧ ∃ origin, options.source = .remote origin ∧
        Given.values .commit given = [origin.commit] ∧
        Given.Settles given .repository Remote.defaultRepository origin.repository ∧
        Given.Settles given .rawBaseUrl Remote.defaultRawBaseUrl origin.rawBaseUrl ∧
        Given.Settles given .stagingDir Remote.defaultStagingDir origin.stagingDir ∧
        (origin.strict = true ↔ .switch .strict ∈ given) := by
  have paths := Given.values_of_allowed allowed .agavePath rfl
  have commits := Given.values_of_allowed allowed .commit rfl
  obtain ⟨output, written⟩ := exists_output_of_of_given? made
  simp only [ofGiven?, written] at made
  obtain ⟨stated, filled⟩ := Option.ite_none_left_eq_some.mp made
  cases filled
  cases path : Given.value? .agavePath given with
  | some root => exact .inl ⟨root, by rw [paths, path]; rfl, rfl⟩
  | none =>
    cases revision : Given.value? .commit given with
    | none => exact absurd (by rw [path, revision]; rfl) stated
    | some commit =>
      refine .inr ⟨by rw [paths, path]; rfl, _, rfl, by rw [commits, revision]; rfl,
        Given.settles_of_allowed allowed rfl _, Given.settles_of_allowed allowed rfl _,
        Given.settles_of_allowed allowed rfl _, List.contains_iff_mem⟩

theorem remove_dependency_of_of_given? {given : List Given} {options : Options}
    (made : ofGiven? given = some options) :
    options.removeDependency = Given.values .removeDependency given := by
  obtain ⟨output, written⟩ := exists_output_of_of_given? made
  simp only [ofGiven?, written] at made
  obtain ⟨-, filled⟩ := Option.ite_none_left_eq_some.mp made
  cases filled
  rfl

theorem add_names_eq (names more : List String) :
    addNames names more = names ++ (more.filter (· ∉ names)).eraseDups := by
  induction more generalizing names with
  | nil => simp [addNames]
  | cons name rest ih =>
    rw [addNames, ih]
    by_cases known : name ∈ names
    · simp [known]
    · have later : rest.filter (· ∉ names ++ [name]) =
          (rest.filter (· ∉ names)).filter (fun other => !other == name) := by
        rw [List.filter_filter]
        exact List.filter_congr fun other _ => by
          by_cases same : other = name <;> simp [same]
      rw [if_neg (by simpa using known), later, List.filter_cons_of_pos (by simpa using known),
        List.eraseDups_cons, List.append_assoc]
      rfl

theorem nodup_add_names {names : List String} (distinct : names.Nodup) (more : List String) :
    (addNames names more).Nodup := by
  induction more generalizing names with
  | nil => exact distinct
  | cons name rest ih =>
    rw [addNames]
    apply ih
    split
    · exact distinct
    · next missing =>
      refine List.nodup_append.mpr ⟨distinct, by simp, fun other member last present => ?_⟩
      rw [List.mem_singleton.mp present]
      rintro rfl
      exact missing (List.contains_iff_mem.mpr member)

end Options

-- A line is accepted if it is written as options are, these may stand together, there is an output, and
-- a revision unless there is a checkout. It is written in one way only. What it gives has one source,
-- with no revision but one that was given, and removes the names that always are and those that were
-- given, each once.
theorem Arguments.read_determines (arguments : List String) :
    ((∃ result, read arguments = .ok result) ↔ ∃ words given, arguments = "retarget" :: words ∧
      Line none words given ∧ Given.Allowed given ∧ Given.values .output given ≠ [] ∧
      (Given.values .agavePath given ≠ [] ∨ Given.values .commit given ≠ [])) ∧
    ∀ result, read arguments = .ok result → ∃ words given, arguments = "retarget" :: words ∧
      Line none words given ∧ (∀ other, Line none words other → other = given) ∧
      ((∃ root, Given.values .agavePath given = [root] ∧ result.source = .checkout root) ∨
        Given.values .agavePath given = [] ∧ ∃ origin, result.source = .remote origin ∧
          Given.values .commit given = [origin.commit] ∧
          Given.Settles given .repository Remote.defaultRepository origin.repository ∧
          Given.Settles given .rawBaseUrl Remote.defaultRawBaseUrl origin.rawBaseUrl ∧
          Given.Settles given .stagingDir Remote.defaultStagingDir origin.stagingDir ∧
          (origin.strict = true ↔ .switch .strict ∈ given)) ∧
      result.removals.Nodup ∧
      result.removals = ["pickledb", "winreg"] ++
        ((Given.values .removeDependency given).filter (· ∉ ["pickledb", "winreg"])).eraseDups := by
  constructor
  · constructor
    · rintro ⟨result, accepted⟩
      obtain ⟨words, given, called, line, allowed, made⟩ := read_eq_ok_iff.mp accepted
      exact ⟨words, given, called, line, allowed, Options.exists_of_given?_iff.mp ⟨result, made⟩⟩
    · rintro ⟨words, given, called, line, allowed, required⟩
      obtain ⟨result, made⟩ := Options.exists_of_given?_iff.mpr required
      exact ⟨result, read_eq_ok_iff.mpr ⟨words, given, called, line, allowed, made⟩⟩
  · intro result accepted
    obtain ⟨words, given, rfl, line, allowed, made⟩ := read_eq_ok_iff.mp accepted
    have removed : result.removals = Options.addNames ["pickledb", "winreg"]
        (Given.values .removeDependency given) := by
      rw [Options.removals, Options.remove_dependency_of_of_given? made]
      rfl
    refine ⟨words, given, rfl, line, fun other also => Progress.line_unique line allowed also,
      Options.source_of_of_given? allowed made, ?_, ?_⟩
    · rw [removed]
      exact Options.nodup_add_names (by decide) _
    · rw [removed]
      exact Options.add_names_eq _ _

theorem Arguments.read_determines_revision : ∃ result, read ["retarget", "-ncabc", "--strict",
      "--repository=me/fork", "-o", "out.toml", "--remove-dependency=winreg",
      "--remove-dependency", "x", "--remove-dependency=x"] = .ok result ∧
    (∃ origin, result.source = .remote origin ∧ origin.commit = "abc" ∧
      origin.repository = "me/fork" ∧ origin.rawBaseUrl = Remote.defaultRawBaseUrl ∧
      origin.strict = true) ∧
    result.removals = ["pickledb", "winreg", "x"] := by
  have read : Progress.start.readAll ["-ncabc", "--strict", "--repository=me/fork", "-o",
      "out.toml", "--remove-dependency=winreg", "--remove-dependency", "x",
      "--remove-dependency=x"] = .ok [.switch .dryRun, .setting .commit "abc", .switch .strict,
        .setting .repository "me/fork", .setting .output "out.toml",
        .setting .removeDependency "winreg", .setting .removeDependency "x",
        .setting .removeDependency "x"] := by decide +kernel
  obtain ⟨line, allowed⟩ := Progress.start_read_all_eq_ok_iff.mp read
  obtain ⟨result, accepted⟩ := (read_determines ("retarget" :: _)).1.mpr
    ⟨_, _, rfl, line, allowed, by decide, .inr (by decide)⟩
  obtain ⟨words, given, same, -, only, source, -, removals⟩ := (read_determines _).2 result accepted
  cases same
  cases only _ line
  refine ⟨result, accepted, ?_, removals⟩
  rcases source with ⟨root, stated, -⟩ | ⟨-, origin, remote, commit, repository, base, -, strict⟩
  · cases stated
  · rcases repository with stated | ⟨missing, -⟩
    · rcases base with given | ⟨-, preset⟩
      · cases given
      · exact ⟨origin, remote, (List.cons.inj commit).1.symm, (List.cons.inj stated).1.symm, preset,
          strict.mpr (by decide)⟩
    · cases missing

end Reroot
