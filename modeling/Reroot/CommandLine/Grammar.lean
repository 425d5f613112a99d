import Reroot.CommandLine.Arguments

set_option autoImplicit false

namespace Reroot

namespace Setting

def name : Setting → String
  | commit => "commit"
  | agavePath => "agave-path"
  | output => "output"
  | fragment => "fragment"
  | stagingDir => "staging-dir"
  | repository => "repository"
  | rawBaseUrl => "raw-base-url"
  | removeDependency => "remove-dependency"

def letter? : Setting → Option Char
  | commit => some 'c'
  | agavePath => some 'p'
  | output => some 'o'
  | fragment | stagingDir | repository | rawBaseUrl | removeDependency => none

end Setting

namespace Switch

def name : Switch → String
  | strict => "strict"
  | dryRun => "dry-run"

def letter? : Switch → Option Char
  | strict => none
  | dryRun => some 'n'

end Switch

namespace Arguments

-- The letters of one word, what they give, and a setting that is left open for the next word. An equals
-- sign in front of a value is no part of it.
inductive Letters : Text → List Given → Option Setting → Prop where
  | none : Letters [] [] none
  | switch {letter : Char} {switch : Switch} {rest : Text} {given : List Given}
      {opened : Option Setting} (short : switch.letter? = some letter)
      (more : Letters rest given opened) : Letters (letter :: rest) (.switch switch :: given) opened
  | opens {letter : Char} {setting : Setting} (short : setting.letter? = some letter) :
      Letters [letter] [] (some setting)
  | equals {letter : Char} {setting : Setting} {value : Text}
      (short : setting.letter? = some letter) :
      Letters (letter :: '=' :: value) [.setting setting (String.ofList value)] none
  | joined {letter c : Char} {setting : Setting} {value : Text}
      (short : setting.letter? = some letter) (other : c ≠ '=') :
      Letters (letter :: c :: value) [.setting setting (String.ofList (c :: value))] none

inductive Word : String → List Given → Option Setting → Prop where
  | switch (switch : Switch) : Word ("--" ++ switch.name) [.switch switch] none
  | equals (setting : Setting) (value : String) :
      Word ("--" ++ setting.name ++ "=" ++ value) [.setting setting value] none
  | opens (setting : Setting) : Word ("--" ++ setting.name) [] (some setting)
  | letters {text : Text} {given : List Given} {opened : Option Setting} (nonempty : text ≠ [])
      (each : Letters text given opened) : Word (String.ofList ('-' :: text)) given opened

-- A word that can be the value of a setting left open: a dash begins none but the word that is one.
def IsPlain (word : String) : Prop := word.toList.head? ≠ some '-' ∨ word = "-"

-- The words behind a setting left open, or behind none, and what they give. The end of options may be
-- marked, but nothing follows it.
inductive Line : Option Setting → List String → List Given → Prop where
  | none : Line none [] []
  | stop : Line none ["--"] []
  | word {word : String} {given more : List Given} {opened : Option Setting} {rest : List String}
      (first : Word word given opened) (later : Line opened rest more) :
      Line none (word :: rest) (given ++ more)
  | value {setting : Setting} {value : String} {more : List Given} {rest : List String}
      (plain : IsPlain value) (later : Line none rest more) :
      Line (some setting) (value :: rest) (.setting setting value :: more)

end Arguments

namespace Given

-- Whether an option may stand behind others. None stands twice but a setting that repeats, and a path
-- is not empty.
def Follows (before : List Given) : Given → Prop
  | .setting own value =>
    (own.repeats = false → values own before = []) ∧ (own.isPath = true → value ≠ "")
  | .switch own => .switch own ∉ before

def Allowed (given : List Given) : Prop :=
  ∀ before item after, given = before ++ item :: after → item.Follows before

def Settles (given : List Given) (own : Setting) (preset value : String) : Prop :=
  values own given = [value] ∨ values own given = [] ∧ value = preset

end Given

end Reroot
