import Reroot.CommandLine.Options

set_option autoImplicit false

namespace Reroot

inductive HelpPage where
  | program
  | brief
  | full
  | help
deriving DecidableEq, Repr

inductive Refusal where
  | missingArgument
  | unknownArgument
  | invalidValue
  | invalidSubcommand
  | conflict
  | tooManyValues
  | bareCommand
  | help (page : HelpPage)
  | version
deriving DecidableEq, Repr

namespace Arguments

inductive Flag where
  | setting (setting : Setting)
  | switch (switch : Switch)
  | help
deriving DecidableEq, Repr

def longFlag? : String → Option Flag
  | "commit" => some (.setting .commit)
  | "agave-path" => some (.setting .agavePath)
  | "output" => some (.setting .output)
  | "fragment" => some (.setting .fragment)
  | "staging-dir" => some (.setting .stagingDir)
  | "repository" => some (.setting .repository)
  | "raw-base-url" => some (.setting .rawBaseUrl)
  | "remove-dependency" => some (.setting .removeDependency)
  | "strict" => some (.switch .strict)
  | "dry-run" => some (.switch .dryRun)
  | "help" => some .help
  | _ => none

def shortFlag? : Char → Option Flag
  | 'c' => some (.setting .commit)
  | 'p' => some (.setting .agavePath)
  | 'o' => some (.setting .output)
  | 'n' => some (.switch .dryRun)
  | 'h' => some .help
  | _ => none

-- The form of one argument. A single dash is a plain word.
inductive Shape where
  | endOfOptions
  | long (name : String) (value : Option String)
  | short (letters : Text)
  | word
deriving DecidableEq, Repr

def shape (argument : String) : Shape :=
  match argument.toList with
  | ['-', '-'] => .endOfOptions
  | '-' :: '-' :: rest =>
    match rest.dropWhile (· != '=') with
    | [] => .long (String.ofList rest) none
    | _ :: value => .long (String.ofList (rest.takeWhile (· != '='))) (some (String.ofList value))
  | '-' :: c :: rest => .short (c :: rest)
  | _ => .word

structure Progress where
  given : List Given
  waiting : Option (Setting × Option String)
deriving DecidableEq, Repr

namespace Progress

def start : Progress := ⟨[], none⟩

def addSetting (given : List Given) (setting : Setting) (value : String) :
    Except Refusal (List Given) :=
  if !setting.repeats && (Given.value? setting given).isSome then .error .conflict
  else if setting.isPath && value.isEmpty then .error .invalidValue
  else .ok (given ++ [.setting setting value])

def settle (progress : Progress) : Except Refusal (List Given) :=
  match progress.waiting with
  | none => .ok progress.given
  | some (_, none) => .error .invalidValue
  | some (setting, some value) => addSetting progress.given setting value

def await (progress : Progress) (setting : Setting) : Except Refusal Progress :=
  progress.settle.map (⟨·, some (setting, none)⟩)

def giveSetting (progress : Progress) (setting : Setting) (value : String) :
    Except Refusal Progress :=
  (progress.settle.bind (addSetting · setting value)).map (⟨·, none⟩)

def giveSwitch (progress : Progress) (switch : Switch) : Except Refusal Progress :=
  progress.settle.bind fun given =>
    if Given.isOn switch given then .error .conflict
    else .ok ⟨given ++ [.switch switch], none⟩

def giveHelp (progress : Progress) (page : HelpPage) : Except Refusal Progress :=
  progress.settle.bind fun _ => .error (.help page)

def readLong (progress : Progress) (name : String) (value : Option String) :
    Except Refusal Progress :=
  match longFlag? name, value with
  | none, _ => .error .unknownArgument
  | some (.setting setting), some value => progress.giveSetting setting value
  | some (.setting setting), none => progress.await setting
  | some (.switch _), some _ => .error .tooManyValues
  | some .help, some _ => .error .tooManyValues
  | some (.switch switch), none => progress.giveSwitch switch
  | some .help, none => progress.giveHelp .full

-- One letter after the other; the letters behind a setting are its value, an equals sign before it
-- left out.
def readShort (progress : Progress) : Text → Except Refusal Progress
  | [] => .ok progress
  | c :: rest =>
    match shortFlag? c with
    | none => .error .unknownArgument
    | some .help => progress.giveHelp .brief
    | some (.switch switch) => (progress.giveSwitch switch).bind (·.readShort rest)
    | some (.setting setting) =>
      match rest with
      | [] => progress.await setting
      | '=' :: value => progress.giveSetting setting (String.ofList value)
      | value => progress.giveSetting setting (String.ofList value)

def readWord (progress : Progress) (word : String) : Except Refusal Progress :=
  match progress.waiting with
  | some (setting, none) => .ok { progress with waiting := some (setting, some word) }
  | _ => .error .unknownArgument

def readAll (progress : Progress) : List String → Except Refusal (List Given)
  | [] => progress.settle
  | argument :: rest =>
    match shape argument with
    | .endOfOptions => if rest.isEmpty then progress.settle else .error .unknownArgument
    | .long name value => (progress.readLong name value).bind (·.readAll rest)
    | .short letters => (progress.readShort letters).bind (·.readAll rest)
    | .word => (progress.readWord argument).bind (·.readAll rest)

end Progress

def options (arguments : List String) : Except Refusal Options :=
  (Progress.start.readAll arguments).bind fun given =>
    match Options.ofGiven? given with
    | none => .error .missingArgument
    | some options => .ok options

def help (arguments : List String) : Refusal :=
  match arguments with
  | [] => .help .program
  | ["retarget"] => .help .full
  | ["help"] => .help .help
  | _ => .invalidSubcommand

def programShort : Text → Refusal
  | 'h' :: _ => .help .program
  | 'V' :: _ => .version
  | _ => .unknownArgument

def programLong (name : String) (value : Option String) : Refusal :=
  if name = "help" then (if value.isSome then .tooManyValues else .help .program)
  else if name = "version" then (if value.isSome then .tooManyValues else .version)
  else .unknownArgument

def read : List String → Except Refusal Options
  | [] => .error .bareCommand
  | argument :: rest =>
    if argument = "retarget" then options rest
    else if argument = "help" then .error (help rest)
    else match shape argument with
      | .endOfOptions =>
        match rest with
        | [] => .error .bareCommand
        | word :: _ =>
          .error (if word = "retarget" ∨ word = "help" then .unknownArgument
            else .invalidSubcommand)
      | .long name value => .error (programLong name value)
      | .short letters => .error (programShort letters)
      | .word => .error .invalidSubcommand

end Arguments

end Reroot
