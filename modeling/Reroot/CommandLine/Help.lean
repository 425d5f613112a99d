import Reroot.CommandLine.Arguments
import Reroot.Style

set_option autoImplicit false

namespace Reroot

def version : String := "0.1.0"

namespace Help

inductive Label where
  | option (short : Option String) (long : String) (value : Option String)
  | command (name : String)
  | argument (name : String)

def Label.text (color : Bool) : Label → String
  | option short long value =>
    let short := match short with
      | some letter => Style.literal.paint color ("-" ++ letter) ++ ", "
      | none => "    "
    let value := (value.map fun value => " <" ++ value ++ ">").getD ""
    short ++ Style.literal.paint color ("--" ++ long) ++ value
  | command name => Style.literal.paint color name
  | argument name => "[" ++ name ++ "]..."

def Label.width (label : Label) : Nat := (label.text false).length

structure Row where
  label : Label
  help : String
  note : Option String
  preset : Option String

def about : String :=
  "Retarget path dependencies of a workspace manifest to a git revision or a local checkout"

def rows : List Row := [
  ⟨.option (some "c") "commit" (some "REV"),
    "Revision of the remote repository to pin path dependencies to", none, none⟩,
  ⟨.option (some "p") "agave-path" (some "DIR"),
    "Local checkout to read the manifest from (takes precedence over --commit)",
    some "Path dependencies are rewritten to `<DIR>/<original path>`.", none⟩,
  ⟨.option (some "o") "output" (some "FILE"),
    "Where to write the generated manifest", none, none⟩,
  ⟨.option none "fragment" (some "FILE"),
    "Manifest fragment merged into the output", none, some Fragment.defaultFile⟩,
  ⟨.option none "staging-dir" (some "DIR"),
    "Directory the remote manifest is downloaded into", none, some Remote.defaultStagingDir⟩,
  ⟨.option none "repository" (some "REPO"),
    "Remote repository as `owner/name`", none, some Remote.defaultRepository⟩,
  ⟨.option none "raw-base-url" (some "URL"),
    "Host serving raw repository files", none, some Remote.defaultRawBaseUrl⟩,
  ⟨.option none "remove-dependency" (some "NAME"),
    "Additional dependency to strip from [dependencies] (repeatable)",
    some ("Always stripped: " ++ ", ".intercalate deniedDependencies), none⟩,
  ⟨.option none "strict" none,
    "Abort when the download fails instead of using the staged manifest", none, none⟩,
  ⟨.option (some "n") "dry-run" none,
    "Print the generated manifest instead of writing it", none, none⟩]

def spaces (count : Nat) : String := String.ofList (List.replicate count ' ')

def columns : Nat := 100

def fill (width : Nat) (line : String) : List String → List String
  | [] => [line]
  | word :: rest =>
    if line.length + 1 + word.length ≤ width then fill width (line ++ " " ++ word) rest
    else line :: fill width word rest

def wrap (width : Nat) (text : String) : List String :=
  match (text.splitOn " ") with
  | [] => []
  | first :: rest => fill width first rest

def paragraph (indent : Nat) (text : String) : String :=
  ("\n" ++ spaces indent).intercalate (wrap (columns - indent) text)

def table (color : Bool) (rows : List Row) : String :=
  let width := (rows.map (·.label.width)).foldl max 0
  let line (row : Row) : String :=
    let preset := (row.preset.map fun value => " [default: " ++ value ++ "]").getD ""
    "  " ++ row.label.text color ++ spaces (width + 2 - row.label.width) ++
      paragraph (width + 4) (row.help ++ preset) ++ "\n"
  "".intercalate (rows.map line)

def sheet (color : Bool) (rows : List Row) : String :=
  let part (row : Row) : String :=
    let preset := row.preset.map fun value => "[default: " ++ value ++ "]"
    let paragraphs := row.help :: row.note.toList ++ preset.toList
    "  " ++ row.label.text color ++ "\n" ++ spaces 10 ++
      ("\n" ++ spaces 10 ++ "\n" ++ spaces 10).intercalate (paragraphs.map (paragraph 10)) ++ "\n"
  "\n".intercalate (rows.map part)

def usage (color : Bool) (name rest : String) : String :=
  Style.heading.paint color "Usage:" ++ " " ++ Style.literal.paint color name ++ " " ++ rest ++ "\n"

def part (color : Bool) (title entries : String) : String :=
  "\n" ++ Style.heading.paint color (title ++ ":") ++ "\n" ++ entries

def helpRow (pointer : String) : Row :=
  ⟨.option (some "h") "help" none, "Print help" ++ pointer, none, none⟩

def versionRow : Row := ⟨.option (some "V") "version" none, "Print version", none, none⟩

def retarget (color : Bool) (options : String) : String :=
  let output := Style.literal.paint color "--output"
  about ++ "\n\n" ++ usage color "cargo retarget" ("[OPTIONS] " ++ output ++ " <FILE>") ++
    part color "Options" options

def helpCommand : String := "Print this message or the help of the given subcommand(s)"

end Help

def HelpPage.text (color : Bool) : HelpPage → String
  | program =>
    let commands := [⟨.command "retarget", Help.about, none, none⟩,
      ⟨.command "help", Help.helpCommand, none, none⟩]
    Help.usage color "cargo" "<COMMAND>" ++
      Help.part color "Commands" (Help.table color commands) ++
      Help.part color "Options" (Help.table color [Help.helpRow "", Help.versionRow])
  | brief =>
    let rows := Help.rows ++ [Help.helpRow " (see more with '--help')"]
    Help.retarget color (Help.table color rows)
  | full =>
    let rows := Help.rows ++ [Help.helpRow " (see a summary with '-h')"]
    Help.retarget color (Help.sheet color rows)
  | help =>
    let command := ⟨.argument "COMMAND", "Print help for the subcommand(s)", none, none⟩
    Help.helpCommand ++ "\n\n" ++ Help.usage color "cargo help" "[COMMAND]..." ++
      Help.part color "Arguments" (Help.table color [command])

end Reroot
