import Reroot.Text.Control

set_option autoImplicit false

namespace Reroot

inductive Level where
  | warn
  | info
  | debug
  | trace
deriving DecidableEq, Repr

namespace Level

def name : Level → String
  | warn => "WARN"
  | info => "INFO"
  | debug => "DEBUG"
  | trace => "TRACE"

def detail : Level → Nat
  | warn => 1
  | info => 2
  | debug => 3
  | trace => 4

end Level

inductive Topic where
  | run
  | source
  | workspace
  | dependencies
  | fragment
  | output
deriving DecidableEq, Repr

def Topic.name : Topic → String
  | run => "cargo_retarget::command::generate"
  | source => "cargo_retarget::source"
  | workspace => "cargo_retarget::ops::workspace"
  | dependencies => "cargo_retarget::ops::rewrite"
  | fragment => "cargo_retarget::ops::merge"
  | output => "cargo_retarget::ops::emit"

structure Record where
  level : Level
  topic : Topic
  message : String
deriving DecidableEq, Repr

namespace Record

def upTo (threshold : Option Level) (records : List Record) : List Record :=
  records.filter fun record =>
    match threshold with
    | none => false
    | some level => decide (record.level.detail ≤ level.detail)

def body (record : Record) : String := "\n    ".intercalate (record.message.splitOn "\n")

def line (record : Record) : String :=
  let level := record.level.name
  let column := level ++ String.ofList (List.replicate (5 - level.length) ' ')
  Text.Control.plain
    ("[" ++ column ++ " " ++ record.topic.name ++ "] " ++ record.body ++ "\n")

end Record

end Reroot
