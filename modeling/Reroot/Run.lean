import Reroot.CommandLine.Help
import Reroot.Document.Printer
import Reroot.Manifest.Summary
import Reroot.Style

set_option autoImplicit false

namespace Reroot

namespace Document

def emit (document : Document) (output : String) (dryRun : Bool) (disk : Disk)
    (storage : Storage := .sound) : Job Unit :=
  let text := document.render
  if dryRun then
    ⟨.ok (), disk, text, [⟨.info, .output, "Would write: " ++ output⟩]⟩
  else match disk.writeText output text storage with
    | (disk, some fault) => .done (.error (.write output fault)) disk
    | (disk, none) => (Job.done (.ok ()) disk).after [⟨.debug, .output, "Wrote: " ++ output⟩]

def standAloneJob (document : Document) (target : Target) (fragment : Document)
    (removals : List String) (disk : Disk) : Job (Document × Summary) :=
  match document.standAlone target fragment removals with
  | (_, .error stuck) => (Job.done (.error (.pathNotString stuck.key)) disk).after stuck.log
  | (document, .ok summary) => (Job.done (.ok (document, summary)) disk).after summary.log

end Document

namespace Source

def describe : Source → String
  | checkout root => "local checkout " ++ root
  | remote origin => origin.repository ++ "@" ++ origin.commit

end Source

namespace Summary

def print (summary : Summary) (source : Source) (output : String) (color : Bool) : String :=
  let moved := summary.workspace.keys.moved
  let skipped := summary.fragment.skipped
  Style.done.paint color "Rewrote" ++ " " ++
    Style.count.paint color (toString summary.redirected.length) ++ " path dependencies → " ++
    source.describe ++ "\n" ++
  (if moved.isEmpty then ""
  else Style.done.paint color "Flattened" ++ " workspace keys: " ++ ", ".intercalate moved ++
    "\n") ++
  (if summary.removed.isEmpty then ""
  else Style.notice.paint color "Removed" ++ " " ++ ", ".intercalate summary.removed ++ "\n") ++
  (if skipped.isEmpty then ""
  else Style.notice.paint color "Skipped" ++ " fragment sections: " ++ ", ".intercalate skipped ++
    "\n") ++
  Style.done.paint color "✓ Wrote" ++ " " ++ output ++ "\n"

end Summary

namespace Options

def opening (options : Options) : List Record :=
  (if options.agavePath.isSome && options.commit.isSome then
    [⟨.warn, .run, "Both --agave-path and --commit given; using the local checkout"⟩]
  else []) ++ [⟨.debug, .run, "Source manifest: " ++ options.source.manifestPath⟩]

def report (options : Options) (color : Bool) (summary : Summary) (disk : Disk) : Job Unit :=
  if options.dryRun then
    (Job.done (.ok ()) disk).after [⟨.info, .run, toString summary.redirected.length ++
      " path dependencies rewritten, " ++ toString summary.removed.length ++ " removed"⟩]
  else ⟨.ok (), disk, summary.print options.source options.output color, []⟩

def run (options : Options) (color : Bool) (disk : Disk) (storage : Storage := .sound) : Job Unit :=
  ((options.source.acquire disk).andThen fun document disk =>
    (Job.done (readDocument options.fragment disk) disk).andThen fun fragment disk =>
    (document.standAloneJob options.source.target fragment options.removals disk).andThen
      fun (document, summary) disk =>
    (document.emit options.output options.dryRun disk storage).andThen fun _ disk =>
    options.report color summary disk).after options.opening

end Options

structure Exit where
  code : Nat
  printed : String
  errors : String
  disk : Disk

def call (arguments : List String) (threshold : Option Level) (color : Bool) (disk : Disk)
    (storage : Storage := .sound) : Exit :=
  match Arguments.read arguments with
  | .error (.help page) => ⟨0, page.text color, "", disk⟩
  | .error .version => ⟨0, "cargo-retarget " ++ version ++ "\n", "", disk⟩
  | .error _ => ⟨2, "", "", disk⟩
  | .ok options =>
    let job := options.run color disk storage
    let log := "".intercalate ((Record.upTo threshold job.log).map Record.line)
    match job.result with
    | .ok () => ⟨0, job.printed, log, job.disk⟩
    | .error failure => ⟨1, job.printed, log ++ "Error: " ++ failure.message ++ "\n", job.disk⟩

end Reroot
