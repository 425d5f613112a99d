import Reroot.Disk.Change
import Reroot.Run

set_option autoImplicit false

namespace Reroot.Program

def pathTo (place : Place) : String := "/" ++ "/".intercalate place

def reach (options : Options) : List String :=
  let staging := match options.source with
    | .checkout _ => []
    | .remote origin => [origin.stagingDir]
  staging ++ [options.source.manifestPath, options.fragment, options.output]

def look (place : Place) : IO (Option Item) := do
  try
    let bytes ← IO.FS.readBinFile (pathTo place)
    return some (.file (.ofBytes bytes.data.toList))
  catch
    | .noFileOrDirectory .. => return none
    | _ => return some .folder

def survey (options : Options) : IO Disk := do
  let working := ((← IO.currentDir).toString.splitOn "/").filter (· != "")
  let mut disk : Disk := ⟨working, []⟩
  for count in List.range working.length do
    disk := disk.set (working.take (count + 1)) .folder
  for place in (reach options).flatMap disk.way do
    if (disk.item? place).isNone then
      if let some item ← look place then disk := disk.set place item
  return disk

def carryOut (before after : Disk) : IO Unit := do
  for (place, item) in after.items do
    if before.item? place != some item then
      match item with
      | .folder => IO.FS.createDir (pathTo place)
      | .file (.text text) => IO.FS.writeFile (pathTo place) text
      | .file (.bytes bytes) => IO.FS.writeBinFile (pathTo place) ⟨bytes.toArray⟩

end Reroot.Program

open Reroot in
def main (arguments : List String) : IO UInt32 := do
  let before ← match Arguments.read arguments with
    | .ok options => Program.survey options
    | .error _ => pure ⟨[], []⟩
  let done := call arguments (some .info) false before
  Program.carryOut before done.disk
  IO.print done.printed
  IO.eprint done.errors
  return UInt32.ofNat done.code
