import Reroot.Disk.Path

/-!
Files and folders by their place, with a working folder that relative paths start from. There are no
links, permissions or special files, and paths are Unicode text. A device may stop in the middle of a
file that is written (`Storage`); it never fails to open or read a file or to make a folder.
-/

set_option autoImplicit false

namespace Reroot

inductive Stop where
  | full
  | overQuota
  | tooLarge
  | broken
deriving DecidableEq, Repr

def Stop.message : Stop → String
  | full => "No space left on device (os error 28)"
  | overQuota => "Disk quota exceeded (os error 122)"
  | tooLarge => "File too large (os error 27)"
  | broken => "Input/output error (os error 5)"

-- A stop comes in the middle of a write; every other fault comes before anything is changed.
inductive Fault where
  | missing
  | taken
  | notFolder
  | isFolder
  | notText
  | stopped (stop : Stop)
deriving DecidableEq, Repr

def Fault.message : Fault → String
  | missing => "No such file or directory (os error 2)"
  | taken => "File exists (os error 17)"
  | notFolder => "Not a directory (os error 20)"
  | isFolder => "Is a directory (os error 21)"
  | notText => "stream did not contain valid UTF-8"
  | stopped stop => stop.message

inductive Content where
  | text (text : String)
  | bytes (bytes : List UInt8)
deriving DecidableEq, Repr

def Content.ofBytes (bytes : List UInt8) : Content :=
  match String.fromUTF8? ⟨bytes.toArray⟩ with
  | some decoded => .text decoded
  | none => .bytes bytes

inductive Item where
  | file (content : Content)
  | folder
deriving DecidableEq, Repr

abbrev Place := List String

structure Disk where
  working : Place
  items : List (Place × Item)
deriving DecidableEq, Repr

-- The device under the files: how many bytes of a file it takes before it stops, if it stops.
structure Storage where
  stop? (place : Place) (bytes : List UInt8) : Option (Fin bytes.length × Stop)

def Storage.sound : Storage := ⟨fun _ _ => none⟩

-- Where a path leads: to a folder by a slash or dots at its end, or to a name in a folder, which
-- may be written as that of a folder.
inductive Spot where
  | folder (place : Place)
  | named (parent : Place) (name : String) (asFolder : Bool)
deriving DecidableEq, Repr

namespace Disk

def item? (disk : Disk) (place : Place) : Option Item :=
  if place = [] then some .folder else disk.items.lookup place

def store (place : Place) (item : Item) : List (Place × Item) → List (Place × Item)
  | [] => [(place, item)]
  | (other, old) :: rest =>
    if other = place then (place, item) :: rest else (other, old) :: store place item rest

def set (disk : Disk) (place : Place) (item : Item) : Disk :=
  { disk with items := store place item disk.items }

def walk (disk : Disk) : Place → List Text → Except Fault Place
  | place, [] => .ok place
  | place, piece :: rest =>
    if piece == ['.'] then disk.walk place rest
    else if piece == ['.', '.'] then disk.walk place.dropLast rest
    else
      let next := place ++ [String.ofList piece]
      match disk.item? next with
      | none => .error .missing
      | some (.file _) => .error .notFolder
      | some .folder => disk.walk next rest

def resolve (disk : Disk) (path : String) : Except Fault Spot :=
  let text := path.toList
  let start := if Path.isAbsolute text then [] else disk.working
  let pieces := (Path.pieces text).filter (!·.isEmpty)
  match pieces.getLast? with
  | none => if text.isEmpty then .error .missing else .ok (.folder [])
  | some last =>
    match disk.walk start pieces.dropLast with
    | .error fault => .error fault
    | .ok parent =>
      if last == ['.'] then .ok (.folder parent)
      else if last == ['.', '.'] then .ok (.folder parent.dropLast)
      else .ok (.named parent (String.ofList last) (text.getLast? == some '/'))

def isFolder (disk : Disk) (path : String) : Bool :=
  match disk.resolve path with
  | .ok (.folder _) => true
  | .ok (.named parent name _) => disk.item? (parent ++ [name]) == some .folder
  | .error _ => false

def readText (disk : Disk) (path : String) : Except Fault String :=
  match disk.resolve path with
  | .error fault => .error fault
  | .ok (.folder _) => .error .isFolder
  | .ok (.named parent name asFolder) =>
    match disk.item? (parent ++ [name]) with
    | none => .error .missing
    | some .folder => .error .isFolder
    | some (.file content) =>
      if asFolder then .error .notFolder
      else match content with
        | .text text => .ok text
        | .bytes _ => .error .notText

-- An old file is gone once it is opened, so a device that stops leaves the first bytes only.
def writeText (disk : Disk) (path text : String) (storage : Storage := .sound) :
    Disk × Option Fault :=
  match disk.resolve path with
  | .error fault => (disk, some fault)
  | .ok (.folder _) => (disk, some .isFolder)
  | .ok (.named parent name asFolder) =>
    let place := parent ++ [name]
    if asFolder || disk.item? place == some .folder then (disk, some .isFolder)
    else
      let bytes := text.toUTF8.data.toList
      match storage.stop? place bytes with
      | none => (disk.set place (.file (.text text)), none)
      | some (count, stop) =>
        (disk.set place (.file (.ofBytes (bytes.take count))), some (.stopped stop))

def makeFolder (disk : Disk) (path : String) : Except Fault Disk :=
  match disk.resolve path with
  | .error fault => .error fault
  | .ok (.folder _) => .error .taken
  | .ok (.named parent name _) =>
    if (disk.item? (parent ++ [name])).isSome then .error .taken
    else .ok (disk.set (parent ++ [name]) .folder)

def ensureFolder (disk : Disk) (path : String) : Except Fault Disk :=
  match disk.makeFolder path with
  | .ok disk => .ok disk
  | .error fault => if disk.isFolder path then .ok disk else .error fault

-- Makes the first folder of a list whose others lead up from it, and those of them that it needs.
-- What was made before a fault stays.
def makeUpwards (disk : Disk) : List String → Disk × Option Fault
  | [] => (disk, none)
  | path :: above =>
    match disk.makeFolder path with
    | .ok disk => (disk, none)
    | .error .missing =>
      let (disk, fault) := disk.makeUpwards above
      match fault with
      | some fault => (disk, some fault)
      | none =>
        match disk.ensureFolder path with
        | .ok disk => (disk, none)
        | .error fault => (disk, some fault)
    | .error fault => (disk, if disk.isFolder path then none else some fault)

def makeFolders (disk : Disk) (path : String) : Disk × Option Fault :=
  if path.isEmpty then (disk, none)
  else disk.makeUpwards (path :: (Path.ancestors path.toList).map String.ofList)

end Disk

end Reroot
