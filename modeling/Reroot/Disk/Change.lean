import Reroot.Disk.Basic

set_option autoImplicit false

namespace Reroot

def Path.IsPrefix (first path : Text) : Prop := components first <+: components path

instance (first path : Text) : Decidable (Path.IsPrefix first path) :=
  inferInstanceAs (Decidable (_ <+: _))

namespace Disk

def place? (disk : Disk) (path : String) : Option Place :=
  match disk.resolve path with
  | .ok (.folder place) => some place
  | .ok (.named parent name _) => some (parent ++ [name])
  | .error _ => none

def start (disk : Disk) (path : String) : Place :=
  if Path.isAbsolute path.toList then [] else disk.working

def passed (place : Place) : List Text → List Place
  | [] => []
  | piece :: rest =>
    if piece == ['.', '.'] then passed place.dropLast rest
    else (place ++ [String.ofList piece]) :: passed (place ++ [String.ofList piece]) rest

def way (disk : Disk) (path : String) : List Place :=
  passed (disk.start path) (Path.moves path.toList)

-- The places on the way to a path that can be made if they are missing. What stands before a dot at
-- the end of a path is not asked for by itself, so it has to be there.
def makable (disk : Disk) (path : String) : List Place :=
  passed (disk.start path) (if Path.endsInDot path.toList then (Path.moves path.toList).dropLast
    else Path.moves path.toList)

-- A place has what it had, or is a new folder on the way to one of some paths.
def Keeps (paths : List String) (before after : Disk) (place : Place) : Prop :=
  after.item? place = before.item? place ∨
    before.item? place = none ∧ after.item? place = some .folder ∧
      ∃ path ∈ paths, ∃ first : String, Path.IsPrefix first.toList path.toList ∧
        after.place? first = some place

end Disk

end Reroot
