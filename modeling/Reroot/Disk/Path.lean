import Reroot.Text.Space

set_option autoImplicit false

namespace Reroot.Path

-- A step of a path. A dot is a step of its own only where a relative path begins with it.
inductive Component where
  | root
  | here
  | up
  | name (text : Text)
deriving DecidableEq, Repr

def pieces : Text → List Text
  | [] => [[]]
  | '/' :: rest => [] :: pieces rest
  | c :: rest =>
    match pieces rest with
    | [] => [[c]]
    | first :: others => (c :: first) :: others

def isAbsolute (path : Text) : Bool := path.head? == some '/'

def Component.ofPiece? (isFirst : Bool) (piece : Text) : Option Component :=
  if piece.isEmpty then none
  else if piece == ['.'] then (if isFirst then some .here else none)
  else if piece == ['.', '.'] then some .up
  else some (.name piece)

def components (path : Text) : List Component :=
  match pieces path with
  | [] => []
  | first :: rest =>
    (if isAbsolute path then [.root] else (Component.ofPiece? true first).toList) ++
      rest.filterMap (Component.ofPiece? false)

def Component.text : Component → Text
  | root => []
  | here => ['.']
  | up => ['.', '.']
  | name text => text

def moves (path : Text) : List Text :=
  (pieces path).filter fun piece => !piece.isEmpty && piece != ['.']

def endsInDot (path : Text) : Bool := ((pieces path).filter (!·.isEmpty)).getLast? == some ['.']

def ofComponents (steps : List Component) : Text :=
  if steps == [.root] then ['/'] else ['/'].intercalate (steps.map Component.text)

def ancestors (path : Text) : List Text :=
  let steps := components path
  ((List.range steps.length).reverse.filter (· != 0)).map fun count =>
    ofComponents (steps.take count)

def join (folder path : Text) : Text :=
  if isAbsolute path || folder.isEmpty then path
  else if folder.getLast? == some '/' then folder ++ path
  else folder ++ '/' :: path

end Reroot.Path
