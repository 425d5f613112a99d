import Reroot.Document.Assembly
import Reroot.Text.Moment
import Reroot.Text.Number

set_option autoImplicit false

namespace Reroot

namespace Reader

open Text

def limit : Nat := 80

def simpleKey (source : Text) : Option (Key × Text) :=
  match source with
  | [] => none
  | c :: _ =>
    if c == '"' || c == '\'' then
      (Quoted.oneLine source).map fun (name, rest) =>
        (⟨String.ofList name, some (upTo source rest), .unset, .unset⟩, rest)
    else
      let name := source.takeWhile Spelling.isBare
      if name.isEmpty then none
      else some (⟨String.ofList name, some name, .unset, .unset⟩, source.dropWhile Spelling.isBare)

def keysFrom : Nat → Text → Text → Option (List Key × Key × Text × Text)
  | 0, _, _ => none
  | limit + 1, before, source => do
    let (key, rest) ← simpleKey source
    let (after, rest) := blanks rest
    match rest with
    | '.' :: rest =>
      let (space, rest) := blanks rest
      let (parents, last, outside, rest) ← keysFrom limit space rest
      return ({ key with inner := .around before after } :: parents, last, outside, rest)
    | _ => return ([], { key with inner := .around before [] }, after, rest)

def path (before source : Text) : Option (List Key × Key × Text) := do
  let (parents, key, after, rest) ← keysFrom limit [] source
  return (parents, { key with outer := .around before after }, rest)

def isAtom (c : Char) : Bool :=
  c.isAlphanum || c == '+' || c == '-' || c == '_' || c == '.' || c == ':'

-- A blank joins a date to the time of day after it.
def atom (source : Text) : Text × Text :=
  let first := source.takeWhile isAtom
  match source.dropWhile isAtom with
  | ' ' :: c :: rest =>
    if Moment.isDate first && c.isDigit then
      (first ++ ' ' :: (c :: rest).takeWhile isAtom, (c :: rest).dropWhile isAtom)
    else (first, ' ' :: c :: rest)
  | rest => (first, rest)

def ofAtom (atom : Text) : Option Scalar :=
  if atom == "true".toList then some (.boolean true)
  else if atom == "false".toList then some (.boolean false)
  else match Number.integer? atom with
    | some value => some (.integer value atom)
    | none =>
      if Number.isFloat atom then some (.float atom)
      else if Moment.isMoment atom then some (.moment atom)
      else none

def scalar (source : Text) : Option (Node × Text) :=
  match Quoted.string source with
  | some (value, rest) =>
    some (.scalar .unset (.string (String.ofList value) (some (upTo source rest))), rest)
  | none =>
    let (first, rest) := atom source
    (ofAtom first).map fun value => (.scalar .unset value, rest)

def elements (value : Scan Node) : Nat → Bool → Text → Option (Nodes × Bool × Text × Text)
  | 0, _, _ => none
  | bound + 1, hasComma, source => do
    let (before, rest) ← gap source
    match rest with
    | ']' :: rest => return (.nil, hasComma, before, rest)
    | _ =>
      let (node, rest) ← value rest
      let (after, rest) ← gap rest
      let node := node.withMargin (.around before after)
      match rest with
      | ']' :: rest => return (.cons node .nil, false, [], rest)
      | ',' :: rest =>
        let (nodes, hasComma, trailing, rest) ← elements value bound true rest
        return (.cons node nodes, hasComma, trailing, rest)
      | _ => none

def fields (value : Scan Node) : Nat → Text → Option (List Field × Text × Text)
  | 0, _ => none
  | bound + 1, source => do
    let (before, rest) ← gap source
    match rest with
    | '\x7d' :: rest => return ([], before, rest)
    | _ =>
      let (parents, key, rest) ← path before rest
      -- Lines may break on both sides of the equals sign here.
      let (more, rest) ← gap rest
      match rest with
      | '=' :: rest =>
        let key := { key with outer := .around before (key.outer.after.getD [] ++ more) }
        let (before, rest) ← gap rest
        let (node, rest) ← value rest
        let (after, rest) ← gap rest
        let field : Field := ⟨parents, key, node.withMargin (.around before after)⟩
        match rest with
        | '\x7d' :: rest => return ([field], [], rest)
        | ',' :: rest =>
          let (others, preamble, rest) ← fields value bound rest
          return (field :: others, preamble, rest)
        | _ => none
      | _ => none

def value : Nat → Scan Node
  | 0, source => scalar source
  | depth + 1, source =>
    match source with
    | '[' :: rest => do
      let (nodes, finalComma, trailing, rest) ← elements (value depth) (rest.length + 1) false rest
      return (.array ⟨.unset, trailing, finalComma⟩ nodes, rest)
    | '\x7b' :: rest => do
      let (parts, preamble, rest) ← fields (value depth) (rest.length + 1) rest
      let entries ← Entries.ofFields? parts
      return (.inline ⟨.unset, preamble, false, false⟩ entries, rest)
    | _ => scalar source

def header (isElement : Bool) (before source : Text) : Option (Statement × Text) := do
  let (space, rest) := blanks source
  let (parents, key, rest) ← path space rest
  let rest ← match isElement, rest with
    | true, ']' :: ']' :: rest => some rest
    | false, ']' :: rest => some rest
    | _, _ => none
  let (after, rest) ← restOfLine rest
  return (.header ⟨parents, key, isElement, .around before after⟩, rest)

def field (before source : Text) : Option (Statement × Text) := do
  let (parents, key, rest) ← path before source
  match rest with
  | '=' :: rest =>
    let (before, rest) := blanks rest
    let (node, rest) ← value limit rest
    let (after, rest) ← restOfLine rest
    return (.field ⟨parents, key, node.withMargin (.around before after)⟩, rest)
  | _ => none

def statement (before source : Text) : Option (Statement × Text) :=
  match source with
  | '[' :: '[' :: rest => header true before rest
  | '[' :: rest => header false before rest
  | _ => field before source

def statements : Nat → Text → Option (List Statement × Text)
  | 0, _ => none
  | bound + 1, source => do
    let (before, rest) ← gap source
    match rest with
    | [] => return ([], before)
    | _ =>
      let (first, rest) ← statement before rest
      let (others, trailing) ← statements bound rest
      return (first :: others, trailing)

end Reader

def Document.ofText? (source : Text) : Option Document := do
  let source := if source.head? == some '\uFEFF' then source.tail else source
  let (statements, trailing) ← Reader.statements (source.length + 1) source
  return ⟨← Entries.ofStatements? statements, trailing⟩

def Document.parse? (source : String) : Option Document := Document.ofText? source.toList

end Reroot
