set_option autoImplicit false

namespace Reroot

abbrev Text := List Char

-- A scanner gives what it read and the text after it, or nothing when its form is not there.
abbrev Scan (α : Type) := Text → Option (α × Text)

namespace Text

def isBlank (c : Char) : Bool := c == ' ' || c == '\t'

def isPrintable (c : Char) : Bool := c == '\t' || (decide (0x20 ≤ c.toNat) && c.toNat != 0x7F)

def upTo (source rest : Text) : Text := source.take (source.length - rest.length)

theorem up_to_append (taken rest : Text) : upTo (taken ++ rest) rest = taken := by
  simp [upTo]

def blanks (source : Text) : Text × Text :=
  (source.takeWhile isBlank, source.dropWhile isBlank)

def lineEnd : Text → Option Text
  | '\n' :: rest => some rest
  | '\r' :: '\n' :: rest => some rest
  | _ => none

-- Text between two tokens where lines may break: blanks, line ends and comments.
-- Carriage returns are left out, so every line end reads as a newline.
def gapFrom (inComment : Bool) : Scan Text
  | [] => some ([], [])
  | '\n' :: rest => (gapFrom false rest).map fun (gap, after) => ('\n' :: gap, after)
  | '\r' :: '\n' :: rest => (gapFrom false rest).map fun (gap, after) => ('\n' :: gap, after)
  | c :: rest =>
    if inComment then
      if isPrintable c then (gapFrom true rest).map fun (gap, after) => (c :: gap, after)
      else none
    else if isBlank c then (gapFrom false rest).map fun (gap, after) => (c :: gap, after)
    else if c == '#' then (gapFrom true rest).map fun (gap, after) => (c :: gap, after)
    else some ([], c :: rest)

def gap : Scan Text := gapFrom false

def restOfLine (source : Text) : Option (Text × Text) :=
  let (space, rest) := blanks source
  let (comment, rest) :=
    if rest.head? = some '#' then (rest.takeWhile isPrintable, rest.dropWhile isPrintable)
    else ([], rest)
  match rest with
  | [] => some (space ++ comment, [])
  | _ => (lineEnd rest).map fun after => (space ++ comment, after)

end Text

end Reroot
