import Reroot.Text.Space

set_option autoImplicit false

namespace Reroot.Text.Quoted

def hexDigit? (c : Char) : Option Nat :=
  if '0' ≤ c ∧ c ≤ '9' then some (c.toNat - '0'.toNat)
  else if 'a' ≤ c ∧ c ≤ 'f' then some (c.toNat - 'a'.toNat + 10)
  else if 'A' ≤ c ∧ c ≤ 'F' then some (c.toNat - 'A'.toNat + 10)
  else none

def hexValue (digits : Text) : Option Nat :=
  digits.foldl (fun value c => do return (← value) * 16 + (← hexDigit? c)) (some 0)

def charOf (value : Nat) : Option Char :=
  if value.isValidChar then some (Char.ofNat value) else none

def shortEscape : Char → Option Char
  | 'b' => some '\x08'
  | 't' => some '\t'
  | 'n' => some '\n'
  | 'f' => some '\x0C'
  | 'r' => some '\r'
  | 'e' => some '\x1B'
  | '"' => some '"'
  | '\\' => some '\\'
  | _ => none

def numbered (digits : Text) : Option Char := (hexValue digits).bind charOf

def put (c : Option Char) (read : Option (Text × Text)) : Option (Text × Text) :=
  match c, read with
  | some c, some (text, rest) => some (c :: text, rest)
  | _, _ => none

def basic : Scan Text
  | [] => none
  | '"' :: rest => some ([], rest)
  | '\\' :: 'x' :: a :: b :: rest => put (numbered [a, b]) (basic rest)
  | '\\' :: 'u' :: a :: b :: c :: d :: rest => put (numbered [a, b, c, d]) (basic rest)
  | '\\' :: 'U' :: a :: b :: c :: d :: e :: f :: g :: h :: rest =>
    put (numbered [a, b, c, d, e, f, g, h]) (basic rest)
  | '\\' :: c :: rest => put (shortEscape c) (basic rest)
  | c :: rest => if isPrintable c then put (some c) (basic rest) else none

def plain : Scan Text
  | [] => none
  | '\'' :: rest => some ([], rest)
  | c :: rest => if isPrintable c then put (some c) (plain rest) else none

-- A backslash at the end of a line drops all blanks and line ends up to the next other character.
def breaksLine (rest : Text) : Bool := (lineEnd (rest.dropWhile isBlank)).isSome

-- The body of a multi-line string with escapes. Up to two quotes may stand before the closing
-- three; `joining` holds while blanks and line ends are being dropped.
def basicLines (joining : Bool) : Scan Text
  | [] => none
  | '"' :: '"' :: '"' :: '"' :: '"' :: rest => some (['"', '"'], rest)
  | '"' :: '"' :: '"' :: '"' :: rest => some (['"'], rest)
  | '"' :: '"' :: '"' :: rest => some ([], rest)
  | '\n' :: rest =>
    if joining then basicLines true rest else put (some '\n') (basicLines false rest)
  | '\r' :: '\n' :: rest =>
    if joining then basicLines true rest
    else put (some '\r') (put (some '\n') (basicLines false rest))
  | '\\' :: 'x' :: a :: b :: rest => put (numbered [a, b]) (basicLines false rest)
  | '\\' :: 'u' :: a :: b :: c :: d :: rest => put (numbered [a, b, c, d]) (basicLines false rest)
  | '\\' :: 'U' :: a :: b :: c :: d :: e :: f :: g :: h :: rest =>
    put (numbered [a, b, c, d, e, f, g, h]) (basicLines false rest)
  | '\\' :: c :: rest =>
    if breaksLine (c :: rest) then
      -- The character after the backslash is a blank or begins the line end.
      if c == '\n' || isBlank c || c == '\r' then basicLines true rest else none
    else put (shortEscape c) (basicLines false rest)
  | c :: rest =>
    if joining && isBlank c then basicLines true rest
    else if isPrintable c then put (some c) (basicLines false rest)
    else none

def plainLines : Scan Text
  | [] => none
  | '\'' :: '\'' :: '\'' :: '\'' :: '\'' :: rest => some (['\'', '\''], rest)
  | '\'' :: '\'' :: '\'' :: '\'' :: rest => some (['\''], rest)
  | '\'' :: '\'' :: '\'' :: rest => some ([], rest)
  | '\n' :: rest => put (some '\n') (plainLines rest)
  | '\r' :: '\n' :: rest => put (some '\r') (put (some '\n') (plainLines rest))
  | c :: rest => if isPrintable c then put (some c) (plainLines rest) else none

def skipLineEnd (rest : Text) : Text := (lineEnd rest).getD rest

def string : Scan Text
  | '"' :: '"' :: '"' :: rest => basicLines false (skipLineEnd rest)
  | '\'' :: '\'' :: '\'' :: rest => plainLines (skipLineEnd rest)
  | '"' :: rest => basic rest
  | '\'' :: rest => plain rest
  | _ => none

def oneLine : Scan Text
  | '"' :: '"' :: '"' :: _ => none
  | '\'' :: '\'' :: '\'' :: _ => none
  | '"' :: rest => basic rest
  | '\'' :: rest => plain rest
  | _ => none

end Reroot.Text.Quoted
