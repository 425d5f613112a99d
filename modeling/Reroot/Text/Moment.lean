import Reroot.Text.Space

set_option autoImplicit false

namespace Reroot.Text.Moment

def digit (c : Char) : Option Nat := if c.isDigit then some (c.toNat - '0'.toNat) else none

def pair : Scan Nat
  | a :: b :: rest => do return ((← digit a) * 10 + (← digit b), rest)
  | _ => none

def between (low high : Nat) (text : Text) : Option (Nat × Text) :=
  (pair text).filter fun (n, _) => decide (low ≤ n) && decide (n ≤ high)

def mark (c : Char) : Text → Option Text
  | d :: rest => if c == d then some rest else none
  | [] => none

def isLeap (year : Nat) : Bool := year % 4 == 0 && (year % 100 != 0 || year % 400 == 0)

def daysIn (year month : Nat) : Nat :=
  match month with
  | 2 => if isLeap year then 29 else 28
  | 4 | 6 | 9 | 11 => 30
  | _ => 31

def date (text : Text) : Option Text := do
  let (century, text) ← pair text
  let (year, text) ← pair text
  let (month, text) ← between 1 12 (← mark '-' text)
  let (_, text) ← between 1 (daysIn (century * 100 + year) month) (← mark '-' text)
  return text

-- A time of day. The seconds may be left out, may count a leap second, and may have a fraction.
def clock (text : Text) : Option Text := do
  let (_, text) ← between 0 23 text
  let (_, text) ← between 0 59 (← mark ':' text)
  match mark ':' text with
  | none => return text
  | some text =>
    let (_, text) ← between 0 60 text
    match mark '.' text with
    | none => return text
    | some text =>
      if (text.head?.map Char.isDigit).getD false then return text.dropWhile Char.isDigit else none

def offset : Text → Option Text
  | 'Z' :: rest => some rest
  | 'z' :: rest => some rest
  | c :: rest => do
    if c == '+' || c == '-' then
      let (_, rest) ← between 0 23 rest
      let (_, rest) ← between 0 59 (← mark ':' rest)
      return rest
    else none
  | [] => none

def afterDate : Text → Bool
  | [] => true
  | c :: rest =>
    (c == 'T' || c == 't' || c == ' ') &&
      match clock rest with
      | some [] => true
      | some rest => offset rest == some []
      | none => false

def isMoment (text : Text) : Bool :=
  match date text with
  | some rest => afterDate rest
  | none => clock text == some []

def isDate (text : Text) : Bool := date text == some []

end Reroot.Text.Moment
