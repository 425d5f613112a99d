import Reroot.Text.Quoted

set_option autoImplicit false

namespace Reroot.Text.Number

def isDecimal (c : Char) : Bool := c.isDigit

def isOctal (c : Char) : Bool := decide ('0' ≤ c) && decide (c ≤ '7')

def isBinary (c : Char) : Bool := c == '0' || c == '1'

def isHex (c : Char) : Bool := (Quoted.hexDigit? c).isSome

def groupedAfter (isDigit : Char → Bool) : Text → Bool
  | [] => true
  | '_' :: c :: rest => isDigit c && groupedAfter isDigit rest
  | c :: rest => isDigit c && groupedAfter isDigit rest

def grouped (isDigit : Char → Bool) : Text → Bool
  | [] => false
  | c :: rest => isDigit c && groupedAfter isDigit rest

def value (base : Nat) (digits : Text) : Nat :=
  digits.foldl (fun n c => match Quoted.hexDigit? c with
    | some digit => n * base + digit
    | none => n) 0

def isWhole (digits : Text) : Bool :=
  grouped isDecimal digits && (digits.head? != some '0' || digits.length == 1)

def inRange (n : Int) : Option Int :=
  if -0x8000000000000000 ≤ n ∧ n < 0x8000000000000000 then some n else none

def unsigned? (base : Nat) (isDigit : Char → Bool) (digits : Text) : Option Int :=
  if grouped isDigit digits then inRange (value base digits) else none

def whole? (negative : Bool) (digits : Text) : Option Int :=
  if isWhole digits then
    inRange (if negative then -(value 10 digits : Int) else (value 10 digits : Int))
  else none

def integer? : Text → Option Int
  | '0' :: 'x' :: digits => unsigned? 16 isHex digits
  | '0' :: 'o' :: digits => unsigned? 8 isOctal digits
  | '0' :: 'b' :: digits => unsigned? 2 isBinary digits
  | '+' :: digits => whole? false digits
  | '-' :: digits => whole? true digits
  | digits => whole? false digits

-- Whether `significand * 10 ^ exponent` rounds to a finite double: it must lie below the middle
-- between the largest double and the next power of two. The number of digits settles all but the
-- close cases, so that no huge power is computed.
def isFinite (digits : Text) (exponent : Int) : Bool :=
  let significand := value 10 digits
  let size := ((digits.filter isDecimal).dropWhile (· == '0')).length + exponent
  let bound := Nat.pow 2 1024 - Nat.pow 2 970
  if significand == 0 || decide (size ≤ 308) then true
  else if decide (310 < size) then false
  else if 0 ≤ exponent then decide (significand * Nat.pow 10 exponent.toNat < bound)
  else decide (significand < bound * Nat.pow 10 (-exponent).toNat)

def dropSign : Text → Text
  | '+' :: rest => rest
  | '-' :: rest => rest
  | text => text

def exponent? (text : Text) : Option Int :=
  let digits := dropSign text
  if grouped isDecimal digits then
    some (if text.head? == some '-' then -(value 10 digits : Int) else (value 10 digits : Int))
  else none

def tail? : Text → Option (Text × Int)
  | '.' :: rest =>
    let fraction := rest.takeWhile (fun c => isDecimal c || c == '_')
    if grouped isDecimal fraction then
      match rest.dropWhile (fun c => isDecimal c || c == '_') with
      | [] => some (fraction, 0)
      | 'e' :: power => (exponent? power).map (fraction, ·)
      | 'E' :: power => (exponent? power).map (fraction, ·)
      | _ => none
    else none
  | 'e' :: power => (exponent? power).map ([], ·)
  | 'E' :: power => (exponent? power).map ([], ·)
  | _ => none

def isFloat (token : Text) : Bool :=
  let unsigned := dropSign token
  if unsigned == ['i', 'n', 'f'] || unsigned == ['n', 'a', 'n'] then true
  else
    let whole := unsigned.takeWhile (fun c => isDecimal c || c == '_')
    isWhole whole &&
      match tail? (unsigned.dropWhile (fun c => isDecimal c || c == '_')) with
      | some (fraction, exponent) =>
        isFinite (whole ++ fraction) (exponent - (fraction.filter isDecimal).length)
      | none => false

end Reroot.Text.Number
