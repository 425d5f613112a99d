import Reroot.Text.Space

set_option autoImplicit false

namespace Reroot.Text.Control

def isSpacing (c : Char) : Bool := c == '\t' || c == '\n' || c == '\x0C' || c == '\r'

def isAscii (c : Char) : Bool := decide (c.toNat < 0x80)

def isShown (c : Char) : Bool :=
  !isAscii c || (decide (0x20 ≤ c.toNat) && c.toNat != 0x7F) || isSpacing c

-- How far a sequence has come. A device string has parameters and further characters in front of
-- its data; `data` also stands for the strings that have data only.
inductive State where
  | ground
  | escape
  | escapeFurther
  | control
  | device
  | deviceParameters
  | deviceFurther
  | data
  | command
deriving DecidableEq, Repr

namespace State

def between (first c last : Char) : Bool := decide (first ≤ c) && decide (c ≤ last)

-- Data ends at the byte of the string terminator, which may be a part of a character.
def endsData (c : Char) : Bool := !isAscii c && (String.utf8EncodeChar c).contains 0x9C

def step (state : State) (c : Char) : State :=
  if c == '\x18' || c == '\x1A' then ground
  else if c == '\x1B' then escape
  else match state with
  | ground => ground
  | escape =>
    if between ' ' c '/' then escapeFurther
    else if c == '[' then control
    else if c == ']' then command
    else if c == 'P' then device
    else if c == 'X' || c == '^' || c == '_' then data
    else if between '0' c '~' then ground
    else escape
  | escapeFurther => if between '0' c '~' then ground else escapeFurther
  | control => if between '@' c '~' then ground else control
  | device =>
    if between ' ' c '/' then deviceFurther
    else if between '0' c '?' then deviceParameters
    else if between '@' c '~' then data
    else device
  | deviceParameters =>
    if between ' ' c '/' then deviceFurther
    else if between '<' c '~' then data
    else deviceParameters
  | deviceFurther => if between '0' c '~' then data else deviceFurther
  | data => if endsData c then ground else data
  | command => if c == '\x07' then ground else command

def shows (state : State) (c : Char) : Bool :=
  match state with
  | ground => isShown c
  | escape | escapeFurther | control => isSpacing c
  | _ => false

end State

-- The characters that are left. Once one is shown, so are all up to the next that cannot be, also
-- in the middle of a sequence, which then goes on; a character beyond ASCII ends it.
def strip (state : State) (showing : Bool) : Text → Text
  | [] => []
  | c :: rest =>
    if showing then
      if isShown c then c :: strip (if isAscii c then state else .ground) true rest
      else strip (state.step c) false rest
    else if state.shows c then c :: strip state true rest
    else strip (state.step c) false rest

def plain (text : String) : String := String.ofList (strip .ground false text.toList)

end Reroot.Text.Control
