import Reroot.Text.Space

set_option autoImplicit false

namespace Reroot.Text.Spelling

inductive Form where
  | basic
  | plain
  | basicLines
  | plainLines
deriving DecidableEq, Repr

def Form.quotes : Form → Text
  | .basic => ['"']
  | .plain => ['\'']
  | .basicLines => ['"', '"', '"']
  | .plainLines => ['\'', '\'', '\'']

def Form.spansLines : Form → Bool
  | .basic | .plain => false
  | .basicLines | .plainLines => true

def Form.escapes : Form → Bool
  | .basic | .basicLines => true
  | .plain | .plainLines => false

def hasTriple (quote : Char) : Text → Bool
  | a :: b :: c :: rest =>
    (a == quote && b == quote && c == quote) || hasTriple quote (b :: c :: rest)
  | _ => false

def Form.holds (form : Form) (text : Text) : Bool :=
  text.all (fun c => isPrintable c || (form.spansLines && c == '\n')) &&
    match form with
    | .basic => !text.contains '\\' && !text.contains '"'
    | .plain => !text.contains '\''
    | .basicLines => !text.contains '\\' && !hasTriple '"' text
    | .plainLines => !hasTriple '\'' text

def Form.of (text : Text) : Form :=
  if Form.basic.holds text then .basic
  else if Form.plain.holds text then .plain
  else if Form.basicLines.holds text then .basicLines
  else if Form.plainLines.holds text then .plainLines
  else if text.contains '\n' then .basicLines
  else .basic

def hexChar (digit : Nat) : Char :=
  if digit < 10 then Char.ofNat ('0'.toNat + digit) else Char.ofNat ('A'.toNat + (digit - 10))

def escaped (spansLines : Bool) (c : Char) : Text :=
  match c with
  | '\x08' => ['\\', 'b']
  | '\t' => ['\\', 't']
  | '\n' => if spansLines then ['\n'] else ['\\', 'n']
  | '\x0C' => ['\\', 'f']
  | '\r' => ['\\', 'r']
  | '\\' => ['\\', '\\']
  | _ =>
    if isPrintable c then [c]
    else ['\\', 'u', '0', '0', hexChar (c.toNat / 16), hexChar (c.toNat % 16)]

-- The body of a string with escapes. `free` more quotes may stand unescaped in a row: none on one
-- line, two in a string over many lines.
def escapeFrom (spansLines : Bool) (free : Nat) : Text → Text
  | [] => []
  | '"' :: rest =>
    match free with
    | 0 => '\\' :: '"' :: escapeFrom spansLines (if spansLines then 2 else 0) rest
    | free + 1 => '"' :: escapeFrom spansLines free rest
  | c :: rest => escaped spansLines c ++ escapeFrom spansLines (if spansLines then 2 else 0) rest

def Form.body (form : Form) (text : Text) : Text :=
  if form.escapes then escapeFrom form.spansLines (if form.spansLines then 2 else 0) text
  else text

def Form.write (form : Form) (text : Text) : Text :=
  form.quotes ++ (if form.spansLines && text.contains '\n' then ['\n'] else []) ++
    form.body text ++ form.quotes

def string (text : Text) : Text := (Form.of text).write text

def isBare (c : Char) : Bool := c.isAlphanum || c == '-' || c == '_'

def key (name : Text) : Text :=
  if !name.isEmpty && name.all isBare then name
  else if Form.basic.holds name then Form.basic.write name
  else if Form.plain.holds name then Form.plain.write name
  else Form.basic.write name

end Reroot.Text.Spelling
