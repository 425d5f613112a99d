import Reroot.Text.Invisible
import Reroot.Text.Space

set_option autoImplicit false

namespace Reroot.Text.Shown

def byNumber (c : Char) : Text := "\\u\x7b".toList ++ Nat.toDigits 16 c.toNat ++ "\x7d".toList

def character (c : Char) : Text :=
  match c with
  | '\x00' => ['\\', '0']
  | '\t' => ['\\', 't']
  | '\n' => ['\\', 'n']
  | '\r' => ['\\', 'r']
  | '"' => ['\\', '"']
  | '\\' => ['\\', '\\']
  | _ => if isInvisible c then byNumber c else [c]

def name (name : String) : String :=
  String.ofList ('"' :: name.toList.flatMap character ++ ['"'])

def names (names : List String) : String := "[" ++ ", ".intercalate (names.map name) ++ "]"

end Reroot.Text.Shown
