set_option autoImplicit false

namespace Reroot

structure Style where
  codes : List String
deriving DecidableEq, Repr

namespace Style

def done : Style := ⟨["1;32"]⟩
def count : Style := ⟨["36"]⟩
def notice : Style := ⟨["1;33"]⟩
def heading : Style := ⟨["1", "4"]⟩
def literal : Style := ⟨["1"]⟩

def paint (style : Style) (color : Bool) (text : String) : String :=
  if color then
    "".intercalate (style.codes.map fun code => "\x1b[" ++ code ++ "m") ++ text ++ "\x1b[0m"
  else text

end Style

end Reroot
