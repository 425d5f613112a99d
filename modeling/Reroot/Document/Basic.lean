import Reroot.Text.Spelling

set_option autoImplicit false

namespace Reroot

-- The text before and after a part of a document. A side that is unset takes the default of the
-- place where it is printed.
structure Margin where
  before : Option Text
  after : Option Text
deriving DecidableEq, Repr

namespace Margin

def unset : Margin := ⟨none, none⟩

def around (before after : Text) : Margin := ⟨some before, some after⟩

def wrap (margin : Margin) (before after text : Text) : Text :=
  margin.before.getD before ++ text ++ margin.after.getD after

end Margin

-- A key with its written form; `spelling` is unset for a key made by an edit. `outer` is the text
-- around the dotted path that the key ends, `inner` the text between the key and the dots beside
-- it.
structure Key where
  name : String
  spelling : Option Text
  outer : Margin
  inner : Margin
deriving DecidableEq, Repr

namespace Key

def fresh (name : String) : Key := ⟨name, none, .unset, .unset⟩

def text (key : Key) : Text := key.spelling.getD (Text.Spelling.key key.name.toList)

def bare (key : Key) : Key := { key with outer := .unset, inner := .unset }

end Key

-- A value without parts. Floats and moments are never computed with, so they are their own text;
-- a string made by an edit has no spelling.
inductive Scalar where
  | string (value : String) (spelling : Option Text)
  | integer (value : Int) (spelling : Text)
  | boolean (value : Bool)
  | float (spelling : Text)
  | moment (spelling : Text)
deriving DecidableEq, Repr

namespace Scalar

def text : Scalar → Text
  | string value spelling => spelling.getD (Text.Spelling.string value.toList)
  | integer _ spelling => spelling
  | boolean true => "true".toList
  | boolean false => "false".toList
  | float spelling => spelling
  | moment spelling => spelling

end Scalar

structure ArrayStyle where
  margin : Margin
  trailing : Text
  finalComma : Bool
deriving DecidableEq, Repr

namespace ArrayStyle

def fresh : ArrayStyle := ⟨.unset, [], false⟩

end ArrayStyle

-- The preamble is printed behind the opening brace. A dotted table is written as dotted keys of
-- the table that holds it; an implicit one was never written itself.
structure InlineStyle where
  margin : Margin
  preamble : Text
  implicit : Bool
  dotted : Bool
deriving DecidableEq, Repr

namespace InlineStyle

def fresh : InlineStyle := ⟨.unset, [], false, false⟩

def ofDottedKey : InlineStyle := ⟨.unset, [], true, true⟩

end InlineStyle

-- A table under a header has that header's margin and position. A dotted table is written as
-- dotted keys of the table that holds it; an implicit one is named by deeper headers or keys only.
structure TableStyle where
  margin : Margin
  implicit : Bool
  dotted : Bool
  position : Option Nat
deriving DecidableEq, Repr

namespace TableStyle

def fresh : TableStyle := ⟨.unset, false, false, none⟩

def ofHeaderPath : TableStyle := ⟨.unset, true, false, none⟩

def ofDottedKey : TableStyle := ⟨.unset, true, true, none⟩

end TableStyle

-- A `table` stands under a header and an `inline` one between braces; `tables` is an array whose
-- elements stand under headers of their own, and its elements are of the form `table`.
mutual
inductive Node where
  | scalar (margin : Margin) (value : Scalar)
  | array (style : ArrayStyle) (elements : Nodes)
  | inline (style : InlineStyle) (entries : Entries)
  | table (style : TableStyle) (entries : Entries)
  | tables (elements : Nodes)
inductive Nodes where
  | nil
  | cons (head : Node) (tail : Nodes)
inductive Entries where
  | nil
  | cons (key : Key) (node : Node) (tail : Entries)
end

deriving instance DecidableEq for Node, Nodes, Entries
deriving instance Repr for Node, Nodes, Entries

structure Document where
  root : Entries
  trailing : Text
deriving DecidableEq, Repr

@[induction_eliminator]
theorem Nodes.tail_induction {motive : Nodes → Prop} (nil : motive .nil)
    (cons : ∀ head tail, motive tail → motive (.cons head tail)) : (nodes : Nodes) → motive nodes
  | .nil => nil
  | .cons head tail => cons head tail (tail_induction nil cons tail)

@[induction_eliminator]
theorem Entries.tail_induction {motive : Entries → Prop} (nil : motive .nil)
    (cons : ∀ key node tail, motive tail → motive (.cons key node tail)) :
    (entries : Entries) → motive entries
  | .nil => nil
  | .cons key node tail => cons key node tail (tail_induction nil cons tail)

namespace Nodes

def isEmpty : Nodes → Bool
  | nil => true
  | cons _ _ => false

def toList : Nodes → List Node
  | nil => []
  | cons head tail => head :: tail.toList

def append (node : Node) : Nodes → Nodes
  | nil => cons node nil
  | cons head tail => cons head (tail.append node)

theorem to_list_append (node : Node) (nodes : Nodes) :
    (nodes.append node).toList = nodes.toList ++ [node] := by
  induction nodes with
  | nil => rfl
  | cons head tail ih => simp [append, toList, ih]

end Nodes

namespace Node

def entries? : Node → Option Entries
  | inline _ entries => some entries
  | table _ entries => some entries
  | scalar _ _ | array _ _ | tables _ => none

def isTable (node : Node) : Bool := node.entries?.isSome

def withEntries (node : Node) (entries : Entries) : Node :=
  match node with
  | inline style _ => inline style entries
  | table style _ => table style entries
  | scalar _ _ | array _ _ | tables _ => node

def margin : Node → Margin
  | scalar margin _ => margin
  | array style _ => style.margin
  | inline style _ => style.margin
  | table _ _ | tables _ => .unset

def withMargin (margin : Margin) : Node → Node
  | scalar _ value => scalar margin value
  | array style elements => array { style with margin := margin } elements
  | inline style entries => inline { style with margin := margin } entries
  | table style entries => table style entries
  | tables elements => tables elements

def kind : Node → String
  | scalar _ (.string _ _) => "string"
  | scalar _ (.integer _ _) => "integer"
  | scalar _ (.boolean _) => "boolean"
  | scalar _ (.float _) => "float"
  | scalar _ (.moment _) => "datetime"
  | array _ _ => "array"
  | inline _ _ => "inline table"
  | table _ _ => "table"
  | tables _ => "array of tables"

def string? : Node → Option String
  | scalar _ (.string value _) => some value
  | _ => none

def ofString (value : String) : Node := scalar .unset (.string value none)

end Node

end Reroot
