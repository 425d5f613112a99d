import Reroot.Document.Statement

set_option autoImplicit false

namespace Reroot

def Key.linked (isFirst : Bool) : List Key → Key → Text
  | [], key => (if isFirst then [] else key.inner.before.getD []) ++ key.text
  | first :: rest, key =>
    (if isFirst then [] else first.inner.before.getD []) ++ first.text ++
      first.inner.after.getD [] ++ '.' :: linked false rest key

def Key.pathText (before after : Text) (parents : List Key) (key : Key) : Text :=
  key.outer.wrap before after (linked true parents key)

structure WrittenField where
  parents : List Key
  key : Key
  margin : Margin
  text : Text

namespace WrittenField

def print (isLast : Bool) (field : WrittenField) : Text :=
  Key.pathText [' '] [' '] field.parents field.key ++ '=' ::
    field.margin.wrap [' '] (if isLast then [' '] else []) field.text

def printAll : List WrittenField → Text
  | [] => []
  | [field] => field.print true
  | field :: rest => field.print false ++ ',' :: printAll rest

end WrittenField

def ArrayStyle.enclose (style : ArrayStyle) (isEmpty : Bool) (elements : Text) : Text :=
  '[' :: elements ++ (if style.finalComma && !isEmpty then [','] else []) ++ style.trailing ++ [']']

def InlineStyle.enclose (style : InlineStyle) (fields : List WrittenField) : Text :=
  '\x7b' :: style.preamble ++ WrittenField.printAll fields ++ ['\x7d']

mutual
def Node.text : Node → Text
  | .scalar _ value => value.text
  | .array style elements => style.enclose elements.isEmpty (elements.text true)
  | .inline style entries => style.enclose (entries.written [])
  | .table _ _ | .tables _ => []
def Nodes.text (isFirst : Bool) : Nodes → Text
  | .nil => []
  | .cons head tail =>
    (if isFirst then head.margin.wrap [] [] head.text
    else ',' :: head.margin.wrap [' '] [] head.text) ++ tail.text false
def Node.written (parents : List Key) (key : Key) : Node → List WrittenField
  | .scalar margin value => [⟨parents, key, margin, value.text⟩]
  | .array style elements =>
    [⟨parents, key, style.margin, style.enclose elements.isEmpty (elements.text true)⟩]
  | .inline style entries =>
    if style.dotted then entries.written (parents ++ [key])
    else [⟨parents, key, style.margin, style.enclose (entries.written [])⟩]
  | .table style entries => if style.dotted then entries.written (parents ++ [key]) else []
  | .tables _ => []
def Entries.written (parents : List Key) : Entries → List WrittenField
  | .nil => []
  | .cons key node tail => node.written parents key ++ tail.written parents
end

def Field.text (field : Field) : Text :=
  Key.pathText [] [' '] field.parents field.key ++ '=' ::
    field.value.margin.wrap [' '] [] field.value.text ++ ['\n']

-- A header sets its table off by an empty line unless it begins the document.
def Header.text (isFirst : Bool) (header : Header) : Text :=
  let brackets : Text × Text :=
    if header.isElement then (['[', '['], [']', ']']) else (['['], [']'])
  header.margin.wrap (if isFirst then [] else ['\n']) []
    (brackets.1 ++ Key.pathText [] [] header.parents header.key ++ brackets.2) ++ ['\n']

def Statement.text (isFirst : Bool) : Statement → Text
  | .field line => line.text
  | .header line => line.text isFirst

def Statement.printAll : List Statement → Text
  | [] => []
  | first :: rest => first.text true ++ rest.flatMap (Statement.text false)

namespace Document

def text (document : Document) : Text :=
  Statement.printAll document.root.statements ++ document.trailing

def render (document : Document) : String := String.ofList document.text

end Document

end Reroot
