import Reroot.Document.Line

set_option autoImplicit false

namespace Reroot

def Text.comments (inComment : Bool) : Text → List Text
  | [] => []
  | c :: rest =>
    if c = '\n' then comments false rest
    else if inComment then comments true rest
    else if c = '#' then (c :: rest.takeWhile (· ≠ '\n')) :: comments true rest
    else comments false rest

def Margin.comments (margin : Margin) : List Text :=
  Text.comments false (margin.before.getD []) ++ Text.comments false (margin.after.getD [])

def Key.comments (key : Key) : List Text := key.outer.comments ++ key.inner.comments

mutual
-- A table that dotted keys or deeper headers made has no text of its own around it.
def Node.comments : Node → List Text
  | .scalar margin _ => margin.comments
  | .array style elements =>
    style.margin.comments ++ elements.comments ++ Text.comments false style.trailing
  | .inline style entries =>
    (if style.dotted then [] else style.margin.comments ++ Text.comments false style.preamble) ++
      entries.comments
  | .table style entries =>
    (if style.dotted || style.implicit then [] else style.margin.comments) ++ entries.comments
  | .tables elements => elements.comments
def Nodes.comments : Nodes → List Text
  | .nil => []
  | .cons head tail => head.comments ++ tail.comments
def Entries.comments : Entries → List Text
  | .nil => []
  | .cons key node tail => key.comments ++ node.comments ++ tail.comments
end

def Entries.commentsOf (name : String) (entries : Entries) : List Text :=
  match entries.keyed? name with
  | some (key, node) => key.comments ++ node.comments
  | none => []

end Reroot
