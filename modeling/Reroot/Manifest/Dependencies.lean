import Reroot.Document.Entries
import Reroot.Log

set_option autoImplicit false

namespace Reroot

inductive Target where
  | revision (url : String) (rev : String)
  | checkout (base : String)
deriving DecidableEq, Repr

namespace Target

def reference : List (String × String) → Node
  | pairs => .inline .fresh (pairs.foldr
      (fun (name, value) entries => .cons (.fresh name) (.ofString value) entries) .nil)

def replacement? (target : Target) (entries : Entries) : Option Node :=
  match target with
  | revision url rev => some (reference [("git", url), ("rev", rev)])
  | checkout base =>
    ((entries.get? "path").bind Node.string?).map fun path =>
      reference [("path", base ++ "/" ++ path)]

end Target

-- A walk that replaces tables. `replaced` lists their keys in order; `stuck` is the key of a table
-- whose `path` is no string, where the walk ended.
structure Walk (α : Type) where
  result : α
  replaced : List String
  stuck : Option String
deriving DecidableEq, Repr

namespace Walk

variable {α β γ : Type}

def stay (result : α) : Walk α := ⟨result, [], none⟩

def map (f : α → β) (walk : Walk α) : Walk β := ⟨f walk.result, walk.replaced, walk.stuck⟩

def join (f : α → β → γ) (first : Walk α) (unchanged : β) (rest : Walk β) : Walk γ :=
  if first.stuck.isSome then ⟨f first.result unchanged, first.replaced, first.stuck⟩
  else ⟨f first.result rest.result, first.replaced ++ rest.replaced, rest.stuck⟩

def log {α : Type} (walk : Walk α) : List Record :=
  walk.replaced.map (fun name =>
    ⟨.trace, .dependencies, "Rewriting path dependency `" ++ name ++ "`"⟩) ++
  (if walk.stuck.isSome then []
  else [⟨.debug, .dependencies,
    "Rewrote " ++ toString walk.replaced.length ++ " path dependencies"⟩])

end Walk

def Node.redirected? (target : Target) (name : String) (node : Node) : Option (Walk Node) :=
  match node.entries? with
  | none => none
  | some entries =>
    if entries.contains "path" then
      match target.replacement? entries with
      | some reference => some ⟨reference, [name], none⟩
      | none => some ⟨node, [], some name⟩
    else none

mutual
def Node.redirect (target : Target) : Node → Walk Node
  | .scalar margin value => .stay (.scalar margin value)
  | .array style elements => (elements.redirect target).map (.array style)
  | .inline style entries => (entries.redirect target).map (.inline style)
  | .table style entries => (entries.redirect target).map (.table style)
  | .tables elements => (elements.redirect target).map .tables
def Nodes.redirect (target : Target) : Nodes → Walk Nodes
  | .nil => .stay .nil
  | .cons head tail => .join .cons (head.redirect target) tail (tail.redirect target)
def Entries.redirect (target : Target) : Entries → Walk Entries
  | .nil => .stay .nil
  | .cons key node tail =>
    let first := (node.redirected? target key.name).getD (node.redirect target)
    .join (.cons key) first tail (tail.redirect target)
end

namespace Document

def redirect (target : Target) (document : Document) : Walk Document :=
  (document.root.redirect target).map ({ document with root := · })

end Document

end Reroot
