import Reroot.Document.Entries

set_option autoImplicit false

namespace Reroot

inductive Step where
  | key (name : String)
  | index (number : Nat)
deriving DecidableEq, Repr

namespace Node

def child? : Step → Node → Option Node
  | .key name, inline _ entries => entries.get? name
  | .key name, table _ entries => entries.get? name
  | .index number, array _ elements => elements.toList[number]?
  | .index number, tables elements => elements.toList[number]?
  | _, _ => none

def at? : List Step → Node → Option Node
  | [], node => some node
  | step :: rest, node => (node.child? step).bind (at? rest)

def path? (node : Node) : Option Node := node.entries?.bind (Entries.get? "path")

theorem at?_cons (step : Step) (rest : List Step) (node : Node) :
    node.at? (step :: rest) = (node.child? step).bind (at? rest) := rfl

theorem at?_single (step : Step) (node : Node) : node.at? [step] = node.child? step := by
  rw [at?_cons]
  cases node.child? step <;> rfl

theorem child?_key (name : String) (node : Node) :
    node.child? (.key name) = node.entries?.bind (Entries.get? name) := by
  cases node <;> rfl

theorem child?_eq_none_of_scalar (step : Step) (margin : Margin) (value : Scalar) :
    (scalar margin value).child? step = none := by
  cases step <;> rfl

end Node

namespace Document

def at? (place : List Step) (document : Document) : Option Node :=
  Node.at? place (.table .fresh document.root)

theorem at?_key (name : String) (rest : List Step) (document : Document) :
    document.at? (.key name :: rest) = (document.root.get? name).bind (Node.at? rest) := rfl

end Document

end Reroot
