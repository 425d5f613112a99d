import Reroot.Document.Place

set_option autoImplicit false

namespace Reroot

structure Entry where
  above : List Step
  key : Key
  node : Node
deriving DecidableEq, Repr

namespace Entry

def place (entry : Entry) : List Step := entry.above ++ [.key entry.key.name]

def below (step : Step) (entry : Entry) : Entry := { entry with above := step :: entry.above }

theorem place_below (step : Step) (entry : Entry) :
    (entry.below step).place = step :: entry.place := rfl

theorem place_ne_nil (entry : Entry) : entry.place ≠ [] := by
  simp [place]

end Entry

-- All entries below a node, each before those below it. The elements of arrays are none themselves,
-- since they stand under no key.
mutual
def Node.entriesBelow : Node → List Entry
  | .scalar _ _ => []
  | .array _ elements => elements.entriesBelow 0
  | .inline _ entries => entries.entriesBelow
  | .table _ entries => entries.entriesBelow
  | .tables elements => elements.entriesBelow 0
def Nodes.entriesBelow (number : Nat) : Nodes → List Entry
  | .nil => []
  | .cons head tail =>
    head.entriesBelow.map (.below (.index number)) ++ tail.entriesBelow (number + 1)
def Entries.entriesBelow : Entries → List Entry
  | .nil => []
  | .cons key node tail =>
    ⟨[], key, node⟩ :: node.entriesBelow.map (.below (.key key.name)) ++ tail.entriesBelow
end

def Document.entries (document : Document) : List Entry := document.root.entriesBelow

def Nodes.modify (change : Node → Node) : Nat → Nodes → Nodes
  | _, nil => nil
  | 0, cons head tail => cons (change head) tail
  | number + 1, cons head tail => cons head (tail.modify change number)

namespace Node

def modifyChild (change : Node → Node) : Step → Node → Node
  | .key name, inline style entries => inline style (entries.modify name change)
  | .key name, table style entries => table style (entries.modify name change)
  | .index number, array style elements => array style (elements.modify change number)
  | .index number, tables elements => tables (elements.modify change number)
  | _, node => node

def setAt (new : Node) : List Step → Node → Node
  | [], _ => new
  | step :: rest, node => node.modifyChild (setAt new rest) step

end Node

def Entries.setAt (new : Node) : List Step → Entries → Entries
  | .key name :: rest, entries => entries.modify name (Node.setAt new rest)
  | _, entries => entries

def Document.setAt (place : List Step) (new : Node) (document : Document) : Document :=
  { document with root := document.root.setAt new place }

def Document.replaceAll (document : Document) (entries : List Entry) (new : Entry → Node) : Document :=
  entries.foldl (fun document entry => document.setAt entry.place (new entry)) document

end Reroot
