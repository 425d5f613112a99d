import Reroot.Document.Place

set_option autoImplicit false

namespace Reroot

mutual
def Node.Pinned : Node → Prop
  | .scalar _ _ => True
  | .array _ elements => elements.Pinned
  | .inline _ entries => entries.Pinned
  | .table _ entries => entries.Pinned
  | .tables elements => elements.Pinned
def Nodes.Pinned : Nodes → Prop
  | .nil => True
  | .cons head tail => head.Pinned ∧ tail.Pinned
def Entries.Pinned : Entries → Prop
  | .nil => True
  | .cons _ node tail => node.path? = none ∧ node.Pinned ∧ tail.Pinned
end

mutual
def Node.decidePinned : (node : Node) → Decidable node.Pinned
  | .scalar _ _ => inferInstanceAs (Decidable True)
  | .array _ elements => elements.decidePinned
  | .inline _ entries => entries.decidePinned
  | .table _ entries => entries.decidePinned
  | .tables elements => elements.decidePinned
def Nodes.decidePinned : (nodes : Nodes) → Decidable nodes.Pinned
  | .nil => inferInstanceAs (Decidable True)
  | .cons head tail => @instDecidableAnd _ _ head.decidePinned tail.decidePinned
def Entries.decidePinned : (entries : Entries) → Decidable entries.Pinned
  | .nil => inferInstanceAs (Decidable True)
  | .cons _ node tail =>
    @instDecidableAnd (node.path? = none) _ inferInstance
      (@instDecidableAnd _ _ node.decidePinned tail.decidePinned)
end

instance (node : Node) : Decidable node.Pinned := node.decidePinned

def Document.Pinned (document : Document) : Prop := document.root.Pinned

instance (document : Document) : Decidable document.Pinned := document.root.decidePinned

end Reroot
