import Reroot.Document.Distinct
import Reroot.Document.Line

set_option autoImplicit false

namespace Reroot

mutual
def Node.Reordered : Node → Node → Prop
  | .scalar margin value, other => other = .scalar margin value
  | .array style elements, other =>
    ∃ elements', other = .array style elements' ∧ elements.Reordered elements'
  | .inline style entries, other =>
    ∃ entries', other = .inline style entries' ∧ entries.Reordered entries'
  | .table style entries, other =>
    ∃ entries', other = .table style entries' ∧ entries.Reordered entries'
  | .tables elements, other => ∃ elements', other = .tables elements' ∧ elements.Reordered elements'
def Nodes.Reordered : Nodes → Nodes → Prop
  | .nil, other => other = .nil
  | .cons head tail, other =>
    ∃ head' tail', other = .cons head' tail' ∧ head.Reordered head' ∧ tail.Reordered tail'
def Entries.Reordered : Entries → Entries → Prop
  | .nil, other => other = .nil
  | .cons key node tail, other =>
    (∃ same, other.keyed? key.name = some (key, same) ∧ node.Reordered same) ∧
      tail.Reordered (other.erase key.name)
end

mutual
def Node.decideReordered : (node other : Node) → Decidable (node.Reordered other)
  | .scalar margin value, other => inferInstanceAs (Decidable (other = .scalar margin value))
  | .array style elements, other =>
    match other with
    | .array style' elements' =>
      have := elements.decideReordered elements'
      decidable_of_iff (style' = style ∧ elements.Reordered elements')
        (by simp [Node.Reordered, and_assoc])
    | .scalar _ _ | .inline _ _ | .table _ _ | .tables _ => .isFalse (by simp [Node.Reordered])
  | .inline style entries, other =>
    match other with
    | .inline style' entries' =>
      have := entries.decideReordered entries'
      decidable_of_iff (style' = style ∧ entries.Reordered entries')
        (by simp [Node.Reordered, and_assoc])
    | .scalar _ _ | .array _ _ | .table _ _ | .tables _ => .isFalse (by simp [Node.Reordered])
  | .table style entries, other =>
    match other with
    | .table style' entries' =>
      have := entries.decideReordered entries'
      decidable_of_iff (style' = style ∧ entries.Reordered entries')
        (by simp [Node.Reordered, and_assoc])
    | .scalar _ _ | .array _ _ | .inline _ _ | .tables _ => .isFalse (by simp [Node.Reordered])
  | .tables elements, other =>
    match other with
    | .tables elements' =>
      have := elements.decideReordered elements'
      decidable_of_iff (elements.Reordered elements') (by simp [Node.Reordered])
    | .scalar _ _ | .array _ _ | .inline _ _ | .table _ _ => .isFalse (by simp [Node.Reordered])
def Nodes.decideReordered : (nodes other : Nodes) → Decidable (nodes.Reordered other)
  | .nil, other => inferInstanceAs (Decidable (other = .nil))
  | .cons head tail, other =>
    match other with
    | .cons head' tail' =>
      have := head.decideReordered head'
      have := tail.decideReordered tail'
      decidable_of_iff (head.Reordered head' ∧ tail.Reordered tail')
        (by simp [Nodes.Reordered, and_assoc])
    | .nil => .isFalse (by simp [Nodes.Reordered])
def Entries.decideReordered : (entries other : Entries) → Decidable (entries.Reordered other)
  | .nil, other => inferInstanceAs (Decidable (other = .nil))
  | .cons key node tail, other =>
    have := tail.decideReordered (other.erase key.name)
    match found : other.keyed? key.name with
    | some (key', same) =>
      have := node.decideReordered same
      decidable_of_iff ((key' = key ∧ node.Reordered same) ∧ tail.Reordered (other.erase key.name))
        (by simp [Entries.Reordered, found, and_assoc])
    | none => .isFalse (by simp [Entries.Reordered, found])
end

def Document.Reordered (document other : Document) : Prop :=
  other.trailing = document.trailing ∧ document.root.Reordered other.root

instance (document other : Document) : Decidable (document.Reordered other) :=
  have := document.root.decideReordered other.root
  inferInstanceAs (Decidable (_ ∧ _))

end Reroot
