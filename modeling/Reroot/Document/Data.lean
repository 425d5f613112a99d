import Reroot.Document.Convert

set_option autoImplicit false

namespace Reroot

mutual
inductive Data where
  | string (value : String)
  | integer (value : Int)
  | boolean (value : Bool)
  | float (spelling : Text)
  | moment (spelling : Text)
  | list (elements : DataList)
  | object (fields : DataFields)
inductive DataList where
  | nil
  | cons (head : Data) (tail : DataList)
inductive DataFields where
  | nil
  | cons (name : String) (data : Data) (tail : DataFields)
end

deriving instance DecidableEq for Data, DataList, DataFields
deriving instance Repr for Data, DataList, DataFields

@[induction_eliminator]
theorem DataFields.tail_induction {motive : DataFields → Prop} (nil : motive .nil)
    (cons : ∀ name data tail, motive tail → motive (.cons name data tail)) :
    (fields : DataFields) → motive fields
  | .nil => nil
  | .cons name data tail => cons name data tail (tail_induction nil cons tail)

namespace DataFields

def names : DataFields → List String
  | nil => []
  | cons name _ tail => name :: tail.names

def get? (name : String) : DataFields → Option Data
  | nil => none
  | cons other data tail => if other = name then some data else tail.get? name

end DataFields

def Scalar.data : Scalar → Data
  | string value _ => .string value
  | integer value _ => .integer value
  | boolean value => .boolean value
  | float spelling => .float spelling
  | moment spelling => .moment spelling

mutual
def Node.data : Node → Data
  | .scalar _ value => value.data
  | .array _ elements => .list elements.data
  | .inline _ entries => .object entries.data
  | .table _ entries => .object entries.data
  | .tables elements => .list elements.data
def Nodes.data : Nodes → DataList
  | .nil => .nil
  | .cons head tail => .cons head.data tail.data
def Entries.data : Entries → DataFields
  | .nil => .nil
  | .cons key node tail => .cons key.name node.data tail.data
end

def Document.data (document : Document) : DataFields := document.root.data

theorem Node.data_with_margin (margin : Margin) (node : Node) :
    (node.withMargin margin).data = node.data := by
  cases node <;> rfl

theorem Entries.data_unbraced (entries : Entries) : entries.unbraced.data = entries.data := by
  induction entries with
  | nil => rfl
  | cons key node tail ih => simp [unbraced, data, Key.bare, Node.data_with_margin, ih]

mutual
theorem Node.data_to_value : (node : Node) → node.toValue.data = node.data
  | .scalar _ _ => rfl
  | .array _ _ => rfl
  | .inline _ _ => rfl
  | .table _ entries => by simp [Node.toValue, Node.data, Entries.data_to_values entries]
  | .tables elements => by simp [Node.toValue, Node.data, Nodes.data_to_values true elements]
theorem Nodes.data_to_values (isFirst : Bool) :
    (nodes : Nodes) → (nodes.toValues isFirst).data = nodes.data
  | .nil => rfl
  | .cons head tail => by
    simp [Nodes.toValues, Nodes.data, Node.data_with_margin, Node.data_to_value head,
      Nodes.data_to_values false tail]
theorem Entries.data_to_values : (entries : Entries) → entries.toValues.data = entries.data
  | .nil => rfl
  | .cons key node tail => by
    simp [Entries.toValues, Entries.data, Key.bare, Node.data_with_margin, Node.data_to_value node,
      Entries.data_to_values tail]
end

end Reroot
