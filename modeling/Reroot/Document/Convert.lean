import Reroot.Document.Entries

set_option autoImplicit false

namespace Reroot

namespace Entries

def unbraced : Entries → Entries
  | nil => nil
  | cons key node tail => cons key.bare (node.withMargin .unset) tail.unbraced

end Entries

-- A table under a header becomes an inline table, and an array of tables an array; both keep the
-- spelling of their keys and the inner layout of their values.
mutual
def Node.toValue : Node → Node
  | .scalar margin value => .scalar margin value
  | .array style elements => .array style elements
  | .inline style entries => .inline style entries
  | .table _ entries => .inline .fresh entries.toValues
  | .tables elements => .array .fresh (elements.toValues true)
def Nodes.toValues (isFirst : Bool) : Nodes → Nodes
  | .nil => .nil
  | .cons head tail =>
    .cons (head.toValue.withMargin (.around (if isFirst then [] else [' ']) []))
      (tail.toValues false)
def Entries.toValues : Entries → Entries
  | .nil => .nil
  | .cons key node tail => .cons key.bare (node.toValue.withMargin .unset) tail.toValues
end

def Node.underHeader? : Node → Option Entries
  | .table _ entries => some entries
  | .inline _ entries => some entries.unbraced
  | .scalar _ _ | .array _ _ | .tables _ => none

def Node.putEntry (place : Node) (name : String) (node : Node) : Node :=
  match place with
  | .table style entries => .table style (entries.put name node)
  | .inline style entries => .inline style (entries.put name node.toValue)
  | .scalar _ _ | .array _ _ | .tables _ => place

end Reroot
