import Reroot.Document.Entries

set_option autoImplicit false

namespace Reroot

structure Field where
  parents : List Key
  key : Key
  value : Node
deriving DecidableEq, Repr

structure Header where
  parents : List Key
  key : Key
  isElement : Bool
  margin : Margin
deriving DecidableEq, Repr

inductive Statement where
  | field (field : Field)
  | header (header : Header)
deriving DecidableEq, Repr

mutual
def Node.fields (parents : List Key) (key : Key) : Node → List Field
  | .scalar margin value => [⟨parents, key, .scalar margin value⟩]
  | .array style elements => [⟨parents, key, .array style elements⟩]
  | .inline style entries =>
    if style.dotted then entries.fields (parents ++ [key])
    else [⟨parents, key, .inline style entries⟩]
  | .table style entries => if style.dotted then entries.fields (parents ++ [key]) else []
  | .tables _ => []
def Entries.fields (parents : List Key) : Entries → List Field
  | .nil => []
  | .cons key node tail => node.fields parents key ++ tail.fields parents
end

-- A table and the place it has in the document. The path of the root is empty.
structure Section where
  path : List Key
  isElement : Bool
  style : TableStyle
  entries : Entries

mutual
def Node.sections (path : List Key) (isElement : Bool) : Node → List Section
  | .table style entries =>
    (if style.dotted then [] else [⟨path, isElement, style, entries⟩]) ++ entries.sections path
  | .tables elements => elements.sections path
  | .scalar _ _ | .array _ _ | .inline _ _ => []
def Nodes.sections (path : List Key) : Nodes → List Section
  | .nil => []
  | .cons head tail => head.sections path true ++ tail.sections path
def Entries.sections (path : List Key) : Entries → List Section
  | .nil => []
  | .cons key node tail => node.sections (path ++ [key]) false ++ tail.sections path
end

namespace Section

-- An implicit table without values of its own needs no header.
def header? (part : Section) : Option Header :=
  match part.path.getLast? with
  | none => none
  | some key =>
    if !part.isElement && part.style.implicit && (part.entries.fields []).isEmpty then none
    else some ⟨part.path.dropLast, key, part.isElement, part.style.margin⟩

theorem header?_eq_some {part : Section} {header : Header} (found : part.header? = some header) :
    ∃ key, part.path.getLast? = some key ∧
      header = ⟨part.path.dropLast, key, part.isElement, part.style.margin⟩ := by
  unfold header? at found
  cases last : part.path.getLast? with
  | none =>
    rw [last] at found
    cases found
  | some key =>
    rw [last] at found
    obtain ⟨-, whole⟩ := Option.ite_none_left_eq_some.mp found
    exact ⟨key, rfl, (Option.some.inj whole).symm⟩

def statements (part : Section) : List Statement :=
  part.header?.toList.map .header ++ (part.entries.fields []).map .field

-- Numbers each section by its position, and one without a position like the section before it.
def numbered (last : Nat) : List Section → List (Nat × Section)
  | [] => []
  | part :: rest =>
    let number := part.style.position.getD last
    (number, part) :: numbered number rest

def place (part : Nat × Section) : List (Nat × Section) → List (Nat × Section)
  | [] => [part]
  | next :: rest =>
    if part.1 ≤ next.1 then part :: next :: rest else next :: place part rest

def arranged : List (Nat × Section) → List (Nat × Section)
  | [] => []
  | part :: rest => place part (arranged rest)

end Section

def Entries.statements (root : Entries) : List Statement :=
  let parts := ⟨[], false, .fresh, root⟩ :: root.sections []
  (Section.arranged (Section.numbered 0 parts)).flatMap (·.2.statements)

end Reroot
