import Reroot.Document.Statement

set_option autoImplicit false

namespace Reroot

namespace Nodes

def alterLast? (change : TableStyle → Entries → Option Entries) : Nodes → Option Nodes
  | nil => none
  | cons (.table style entries) nil =>
    (change style entries).map fun entries => cons (.table style entries) nil
  | cons head tail => (tail.alterLast? change).map (cons head)

def last? : Nodes → Option Node
  | nil => none
  | cons head nil => some head
  | cons _ tail => tail.last?

end Nodes

namespace Entries

-- Changes the entries of the table at the end of a path. A table that is missing on the way is
-- made. In an array of tables the way goes through the last of them. Dotted keys do not enter a
-- table that a header opened.
def descend? (byDots : Bool) (change : TableStyle → Entries → Option Entries) :
    List Key → TableStyle → Entries → Option Entries
  | [], style, entries => change style entries
  | key :: path, _, entries => entries.alter? key fun found =>
    match found with
    | none =>
      let style := if byDots then TableStyle.ofDottedKey else TableStyle.ofHeaderPath
      (descend? byDots change path style nil).map (.table style)
    | some (.table style inner) =>
      if byDots && !style.implicit then none
      else (descend? byDots change path style inner).map (.table style)
    | some (.tables elements) => (elements.alterLast? (descend? byDots change path)).map .tables
    | some _ => none

def follow : List Key → Entries → Entries
  | [], entries => entries
  | key :: path, entries =>
    match entries.get? key.name with
    | some (.table _ inner) => follow path inner
    | some (.tables elements) =>
      match elements.last? with
      | some (.table _ inner) => follow path inner
      | _ => nil
    | _ => nil

def add? (byDots isDotted : Bool) (key : Key) (node : Node) (entries : Entries) : Option Entries :=
  if byDots == isDotted && !entries.contains key.name then some (entries.append key node) else none

def addField? (field : Field) (style : TableStyle) (entries : Entries) : Option Entries :=
  entries.descend? true
    (fun style => add? (!field.parents.isEmpty) style.dotted field.key field.value)
    field.parents style

def descendInline? (change : InlineStyle → Entries → Option Entries) :
    List Key → InlineStyle → Entries → Option Entries
  | [], style, entries => change style entries
  | key :: path, _, entries => entries.alter? key fun found =>
    match found with
    | none => (descendInline? change path .ofDottedKey nil).map (.inline .ofDottedKey)
    | some (.inline style inner) =>
      if style.implicit then (descendInline? change path style inner).map (.inline style) else none
    | some _ => none

def addInlineField? (field : Field) (entries : Entries) : Option Entries :=
  entries.descendInline?
    (fun style => add? (!field.parents.isEmpty) style.dotted field.key field.value)
    field.parents .fresh

def ofFields? (fields : List Field) : Option Entries :=
  fields.foldlM (fun entries field => entries.addInlineField? field) nil

end Entries

-- A document while its statements are read. A table is attached to `root` only when the next
-- header or the end of the document closes it; the table of the root itself has no header.
structure Assembly where
  root : Entries
  header : Option Header
  style : TableStyle
  entries : Entries
  headers : Nat

namespace Assembly

def start : Assembly := ⟨.nil, none, .fresh, .nil, 0⟩

def addElement? (key : Key) (table : Node) (parent : Entries) : Option Entries :=
  parent.alter? key fun found =>
    match found with
    | none => some (.tables (.cons table .nil))
    | some (.tables elements) => some (.tables (elements.append table))
    | some _ => none

def close? (assembly : Assembly) : Option Entries :=
  match assembly.header with
  | none => some assembly.entries
  | some header =>
    let table := Node.table assembly.style assembly.entries
    assembly.root.descend? false
      (fun _ parent =>
        if header.isElement then addElement? header.key table parent
        else some (parent.append header.key table))
      header.parents .fresh

-- Takes the table that a header is about to open out of the root. It may be there only as an
-- implicit table, and then brings the entries it has.
def take? (header : Header) (root : Entries) : Option (Entries × Entries) :=
  match (root.follow header.parents).get? header.key.name with
  | none => (root.descend? false (fun _ parent => some parent) header.parents .fresh).map (·, .nil)
  | some (.table style inner) =>
    if style.implicit && !style.dotted then
      (root.descend? false (fun _ parent => some (parent.erase header.key.name))
        header.parents .fresh).map (·, inner)
    else none
  | some _ => none

def openTable? (assembly : Assembly) (header : Header) : Option Assembly := do
  let root ← assembly.close?
  let (root, entries) ← if header.isElement then some (root, .nil) else take? header root
  let position := assembly.headers + 1
  return ⟨root, some header, ⟨header.margin, false, false, some position⟩, entries, position⟩

def step? (assembly : Assembly) : Statement → Option Assembly
  | .field line => do
    let entries ← assembly.entries.addField? line assembly.style
    return { assembly with entries := entries }
  | .header line => assembly.openTable? line

end Assembly

def Entries.ofStatements? (statements : List Statement) : Option Entries := do
  (← statements.foldlM Assembly.step? Assembly.start).close?

end Reroot
