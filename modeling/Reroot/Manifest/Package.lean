import Reroot.Document.Entries

set_option autoImplicit false

namespace Reroot

def deniedDependencies : List String := ["pickledb", "winreg"]

namespace Entries

def eraseAll : List String → Entries → Entries × List String
  | [], entries => (entries, [])
  | name :: names, entries =>
    if entries.contains name then
      let (entries, removed) := eraseAll names (entries.erase name)
      (entries, name :: removed)
    else eraseAll names entries

end Entries

namespace Document

def blankPackage (document : Document) : Document :=
  { document with root := document.root.assign "package" (.table .fresh .nil) }

def dropDependencies (names : List String) (document : Document) : Document × List String :=
  match (document.root.get? "dependencies").bind Node.entries? with
  | none => (document, [])
  | some entries =>
    let (kept, removed) := entries.eraseAll names
    ({ document with root := document.root.modify "dependencies" (·.withEntries kept) }, removed)

end Document

end Reroot
