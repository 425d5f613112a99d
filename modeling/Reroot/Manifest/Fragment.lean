import Reroot.Document.Convert
import Reroot.Log

set_option autoImplicit false

namespace Reroot

-- What became of one top-level key of a fragment: merged, or left out because the manifest has a
-- value there that a table cannot be merged into, or because it has a value already.
inductive SectionFate where
  | merged
  | blocked
  | kept
deriving DecidableEq, Repr

abbrev Fates := List (String × SectionFate)

namespace Fates

def merged (fates : Fates) : List String :=
  (fates.filter (·.2 == .merged)).map (·.1)

def skipped (fates : Fates) : List String :=
  (fates.filter (·.2 != .merged)).map (·.1)

def log (fates : Fates) : List Record :=
  fates.flatMap fun (name, fate) =>
    match fate with
    | .merged => []
    | .blocked => [⟨.debug, .fragment,
        "Not merging into `" ++ name ++ "`: existing value is not a table"⟩]
    | .kept => [⟨.warn, .fragment, "Fragment key `" ++ name ++
        "` is not a table and the manifest already defines it; keeping the manifest's value"⟩]

end Fates

namespace Fragment

def defaultFile : String := "solfuzz_agave.toml"

def emptySection (node : Node) : Node :=
  match node with
  | .table style _ => .table { TableStyle.fresh with implicit := style.implicit } .nil
  | _ => .table .fresh .nil

def putAll (entries : Entries) (place : Node) : Node :=
  match entries with
  | .nil => place
  | .cons key node tail => putAll tail (place.putEntry key.name node)

def overlay (name : String) (node : Node) (root : Entries) : Entries × SectionFate :=
  match node.entries? with
  | none => if root.contains name then (root, .kept) else (root.put name node, .merged)
  | some entries =>
    let root := if root.contains name then root else root.put name (emptySection node)
    if ((root.get? name).map Node.isTable).getD false then
      (root.modify name (putAll entries), .merged)
    else (root, .blocked)

def overlayAll (root : Entries) : Entries → Entries × Fates
  | .nil => (root, [])
  | .cons key node tail =>
    let (root, fate) := overlay key.name node root
    let (root, fates) := overlayAll root tail
    (root, (key.name, fate) :: fates)

end Fragment

namespace Document

def overlay (document fragment : Document) : Document × Fates :=
  let (root, fates) := Fragment.overlayAll document.root fragment.root
  ({ document with root := root }, fates)

end Document

end Reroot
