import Reroot.Document.Convert
import Reroot.Log
import Reroot.Text.Shown

set_option autoImplicit false

namespace Reroot

structure Lifted where
  moved : List String
  shadowed : List String
  discarded : List String
deriving DecidableEq, Repr

namespace Lifted

def none : Lifted := ⟨[], [], []⟩

end Lifted

inductive WorkspaceFate where
  | absent
  | dropped (kind : String)
  | lifted (keys : Lifted)
deriving DecidableEq, Repr

namespace WorkspaceFate

def keys : WorkspaceFate → Lifted
  | absent => .none
  | dropped _ => .none
  | lifted keys => keys

def log : WorkspaceFate → List Record
  | absent => []
  | dropped kind =>
    [⟨.warn, .workspace, "Dropping `workspace` key that is not a table (" ++ kind ++ ")"⟩]
  | lifted keys =>
    keys.shadowed.map (fun name => ⟨.debug, .workspace,
      "Keeping existing top-level `" ++ name ++ "` over workspace." ++ name⟩) ++
    [⟨.debug, .workspace, "Flattened workspace: moved " ++ Text.Shown.names keys.moved ++
      ", shadowed " ++ Text.Shown.names keys.shadowed ++
      ", discarded " ++ Text.Shown.names keys.discarded⟩]

end WorkspaceFate

namespace Workspace

-- Keys that have a meaning only for several packages together.
def membershipKeys : List String := ["members", "exclude", "resolver"]

def lift (root : Entries) : Entries → Entries × Lifted
  | .nil => (root, .none)
  | .cons key node tail =>
    if membershipKeys.contains key.name then
      let (root, keys) := lift root tail
      (root, { keys with discarded := key.name :: keys.discarded })
    else if root.contains key.name then
      let (root, keys) := lift root tail
      (root, { keys with shadowed := key.name :: keys.shadowed })
    else
      let (root, keys) := lift (root.put key.name node) tail
      (root, { keys with moved := key.name :: keys.moved })

end Workspace

namespace Document

def liftWorkspace (document : Document) : Document × WorkspaceFate :=
  match document.root.get? "workspace" with
  | none => (document, .absent)
  | some found =>
    let root := document.root.erase "workspace"
    match found.underHeader? with
    | none => ({ document with root := root }, .dropped found.kind)
    | some entries =>
      let (root, keys) := Workspace.lift root entries
      ({ document with root := root }, .lifted keys)

end Document

end Reroot
