import Reroot.Document.Orderly
import Reroot.Document.Said
import Reroot.Manifest.Dependencies
import Reroot.Manifest.Fit
import Reroot.Manifest.Package
import Reroot.Manifest.Workspace

set_option autoImplicit false

namespace Reroot

inductive Pass where
  | lift
  | redirect (target : Target)
  | drop (names : List String)
deriving DecidableEq, Repr

namespace Pass

def run? (pass : Pass) (document : Document) : Option Document :=
  match pass with
  | lift => some document.liftWorkspace.1
  | redirect target =>
    if (document.redirect target).stuck.isSome then none else some (document.redirect target).result
  | drop names => some (document.dropDependencies names).1

def runAll? (passes : List Pass) (document : Document) : Option Document :=
  passes.foldlM (fun document pass => pass.run? document) document

end Pass

-- A table spread over dotted keys that has lost all its entries. It prints nothing.
def Node.isSpent : Node → Bool
  | .inline style .nil => style.dotted
  | .inline _ (.cons _ _ _) | .scalar _ _ | .array _ _ | .table _ _ | .tables _ => false

def Entries.unspent : Entries → Entries
  | nil => nil
  | cons key node tail => if node.isSpent then tail.unspent else cons key node tail.unspent

namespace Document

def told (document : Document) : DataFields := document.root.unspent.said

def Straight (document : Document) : Prop := Fragment.Straight document.root

instance (document : Document) : Decidable document.Straight :=
  inferInstanceAs (Decidable (Fragment.Straight document.root))

def BarePackage (document : Document) : Prop :=
  ∀ entry ∈ document.root.toList, entry.1.name = "package" →
    Text.IsBlanks (entry.1.outer.before.getD [])

instance (document : Document) : Decidable document.BarePackage :=
  inferInstanceAs (Decidable (∀ entry ∈ document.root.toList, _))

end Document

end Reroot
