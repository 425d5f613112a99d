import Reroot.Manifest.Dependencies
import Reroot.Manifest.Fragment
import Reroot.Manifest.Package
import Reroot.Manifest.Workspace

set_option autoImplicit false

namespace Reroot

structure Summary where
  workspace : WorkspaceFate
  redirected : List String
  removed : List String
  fragment : Fates
deriving DecidableEq, Repr

structure Stuck where
  workspace : WorkspaceFate
  redirected : List String
  key : String
deriving DecidableEq, Repr

namespace Summary

def log (summary : Summary) : List Record :=
  summary.workspace.log ++ Walk.log ⟨(), summary.redirected, none⟩ ++ summary.fragment.log

end Summary

namespace Stuck

def log (stuck : Stuck) : List Record :=
  stuck.workspace.log ++ Walk.log ⟨(), stuck.redirected, some stuck.key⟩

end Stuck

namespace Document

-- Lifts the workspace, redirects path dependencies, blanks the package, removes the named
-- dependencies and lays the fragment over the result. A dependency that cannot be redirected ends
-- this with the manifest as it is by then.
def standAlone (document : Document) (target : Target) (fragment : Document)
    (removals : List String) : Document × Except Stuck Summary :=
  let (document, workspace) := document.liftWorkspace
  let walk := document.redirect target
  match walk.stuck with
  | some key => (walk.result, .error ⟨workspace, walk.replaced, key⟩)
  | none =>
    let (document, removed) := walk.result.blankPackage.dropDependencies removals
    let (document, fates) := document.overlay fragment
    (document, .ok ⟨workspace, walk.replaced, removed, fates⟩)

end Document

end Reroot
