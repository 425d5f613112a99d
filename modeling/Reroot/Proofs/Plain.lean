import Reroot.Document.Data
import Reroot.Manifest.Summary

set_option autoImplicit false

namespace Reroot

namespace Data

def fields? : Data → Option DataFields
  | object fields => some fields
  | string _ | integer _ | boolean _ | float _ | moment _ | list _ => none

def string? : Data → Option String
  | string value => some value
  | _ => none

end Data

namespace DataFields

def contains (name : String) (fields : DataFields) : Bool := (fields.get? name).isSome

def erase (name : String) : DataFields → DataFields
  | nil => nil
  | cons other data tail =>
    if other = name then tail.erase name else cons other data (tail.erase name)

def put (name : String) (data : Data) : DataFields → DataFields
  | nil => cons name data nil
  | cons other value tail =>
    if other = name then cons name data tail else cons other value (tail.put name data)

def eraseAll : List String → DataFields → DataFields × List String
  | [], fields => (fields, [])
  | name :: names, fields =>
    if fields.contains name then
      let (fields, removed) := eraseAll names (fields.erase name)
      (fields, name :: removed)
    else eraseAll names fields

def putAll (place : DataFields) : DataFields → DataFields
  | nil => place
  | cons name data tail => putAll (place.put name data) tail

def lift (root : DataFields) : DataFields → DataFields × Lifted
  | nil => (root, .none)
  | cons name data tail =>
    if Workspace.membershipKeys.contains name then
      let (root, keys) := lift root tail
      (root, { keys with discarded := name :: keys.discarded })
    else if root.contains name then
      let (root, keys) := lift root tail
      (root, { keys with shadowed := name :: keys.shadowed })
    else
      let (root, keys) := lift (root.put name data) tail
      (root, { keys with moved := name :: keys.moved })

def liftWorkspace (root : DataFields) : DataFields × Lifted :=
  match root.get? "workspace" with
  | none => (root, .none)
  | some found =>
    match found.fields? with
    | none => (root.erase "workspace", .none)
    | some fields => lift (root.erase "workspace") fields

end DataFields

namespace Target

def plainReference : List (String × String) → Data
  | pairs => .object (pairs.foldr (fun (name, value) fields => .cons name (.string value) fields) .nil)

def plainReplacement? (target : Target) (fields : DataFields) : Option Data :=
  match target with
  | revision url rev => some (plainReference [("git", url), ("rev", rev)])
  | checkout base =>
    ((fields.get? "path").bind Data.string?).map fun path =>
      plainReference [("path", base ++ "/" ++ path)]

end Target

def Data.redirected? (target : Target) (name : String) (data : Data) : Option (Walk Data) :=
  match data.fields? with
  | none => none
  | some fields =>
    if fields.contains "path" then
      match target.plainReplacement? fields with
      | some reference => some ⟨reference, [name], none⟩
      | none => some ⟨data, [], some name⟩
    else none

mutual
def Data.redirect (target : Target) : Data → Walk Data
  | .string value => .stay (.string value)
  | .integer value => .stay (.integer value)
  | .boolean value => .stay (.boolean value)
  | .float spelling => .stay (.float spelling)
  | .moment spelling => .stay (.moment spelling)
  | .list elements => (elements.redirect target).map .list
  | .object fields => (fields.redirect target).map .object
def DataList.redirect (target : Target) : DataList → Walk DataList
  | .nil => .stay .nil
  | .cons head tail => .join .cons (head.redirect target) tail (tail.redirect target)
def DataFields.redirect (target : Target) : DataFields → Walk DataFields
  | .nil => .stay .nil
  | .cons name data tail =>
    let first := (data.redirected? target name).getD (data.redirect target)
    .join (.cons name) first tail (tail.redirect target)
end

namespace DataFields

def blankPackage (root : DataFields) : DataFields := root.put "package" (.object .nil)

def dropDependencies (names : List String) (root : DataFields) : DataFields × List String :=
  match (root.get? "dependencies").bind Data.fields? with
  | none => (root, [])
  | some fields =>
    let (kept, removed) := fields.eraseAll names
    (root.put "dependencies" (.object kept), removed)

def overlay (name : String) (data : Data) (root : DataFields) : DataFields × SectionFate :=
  match data.fields? with
  | none => if root.contains name then (root, .kept) else (root.put name data, .merged)
  | some fields =>
    let root := if root.contains name then root else root.put name (.object .nil)
    match (root.get? name).bind Data.fields? with
    | some there => (root.put name (.object (there.putAll fields)), .merged)
    | none => (root, .blocked)

def overlayAll (root : DataFields) : DataFields → DataFields × Fates
  | nil => (root, [])
  | cons name data tail =>
    let (root, fate) := overlay name data root
    let (root, fates) := overlayAll root tail
    (root, (name, fate) :: fates)

end DataFields

structure Report where
  lifted : Lifted
  redirected : List String
  removed : List String
  fragment : Fates
deriving DecidableEq, Repr

namespace DataFields

def standAlone (root : DataFields) (target : Target) (fragment : DataFields)
    (removals : List String) : DataFields × Except String Report :=
  let (root, lifted) := root.liftWorkspace
  let walk := root.redirect target
  match walk.stuck with
  | some key => (walk.result, .error key)
  | none =>
    let (root, removed) := walk.result.blankPackage.dropDependencies removals
    let (root, fates) := root.overlayAll fragment
    (root, .ok ⟨lifted, walk.replaced, removed, fates⟩)

end DataFields

end Reroot
