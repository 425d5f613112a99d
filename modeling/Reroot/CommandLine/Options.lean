import Reroot.Manifest.Fragment
import Reroot.Manifest.Package
import Reroot.Source

set_option autoImplicit false

namespace Reroot

inductive Setting where
  | commit
  | agavePath
  | output
  | fragment
  | stagingDir
  | repository
  | rawBaseUrl
  | removeDependency
deriving DecidableEq, Repr

namespace Setting

def repeats : Setting → Bool
  | removeDependency => true
  | _ => false

def isPath : Setting → Bool
  | output | fragment | stagingDir => true
  | _ => false

end Setting

inductive Switch where
  | strict
  | dryRun
deriving DecidableEq, Repr

inductive Given where
  | setting (setting : Setting) (value : String)
  | switch (switch : Switch)
deriving DecidableEq, Repr

namespace Given

def values (setting : Setting) (given : List Given) : List String :=
  given.filterMap fun
    | .setting other value => if other = setting then some value else none
    | .switch _ => none

def value? (wanted : Setting) (given : List Given) : Option String := (values wanted given).head?

def isOn (wanted : Switch) (given : List Given) : Bool := given.contains (.switch wanted)

end Given

structure Options where
  commit : Option String
  agavePath : Option String
  output : String
  fragment : String
  stagingDir : String
  repository : String
  rawBaseUrl : String
  removeDependency : List String
  strict : Bool
  dryRun : Bool
deriving DecidableEq, Repr

namespace Options

def ofGiven? (given : List Given) : Option Options :=
  let commit := Given.value? .commit given
  let agavePath := Given.value? .agavePath given
  match Given.value? .output given with
  | none => none
  | some output =>
    if commit.isNone && agavePath.isNone then none
    else some {
      commit := commit
      agavePath := agavePath
      output := output
      fragment := (Given.value? .fragment given).getD Fragment.defaultFile
      stagingDir := (Given.value? .stagingDir given).getD Remote.defaultStagingDir
      repository := (Given.value? .repository given).getD Remote.defaultRepository
      rawBaseUrl := (Given.value? .rawBaseUrl given).getD Remote.defaultRawBaseUrl
      removeDependency := Given.values .removeDependency given
      strict := Given.isOn .strict given
      dryRun := Given.isOn .dryRun given }

def source (options : Options) : Source :=
  match options.agavePath with
  | some root => .checkout root
  | none => .remote {
      commit := options.commit.getD ""
      repository := options.repository
      rawBaseUrl := options.rawBaseUrl
      stagingDir := options.stagingDir
      strict := options.strict }

def addNames (names : List String) : List String → List String
  | [] => names
  | name :: rest => addNames (if names.contains name then names else names ++ [name]) rest

def removals (options : Options) : List String :=
  addNames deniedDependencies options.removeDependency

end Options

end Reroot
