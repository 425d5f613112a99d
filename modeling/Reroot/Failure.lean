import Reroot.Disk.Basic

set_option autoImplicit false

namespace Reroot

inductive Failure where
  | read (path : String) (fault : Fault)
  | write (path : String) (fault : Fault)
  | malformed (path : String)
  | download (url : String)
  | pathNotString (key : String)
  | staging (fault : Fault)
deriving DecidableEq, Repr

def Failure.message : Failure → String
  | read path fault => "Failed to read " ++ path ++ ": " ++ fault.message
  | write path fault => "Failed to write " ++ path ++ ": " ++ fault.message
  | malformed path => "Invalid TOML in " ++ path ++ ": <detail>"
  | download url => "Failed to download " ++ url ++ ": <detail>"
  | pathNotString key => "Dependency '" ++ key ++ "' has a non-string `path` value"
  | staging fault => fault.message

end Reroot
