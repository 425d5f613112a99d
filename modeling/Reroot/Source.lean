import Reroot.Document.Reader
import Reroot.Job
import Reroot.Manifest.Dependencies

set_option autoImplicit false

namespace Reroot

def manifestFile : String := "Cargo.toml"

-- A revision of a repository. With `strict` a failed download ends the run; otherwise the staged
-- manifest is used, whatever it is.
structure Remote where
  commit : String
  repository : String
  rawBaseUrl : String
  stagingDir : String
  strict : Bool
deriving DecidableEq, Repr

namespace Remote

def defaultRepository : String := "firedancer-io/agave"

def defaultRawBaseUrl : String := "https://raw.githubusercontent.com"

def defaultStagingDir : String := "dump"

def trimSlashes (text : String) : String :=
  String.ofList (text.toList.reverse.dropWhile (· == '/')).reverse

def manifestUrl (remote : Remote) : String :=
  trimSlashes remote.rawBaseUrl ++ "/" ++ remote.repository ++ "/" ++ remote.commit ++ "/" ++
    manifestFile

def gitUrl (remote : Remote) : String := "https://github.com/" ++ remote.repository

def stagedManifest (remote : Remote) : String :=
  String.ofList (Path.join remote.stagingDir.toList manifestFile.toList)

end Remote

inductive Source where
  | checkout (root : String)
  | remote (origin : Remote)
deriving DecidableEq, Repr

def readDocument (path : String) (disk : Disk) : Except Failure Document :=
  match disk.readText path with
  | .error fault => .error (.read path fault)
  | .ok text =>
    match Document.parse? text with
    | none => .error (.malformed path)
    | some document => .ok document

namespace Source

def manifestPath : Source → String
  | checkout root => String.ofList (Path.join root.toList manifestFile.toList)
  | remote origin => origin.stagedManifest

def target : Source → Target
  | checkout root => .checkout root
  | remote origin => .revision origin.gitUrl origin.commit

end Source

namespace Remote

-- Downloads the manifest into the staging folder, which is made first. No host answers here: every
-- download fails in transport, and what is staged already is left to be read.
def fetch (remote : Remote) (disk : Disk) : Job Unit :=
  match disk.makeFolders remote.stagingDir with
  | (disk, some fault) => .done (.error (.staging fault)) disk
  | (disk, none) =>
    let failure := Failure.download remote.manifestUrl
    let begun : Record := ⟨.info, .source, "Downloading " ++ remote.manifestUrl⟩
    if remote.strict then (Job.done (.error failure) disk).after [begun]
    else (Job.done (.ok ()) disk).after [
      begun,
      ⟨.warn, .source, "Error occurred while downloading the file: " ++ failure.message⟩,
      ⟨.warn, .source, "Continuing with whatever is staged at " ++ remote.stagedManifest ++
        "; it may belong to another revision"⟩]

end Remote

namespace Source

def acquire (source : Source) (disk : Disk) : Job Document :=
  match source with
  | checkout _ => .done (readDocument source.manifestPath disk) disk
  | remote origin => (origin.fetch disk).andThen fun _ disk =>
    .done (readDocument source.manifestPath disk) disk

end Source

end Reroot
