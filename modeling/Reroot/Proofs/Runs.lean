import Reroot.Proofs.Files
import Reroot.Run

set_option autoImplicit false

namespace Reroot

namespace Job

variable {α β : Type} {first : Job α} {next : α → Disk → Job β} {disk : Disk}

def Quiet (job : Job α) (disk : Disk) : Prop := job.disk = disk ∧ job.printed = ""

theorem quiet_done (result : Except Failure α) (disk : Disk) : (done result disk).Quiet disk :=
  ⟨rfl, rfl⟩

theorem Quiet.after {job : Job α} (quiet : job.Quiet disk) (records : List Record) :
    (job.after records).Quiet disk := quiet

theorem and_then_of_ok (result : α) (ok : first.result = .ok result) :
    first.andThen next = ⟨(next result first.disk).result, (next result first.disk).disk,
      first.printed ++ (next result first.disk).printed,
      first.log ++ (next result first.disk).log⟩ := by
  rw [andThen, ok]

theorem and_then_of_error (failure : Failure) (failed : first.result = .error failure) :
    first.andThen next = ⟨.error failure, first.disk, first.printed, first.log⟩ := by
  rw [andThen, failed]

end Job

namespace Options

def folders (options : Options) : List String :=
  match options.agavePath with
  | some _ => []
  | none => [options.stagingDir]

def staged (options : Options) (disk : Disk) : Disk :=
  match options.agavePath with
  | some _ => disk
  | none => (disk.makeFolders options.stagingDir).1

end Options

namespace Document

theorem quiet_stand_alone_job (manifest : Document) (target : Target) (fragment : Document)
    (removals : List String) (disk : Disk) :
    (manifest.standAloneJob target fragment removals disk).Quiet disk := by
  rw [standAloneJob]
  split
  · exact (Job.quiet_done _ disk).after _
  · exact (Job.quiet_done _ disk).after _

end Document

namespace Options

theorem report_ok (options : Options) (color : Bool) (summary : Summary) (disk : Disk) :
    (options.report color summary disk).result = .ok () ∧
      (options.report color summary disk).disk = disk := by
  unfold report
  split
  · exact ⟨rfl, rfl⟩
  · exact ⟨rfl, rfl⟩

def inPlace (strict : Bool) : Options where
  commit := some "abc"
  agavePath := none
  output := "stage/in/Cargo.toml"
  fragment := "fragment.toml"
  stagingDir := "stage/in"
  repository := Remote.defaultRepository
  rawBaseUrl := Remote.defaultRawBaseUrl
  removeDependency := []
  strict := strict
  dryRun := false

def inPlaceFiles (manifest : Option String) : Disk where
  working := ["home"]
  items := [(["home"], .folder), (["home", "fragment.toml"], .file (.text "[features]\nf = []\n"))] ++
    match manifest with
    | none => []
    | some text => [(["home", "stage"], .folder), (["home", "stage", "in"], .folder),
        (["home", "stage", "in", "Cargo.toml"], .file (.text text))]

end Options

end Reroot
