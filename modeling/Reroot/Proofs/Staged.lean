import Reroot.Proofs.Ways
import Reroot.Source

set_option autoImplicit false

namespace Reroot

namespace Disk

theorem Keeps.file_iff {paths : List String} {before after : Disk} {place : Place}
    (keeps : Keeps paths before after place) (content : Content) :
    after.item? place = some (.file content) ↔ before.item? place = some (.file content) := by
  rcases keeps with same | ⟨missing, made, -⟩
  · rw [same]
  · simp [missing, made]

end Disk

namespace Remote

variable (origin : Remote) (disk : Disk)

theorem acquire_of_fault (fault : Fault) (failed : (disk.makeFolders origin.stagingDir).2 = some fault) :
    (Source.remote origin).acquire disk =
      .done (.error (.staging fault)) (disk.makeFolders origin.stagingDir).1 := by
  rw [Source.acquire, fetch, ← Prod.eta (disk.makeFolders origin.stagingDir), failed]
  rfl

theorem acquire_of_made (made : (disk.makeFolders origin.stagingDir).2 = none) :
    ((Source.remote origin).acquire disk).disk = (disk.makeFolders origin.stagingDir).1 ∧
    ((Source.remote origin).acquire disk).result =
      if origin.strict then .error (.download origin.manifestUrl)
      else readDocument origin.stagedManifest (disk.makeFolders origin.stagingDir).1 := by
  rw [Source.acquire, fetch, ← Prod.eta (disk.makeFolders origin.stagingDir), made]
  cases origin.strict with
  | true => exact ⟨rfl, rfl⟩
  | false => exact ⟨rfl, rfl⟩

theorem acquire_congr (other : Disk)
    (same : other.makeFolders origin.stagingDir = disk.makeFolders origin.stagingDir) :
    (Source.remote origin).acquire other = (Source.remote origin).acquire disk := by
  rw [Source.acquire, Source.acquire, fetch, fetch, same]

end Remote

theorem read_document_cases (path : String) (disk : Disk) :
    (∃ document, readDocument path disk = .ok document) ∨
    (∃ fault, readDocument path disk = .error (.read path fault)) ∨
    readDocument path disk = .error (.malformed path) := by
  unfold readDocument
  cases disk.readText path with
  | error fault => exact .inr (.inl ⟨fault, rfl⟩)
  | ok text =>
    cases parsed : Document.parse? text with
    | none => exact .inr (.inr (by simp [parsed]))
    | some document => exact .inl ⟨document, by simp [parsed]⟩

namespace Remote

-- A remote source whose download fails. Its staging folder can be made just if no file is on the way
-- to it, and then all that was missing on the way is there as a folder. Where it cannot be made, that
-- is the failure. Otherwise the source fails for good or reads what is staged as a checkout of the
-- staging folder does, again and again with the same answer. No file changes.
theorem acquire_reads_staged (origin : Remote) (disk : Disk) :
    let made := disk.makeFolders origin.stagingDir
    let job := (Source.remote origin).acquire disk
    (made.2 = none ↔ ∀ place ∈ disk.way origin.stagingDir, disk.item? place = some .folder ∨
      disk.item? place = none ∧ place ∈ disk.makable origin.stagingDir) ∧
    (∀ fault, made.2 = some fault → job = .done (.error (.staging fault)) made.1) ∧
    (made.2 = none →
      (∀ place, job.disk.item? place =
        if place ∈ disk.way origin.stagingDir then some .folder else disk.item? place) ∧
      (origin.stagingDir ≠ "" →
        ∀ folder ∈ origin.stagingDir :: (Path.ancestors origin.stagingDir.toList).map String.ofList,
          made.1.isFolder folder = true) ∧
      (origin.strict = true → job.result = .error (.download origin.manifestUrl)) ∧
      (origin.strict = false →
        job.result = ((Source.checkout origin.stagingDir).acquire made.1).result ∧
        ((∃ document, job.result = .ok document) ∨
          (∃ fault, job.result = .error (.read (Source.remote origin).manifestPath fault)) ∨
          job.result = .error (.malformed (Source.remote origin).manifestPath))) ∧
      (Source.remote origin).acquire job.disk = job) ∧
    job.disk = made.1 ∧
    (∀ place, Disk.Keeps [origin.stagingDir] disk job.disk place) ∧
    ∀ place content, job.disk.item? place = some (.file content) ↔
      disk.item? place = some (.file content) := by
  intro made job
  have left : job.disk = made.1 := by
    cases outcome : made.2 with
    | some fault => rw [show job = _ from acquire_of_fault origin disk fault outcome, Job.done]
    | none => exact (acquire_of_made origin disk outcome).1
  have keeps : ∀ place, Disk.Keeps [origin.stagingDir] disk job.disk place :=
    left ▸ (Disk.grows_make_folders disk origin.stagingDir).keeps
  refine ⟨(disk.makes_make_folders origin.stagingDir).1, acquire_of_fault origin disk,
    fun there => ⟨?_, ?_, fun strict => ?_, fun lenient => ?_, ?_⟩, left, keeps,
    fun place => (keeps place).file_iff⟩
  · exact left ▸ disk.item_make_folders origin.stagingDir there
  · exact disk.is_folder_of_make_folders origin.stagingDir there
  · exact (acquire_of_made origin disk there).2.trans (if_pos strict)
  · have read : job.result = readDocument origin.stagedManifest made.1 :=
      (acquire_of_made origin disk there).2.trans (if_neg (by simp [lenient]))
    rw [read]
    exact ⟨rfl, read_document_cases origin.stagedManifest made.1⟩
  · apply acquire_congr
    rw [left, disk.make_folders_again origin.stagingDir there, ← there]

theorem acquire_reads_staged_earlier :
    let origin : Remote := ⟨"abc", defaultRepository, defaultRawBaseUrl, "stage/in/", false⟩
    let bare : Disk := ⟨["home"], [(["home"], .folder)]⟩
    let disk : Disk := ⟨["home"], [(["home"], .folder), (["home", "stage"], .folder),
      (["home", "stage", "in"], .folder),
      (["home", "stage", "in", "Cargo.toml"], .file (.text "[features]\n"))]⟩
    (∃ document, ((Source.remote origin).acquire disk).result = .ok document ∧
      document.root.names = ["features"] ∧
      (Source.remote origin).acquire ((Source.remote origin).acquire disk).disk =
        (Source.remote origin).acquire disk) ∧
    bare.item? ["home", "stage"] = none ∧ bare.item? ["home", "stage", "in"] = none ∧
    ((Source.remote origin).acquire bare).disk.item? ["home", "stage"] = some .folder ∧
    ((Source.remote origin).acquire bare).disk.item? ["home", "stage", "in"] = some .folder := by
  intro origin bare disk
  have staged := acquire_reads_staged origin disk
  obtain ⟨-, -, -, -, again⟩ := staged.2.2.1 (by decide +kernel)
  have read : (((Source.remote origin).acquire disk).result.map fun document => document.root.names) =
      .ok ["features"] := by
    decide +kernel
  have fresh := acquire_reads_staged origin bare
  obtain ⟨item, -⟩ := fresh.2.2.1 (fresh.1.mpr (by decide +kernel))
  refine ⟨?_, by decide, by decide, ?_, ?_⟩
  · cases result : ((Source.remote origin).acquire disk).result with
    | error failure =>
      rw [result] at read
      cases read
    | ok document =>
      rw [result] at read
      exact ⟨document, rfl, Except.ok.inj read, again⟩
  · rw [item, if_pos (by decide +kernel)]
  · rw [item, if_pos (by decide +kernel)]

end Remote

end Reroot
