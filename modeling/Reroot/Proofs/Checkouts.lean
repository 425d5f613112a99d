import Reroot.Proofs.Runs

set_option autoImplicit false

namespace Reroot

namespace Job

variable {α β : Type} {first : Job α} {next : α → Disk → Job β} {disk : Disk}

theorem Quiet.disk_and_then (quiet : first.Quiet disk) (holds : Disk → Prop) (here : holds disk)
    (later : ∀ result, holds (next result disk).disk) : holds (first.andThen next).disk := by
  cases result : first.result with
  | error failure =>
    rw [and_then_of_error failure result, quiet.1]
    exact here
  | ok result' =>
    rw [and_then_of_ok result' result, quiet.1]
    exact later result'

theorem mem_log_and_then (record : Record) (member : record ∈ (first.andThen next).log) :
    record ∈ first.log ∨ ∃ result disk, record ∈ (next result disk).log := by
  cases result : first.result with
  | error failure =>
    rw [and_then_of_error failure result] at member
    exact .inl member
  | ok result' =>
    rw [and_then_of_ok result' result] at member
    exact (List.mem_append.mp member).imp_right fun later => ⟨result', first.disk, later⟩

end Job

def Record.Local (record : Record) : Prop := record.topic ≠ .source

theorem WorkspaceFate.local_log (fate : WorkspaceFate) : ∀ record ∈ fate.log, record.Local := by
  cases fate with
  | absent => simp [log]
  | dropped kind => simp [log, Record.Local]
  | lifted keys =>
    intro record member
    rcases List.mem_append.mp member with shadowed | last
    · obtain ⟨name, -, rfl⟩ := List.mem_map.mp shadowed
      simp [Record.Local]
    · simp [List.mem_singleton.mp last, Record.Local]

theorem Walk.local_log {α : Type} (walk : Walk α) : ∀ record ∈ walk.log, record.Local := by
  intro record member
  rcases List.mem_append.mp member with replaced | last
  · obtain ⟨name, -, rfl⟩ := List.mem_map.mp replaced
    simp [Record.Local]
  · split at last
    · cases last
    · simp [List.mem_singleton.mp last, Record.Local]

theorem Fates.local_log (fates : Fates) : ∀ record ∈ fates.log, record.Local := by
  intro record member
  obtain ⟨⟨name, fate⟩, -, there⟩ := List.mem_flatMap.mp member
  cases fate with
  | merged => cases there
  | blocked => simp [List.mem_singleton.mp there, Record.Local]
  | kept => simp [List.mem_singleton.mp there, Record.Local]

namespace Document

theorem local_stand_alone_job (manifest : Document) (target : Target) (fragment : Document)
    (removals : List String) (disk : Disk) :
    ∀ record ∈ (manifest.standAloneJob target fragment removals disk).log, record.Local := by
  intro record member
  rw [standAloneJob] at member
  rcases run : manifest.standAlone target fragment removals with ⟨finished, stuck | summary⟩ <;>
    simp only [run, Job.after, Job.done, List.append_nil] at member
  · rcases List.mem_append.mp member with lifted | walked
    · exact stuck.workspace.local_log record lifted
    · exact Walk.local_log _ record walked
  · rcases List.mem_append.mp member with early | laid
    · rcases List.mem_append.mp early with lifted | walked
      · exact summary.workspace.local_log record lifted
      · exact Walk.local_log _ record walked
    · exact summary.fragment.local_log record laid

theorem local_emit (document : Document) (output : String) (dryRun : Bool) (disk : Disk)
    (storage : Storage) : ∀ record ∈ (document.emit output dryRun disk storage).log, record.Local := by
  intro record member
  rw [emit] at member
  cases dryRun with
  | true => simp [List.mem_singleton.mp member, Record.Local]
  | false =>
    rw [if_neg Bool.false_ne_true] at member
    split at member
    · cases member
    · simp [List.mem_singleton.mp member, Record.Local]

theorem folder_emit (document : Document) (output : String) (dryRun : Bool) (disk : Disk)
    (storage : Storage) (place : Place) :
    (document.emit output dryRun disk storage).disk.item? place = some .folder ↔
      disk.item? place = some .folder := by
  cases dryRun with
  | true => rfl
  | false =>
    rw [emit, if_neg Bool.false_ne_true]
    rcases disk.write_text_cases output document.render storage with ⟨fault, same⟩ |
      ⟨after, wrote, written, puts⟩ | ⟨after, stop, broken, written, count, -, puts⟩
    · rw [same]
      rfl
    · rw [wrote]
      exact puts.folder_iff place
    · rw [broken]
      exact puts.folder_iff place

end Document

namespace Options

structure SameCheckout (root : String) (first second : Options) : Prop where
  checkout : first.agavePath = some root
  checkout' : second.agavePath = some root
  output : first.output = second.output
  fragment : first.fragment = second.fragment
  removals : first.removeDependency = second.removeDependency
  dryRun : first.dryRun = second.dryRun

def work (options : Options) (color : Bool) (disk : Disk) (storage : Storage) : Job Unit :=
  (options.source.acquire disk).andThen fun document disk =>
    (Job.done (readDocument options.fragment disk) disk).andThen fun fragment disk =>
    (document.standAloneJob options.source.target fragment options.removals disk).andThen
      fun (document, summary) disk =>
    (document.emit options.output options.dryRun disk storage).andThen fun _ disk =>
    options.report color summary disk

theorem run_eq_work (options : Options) (color : Bool) (disk : Disk) (storage : Storage) :
    options.run color disk storage = (options.work color disk storage).after options.opening := rfl

theorem source_checkout (options : Options) (root : String) (checkout : options.agavePath = some root) :
    options.source = .checkout root := by
  rw [source, checkout]

theorem SameCheckout.work_eq {root : String} {first second : Options}
    (same : SameCheckout root first second) (color : Bool) (disk : Disk) (storage : Storage) :
    first.work color disk storage = second.work color disk storage := by
  have report : first.report color = second.report color := by
    funext summary disk
    rw [Options.report, Options.report, first.source_checkout root same.checkout,
      second.source_checkout root same.checkout', same.output, same.dryRun]
  have removals : first.removals = second.removals := by
    rw [Options.removals, Options.removals, same.removals]
  rw [Options.work, Options.work, report, removals, first.source_checkout root same.checkout,
    second.source_checkout root same.checkout', same.output, same.fragment, same.dryRun]

theorem local_report (options : Options) (color : Bool) (summary : Summary) (disk : Disk) :
    ∀ record ∈ (options.report color summary disk).log, record.Local := by
  intro record member
  rw [report] at member
  split at member
  · simp [List.mem_singleton.mp member, Record.Local]
  · cases member

theorem local_opening (options : Options) : ∀ record ∈ options.opening, record.Local := by
  intro record member
  rcases List.mem_append.mp member with both | last
  · split at both
    · simp [List.mem_singleton.mp both, Record.Local]
    · cases both
  · simp [List.mem_singleton.mp last, Record.Local]

theorem local_work (options : Options) (root : String) (checkout : options.agavePath = some root)
    (color : Bool) (disk : Disk) (storage : Storage) :
    ∀ record ∈ (options.work color disk storage).log, record.Local := by
  intro record member
  rw [work, options.source_checkout root checkout] at member
  rcases Job.mem_log_and_then record member with acquired | ⟨manifest, _, later⟩
  · cases acquired
  rcases Job.mem_log_and_then record later with read | ⟨fragment, _, later⟩
  · cases read
  rcases Job.mem_log_and_then record later with passed | ⟨⟨finished, summary⟩, _, later⟩
  · exact manifest.local_stand_alone_job _ fragment _ _ record passed
  rcases Job.mem_log_and_then record later with emitted | ⟨_, _, reported⟩
  · exact finished.local_emit _ _ _ storage record emitted
  · exact options.local_report color summary _ record reported

theorem folder_work (options : Options) (root : String) (checkout : options.agavePath = some root)
    (color : Bool) (disk : Disk) (storage : Storage) (place : Place) :
    (options.work color disk storage).disk.item? place = some .folder ↔
      disk.item? place = some .folder := by
  let holds (after : Disk) : Prop := after.item? place = some .folder ↔ disk.item? place = some .folder
  rw [work, options.source_checkout root checkout]
  refine Job.Quiet.disk_and_then (Job.quiet_done _ disk) holds .rfl fun manifest => ?_
  refine Job.Quiet.disk_and_then (Job.quiet_done _ disk) holds .rfl fun fragment => ?_
  refine Job.Quiet.disk_and_then (Document.quiet_stand_alone_job _ _ _ _ disk) holds .rfl
    fun (finished, summary) => ?_
  dsimp only
  have wrote := finished.folder_emit options.output options.dryRun disk storage place
  cases emitted : (finished.emit options.output options.dryRun disk storage).result with
  | error failure =>
    rw [Job.and_then_of_error failure emitted]
    exact wrote
  | ok nothing =>
    rw [Job.and_then_of_ok nothing emitted, (options.report_ok color summary _).2]
    exact wrote

-- Runs from one checkout have the same result, print the same and leave the same files, and note the
-- same after their first records. They make no folder, and nothing that they note is of a download.
theorem run_checkout_same (root : String) (first second : Options)
    (same : SameCheckout root first second) (color : Bool) (disk : Disk) (storage : Storage) :
    (first.run color disk storage).result = (second.run color disk storage).result ∧
    (first.run color disk storage).printed = (second.run color disk storage).printed ∧
    (first.run color disk storage).disk = (second.run color disk storage).disk ∧
    (∃ shared, (first.run color disk storage).log = first.opening ++ shared ∧
      (second.run color disk storage).log = second.opening ++ shared) ∧
    (∀ place, (first.run color disk storage).disk.item? place = some .folder ↔
      disk.item? place = some .folder) ∧
    ∀ record ∈ (first.run color disk storage).log, record.topic ≠ .source := by
  have work := same.work_eq color disk storage
  rw [run_eq_work, run_eq_work, ← work]
  refine ⟨rfl, rfl, rfl, ⟨_, rfl, rfl⟩, first.folder_work root same.checkout color disk storage, ?_⟩
  intro record member
  rcases List.mem_append.mp member with opening | later
  · exact first.local_opening record opening
  · exact first.local_work root same.checkout color disk storage record later

theorem run_checkout_same_beside_revision :
    let disk := inPlaceFiles (some "[dependencies]\na.path = 'a'\n")
    let first := { inPlace true with agavePath := some "stage/in" }
    let second := { inPlace false with agavePath := some "stage/in", commit := none }
    SameCheckout "stage/in" first second ∧ (first.run false disk).disk = (second.run false disk).disk ∧
      (second.run false disk).result = .ok () := by
  have same : SameCheckout "stage/in" { inPlace true with agavePath := some "stage/in" }
      { inPlace false with agavePath := some "stage/in", commit := none } :=
    ⟨rfl, rfl, rfl, rfl, rfl, rfl⟩
  have run := run_checkout_same "stage/in" _ _ same false
    (inPlaceFiles (some "[dependencies]\na.path = 'a'\n")) .sound
  exact ⟨same, run.2.2.1, by decide +kernel⟩

end Options

end Reroot
