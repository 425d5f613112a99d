import Reroot.Failure
import Reroot.Log

set_option autoImplicit false

namespace Reroot

structure Job (α : Type) where
  result : Except Failure α
  disk : Disk
  printed : String
  log : List Record

namespace Job

variable {α β : Type}

def done (result : Except Failure α) (disk : Disk) : Job α := ⟨result, disk, "", []⟩

def andThen (first : Job α) (next : α → Disk → Job β) : Job β :=
  match first.result with
  | .error failure => ⟨.error failure, first.disk, first.printed, first.log⟩
  | .ok result =>
    let second := next result first.disk
    ⟨second.result, second.disk, first.printed ++ second.printed, first.log ++ second.log⟩

def after (records : List Record) (job : Job α) : Job α := { job with log := records ++ job.log }

end Job

end Reroot
