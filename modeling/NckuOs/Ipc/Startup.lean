import Mathlib.Data.Finset.Basic
import NckuOs.Lib.Threads

/-!
# Runs that share a segment

Any number of runs of the two programs with mechanism 2, in any order, of which
`shmat`, `sem_init` and `fopen` may fail.  A step is one call, or one access to
`ready`.  Sending and receiving is one step, and it may as well never be taken: of the
segment it reads `ready`, which it waits for again, and it leaves `ready` and the key
alone.  `sem_destroy` changes neither, and is not modelled.
-/

namespace NckuOs.Ipc.Startup

open NckuOs.Threads

/-! ## The kernel -/

/-- A segment: the field `ready`, whether `IPC_RMID` has marked it, and the processes
that have it attached. -/
structure Segment (ι : Type) where
  ready : Bool
  removed : Bool
  attached : Finset ι

/-- The segment that the key names, and the segments so far.  Identifiers are not
used again. -/
structure Kernel (ι : Type) where
  key : Option Nat
  next : Nat
  segment : Nat → Segment ι

variable {ι : Type}

/-- What `shmget` creates is filled with zeros. -/
def Segment.fresh : Segment ι where
  ready := false
  removed := false
  attached := ∅

namespace Kernel

def initial : Kernel ι where
  key := none
  next := 0
  segment _ := .fresh

def modify (kernel : Kernel ι) (shmid : Nat) (f : Segment ι → Segment ι) : Kernel ι :=
  { kernel with segment := Function.update kernel.segment shmid (f (kernel.segment shmid)) }

/-- `shmget` with `IPC_CREAT | IPC_EXCL` when the key names no segment. -/
def create (kernel : Kernel ι) : Kernel ι where
  key := some kernel.next
  next := kernel.next + 1
  segment := Function.update kernel.segment kernel.next .fresh

/-- A segment that is marked lasts until the last process detaches it, and can be
attached till then. -/
def Attachable (kernel : Kernel ι) (shmid : Nat) : Prop :=
  (kernel.segment shmid).removed = true → (kernel.segment shmid).attached ≠ ∅

def storeReady (kernel : Kernel ι) (shmid : Nat) (ready : Bool) : Kernel ι :=
  kernel.modify shmid fun segment => { segment with ready := ready }

/-- `shmctl` with `IPC_RMID`: the key is free again. -/
def remove (kernel : Kernel ι) (shmid : Nat) : Kernel ι :=
  { kernel.modify shmid fun segment => { segment with removed := true } with
    key := if kernel.key = some shmid then none else kernel.key }

variable [DecidableEq ι]

instance (kernel : Kernel ι) (shmid : Nat) : Decidable (kernel.Attachable shmid) :=
  inferInstanceAs (Decidable (_ → _))

def attach (kernel : Kernel ι) (i : ι) (shmid : Nat) : Kernel ι :=
  kernel.modify shmid fun segment => { segment with attached := insert i segment.attached }

/-- `shmdt`, or the end of the process. -/
def detach (kernel : Kernel ι) (i : ι) (shmid : Nat) : Kernel ι :=
  kernel.modify shmid fun segment => { segment with attached := segment.attached.erase i }

end Kernel

/-! ## The processes -/

/-- Which of the two programs runs. -/
inductive Role
  | sender
  | receiver
  deriving DecidableEq, Repr

/-- The semaphores, in the order of their `sem_init`. -/
inductive Semaphore
  | mutex
  | empty
  | full
  deriving DecidableEq, Repr

/-- A run: its program, and which of its calls succeed.  `communicate` is whether sending
and receiving returns to `main`, and does not call `exit`. -/
structure Run where
  role : Role
  shmat : Bool
  semInit : Semaphore → Bool
  fopen : Bool
  communicate : Bool

/-- No call fails from `shmat` to the assignment of `ready`. -/
def Run.Initializes (run : Run) : Prop :=
  run.shmat = true ∧ run.semInit .mutex = true ∧ run.semInit .empty = true ∧
    run.semInit .full = true

instance (run : Run) : Decidable run.Initializes :=
  inferInstanceAs (Decidable (_ ∧ _))

/-- The next call of a process, with `created_shared_memory` and `shmid`. -/
inductive Pc
  | shmgetExcl
  | shmget
  | shmat (created : Bool) (shmid : Nat)
  | memset (shmid : Nat)
  | semInit (sem : Semaphore) (shmid : Nat)
  | setReady (shmid : Nat)
  | waitReady (shmid : Nat)
  | fopen (created : Bool) (shmid : Nat)
  | communicate (created : Bool) (shmid : Nat)
  | shmdt (remove : Bool) (shmid : Nat)
  | shmctl (shmid : Nat)
  | exit (shmid : Nat)
  | ended
  deriving DecidableEq, Repr

/-- The variables that decide what `cleanup` does: `created_shared_memory`, whether
`mailbox.flag` is `SHARED_MEM`, and whether `exit_code` is `EXIT_SUCCESS`. -/
structure Locals where
  created : Bool
  sharedMem : Bool
  success : Bool

/-- Whether `cleanup` removes the segment: the sender one that it made, when it failed,
and the receiver one that it made, or has received from. -/
def Locals.shouldRemove (locals : Locals) : Role → Bool
  | .sender => !locals.success && locals.created
  | .receiver => locals.success || locals.created

/-- `cleanup` with the segment attached.  A process that does not detach it returns
with it. -/
def cleanup (role : Role) (locals : Locals) (shmid : Nat) : Pc :=
  if locals.sharedMem then .shmdt (locals.shouldRemove role) shmid else .exit shmid

/-- What follows a failed `shmat`; `cleanup` does nothing, as `shared_block` is
`NULL`. -/
def shmatFailed (role : Role) (created : Bool) (shmid : Nat) : Pc :=
  match role with
  | .sender => .ended
  | .receiver => if created then .shmctl shmid else .ended

/-- What follows a successful `sem_init`. -/
def nextInit (shmid : Nat) : Semaphore → Pc
  | .mutex => .semInit .empty shmid
  | .empty => .semInit .full shmid
  | .full => .setReady shmid

/-- What follows a failed `sem_init`; the receiver has set `mailbox.flag` before, and
the sender sets it after the last of them. -/
def semInitFailed (role : Role) (shmid : Nat) : Pc :=
  cleanup role ⟨true, role = .receiver, false⟩ shmid

/-- The segment is set up: the sender opens its input. -/
def setUpDone (role : Role) (created : Bool) (shmid : Nat) : Pc :=
  match role with
  | .sender => .fopen created shmid
  | .receiver => .communicate created shmid

variable [DecidableEq ι]

/-- The next step of process `i`.  Polling is a step that changes nothing. -/
def step (runs : ι → Run) (i : ι) (kernel : Kernel ι) : Pc → Option (Kernel ι × Pc)
  | .shmgetExcl =>
      match kernel.key with
      | none => some (kernel.create, .shmat true kernel.next)
      | some _ => some (kernel, .shmget)
  | .shmget =>
      match kernel.key with
      | none => some (kernel, .ended)
      | some shmid => some (kernel, .shmat false shmid)
  | .shmat created shmid =>
      if (runs i).shmat ∧ kernel.Attachable shmid then
        some (kernel.attach i shmid, if created then .memset shmid else .waitReady shmid)
      else some (kernel, shmatFailed (runs i).role created shmid)
  | .memset shmid => some (kernel.storeReady shmid false, .semInit .mutex shmid)
  | .semInit sem shmid =>
      if (runs i).semInit sem then some (kernel, nextInit shmid sem)
      else some (kernel, semInitFailed (runs i).role shmid)
  | .setReady shmid =>
      some (kernel.storeReady shmid true, setUpDone (runs i).role true shmid)
  | .waitReady shmid =>
      if (kernel.segment shmid).ready then some (kernel, setUpDone (runs i).role false shmid)
      else some (kernel, .waitReady shmid)
  | .fopen created shmid =>
      if (runs i).fopen then some (kernel, .communicate created shmid)
      else some (kernel, cleanup (runs i).role ⟨created, true, false⟩ shmid)
  | .communicate created shmid =>
      if (kernel.segment shmid).ready then
        if (runs i).communicate then
          some (kernel, cleanup (runs i).role ⟨created, true, true⟩ shmid)
        else some (kernel, .exit shmid)
      else some (kernel, .communicate created shmid)
  | .shmdt remove shmid =>
      some (kernel.detach i shmid, if remove then .shmctl shmid else .ended)
  | .shmctl shmid => some (kernel.remove shmid, .ended)
  | .exit shmid => some (kernel.detach i shmid, .ended)
  | .ended => none

/-- The runs start before their first call, and the key names nothing. -/
def program (runs : ι → Run) : Program ι (Kernel ι) Pc where
  start config := config.shared = .initial ∧ ∀ i, config.thread i = .shmgetExcl
  step := step runs

end NckuOs.Ipc.Startup
