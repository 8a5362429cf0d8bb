import NckuOs.Lib.ByteMemory
import Mathlib.Data.List.GetD

/-!
# The shared mailbox

The record that sender and receiver share, POSIX semaphores, and the `message_t`
that each process keeps for itself.  A C `int` that is used as a truth value is a
number here; `memset` clears the record one field at a time.
-/

namespace NckuOs.Ipc

open NckuOs.ByteMemory

/-- `sizeof` of `msgText` and of `buffer`. -/
def textSize : Nat := 1024

/-- `EXIT_MESSAGE`, the bytes of `__IPC_EXIT__`. -/
def exitMessage : List UInt8 :=
  [95, 95, 73, 80, 67, 95, 69, 88, 73, 84, 95, 95]

/-! ## Messages -/

/-- `message_t`. -/
structure Message where
  mType : Nat
  msgText : Mem

namespace Message

/-- The string in `msgText`. -/
def text (message : Message) : List UInt8 :=
  cstr message.msgText 0 textSize

/-- `strlen(message.msgText)`. -/
def strlen (message : Message) : Nat :=
  message.text.length

/-- `strcmp(message.msgText, EXIT_MESSAGE) == 0`. -/
def isExit (message : Message) : Bool :=
  message.text = exitMessage

/-- The message that `main` makes of a line of a stream in which only the end marker
has the exit text: `strncpy` pads with zeros up to the last byte, which is set by itself. -/
def ofLine (line : List UInt8) : Message where
  mType := if line = exitMessage then 2 else 1
  msgText := store (store (fun _ => 0) 0 (textSize - 1) fun i => line.getD i 0) (textSize - 1) 1
    fun _ => 0

/-- `memset(&message, 0, sizeof(message))`. -/
def zero : Message where
  mType := 0
  msgText := fun _ => 0

theorem ofLine_byte (line : List UInt8) (i : Nat) (below : i < textSize - 1) :
    (ofLine line).msgText i = line.getD i 0 := by
  simp only [ofLine]
  rw [store_of_not_mem (.inl below), store_of_mem (Nat.zero_le i) (by omega), Nat.sub_zero]

/-- A line that fits is the text of its message. -/
theorem text_ofLine {line : List UInt8} (noNul : 0 ∉ line) (fits : line.length < textSize) :
    (ofLine line).text = line := by
  have bytes : ∀ i < line.length, (ofLine line).msgText (0 + i) = line.getD i 0 := by
    intro i below
    rw [Nat.zero_add]
    by_cases last : i < textSize - 1
    · exact ofLine_byte line i last
    · omega
  apply cstr_eq_of_nul noNul fits bytes
  rw [Nat.zero_add]
  by_cases last : line.length < textSize - 1
  · rw [ofLine_byte line line.length last, List.getD_eq_default _ _ (Nat.le_refl _)]
  · have isLast : line.length = textSize - 1 := by omega
    simp only [ofLine, isLast]
    exact store_of_mem (Nat.le_refl _) (Nat.lt_succ_self _)

end Message

/-! ## Semaphores -/

/-- A semaphore: its value, or nothing before `sem_init` and after
`sem_destroy`. -/
abbrev Sem := Option Nat

/-- `sem_wait`, which blocks at zero.  Using a semaphore that is not initialised is
undefined; here it blocks too. -/
def semWait : Sem → Option Sem
  | some (value + 1) => some (some value)
  | _ => none

/-- `sem_post`. -/
def semPost : Sem → Option Sem
  | some value => some (some (value + 1))
  | none => none

@[simp]
theorem semWait_succ (value : Nat) : semWait (some (value + 1)) = some (some value) :=
  rfl

@[simp]
theorem semWait_zero : semWait (some 0) = none :=
  rfl

@[simp]
theorem semPost_some (value : Nat) : semPost (some value) = some (some (value + 1)) :=
  rfl

theorem initialised_of_eq {sem : Sem} {value : Nat} (holds : sem = some value) : sem ≠ none := by
  rw [holds]
  exact Option.some_ne_none value

/-! ## The segment -/

/-- `shm_mailbox_t`. -/
structure ShmMailbox where
  ready : Nat
  mutex : Sem
  full : Sem
  empty : Sem
  length : Nat
  isExit : Nat
  buffer : Mem

/-- The fields of the segment, in the order of the declaration. -/
inductive Field
  | ready
  | mutex
  | full
  | empty
  | length
  | isExit
  | buffer
  deriving DecidableEq, Repr

/-- The fields in memory order. -/
def allFields : List Field :=
  [.ready, .mutex, .full, .empty, .length, .isExit, .buffer]

namespace ShmMailbox

/-- A fresh segment is filled with zeros. -/
def fresh : ShmMailbox where
  ready := 0
  mutex := none
  full := none
  empty := none
  length := 0
  isExit := 0
  buffer := fun _ => 0

/-- What `memset` does to one field. -/
def clear (box : ShmMailbox) : Field → ShmMailbox
  | .ready => { box with ready := 0 }
  | .mutex => { box with mutex := none }
  | .full => { box with full := none }
  | .empty => { box with empty := none }
  | .length => { box with length := 0 }
  | .isExit => { box with isExit := 0 }
  | .buffer => { box with buffer := fun _ => 0 }

@[simp]
theorem clear_fresh (field : Field) : fresh.clear field = fresh := by
  cases field <;> rfl

/-- Store one byte of the buffer. -/
def putByte (box : ShmMailbox) (i : Nat) (byte : UInt8) : ShmMailbox :=
  { box with buffer := store box.buffer i 1 fun _ => byte }

/-- The semaphore in a field. -/
def sem (box : ShmMailbox) : Field → Sem
  | .mutex => box.mutex
  | .full => box.full
  | .empty => box.empty
  | _ => none

end ShmMailbox

end NckuOs.Ipc
