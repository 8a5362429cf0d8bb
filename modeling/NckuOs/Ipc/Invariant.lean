import NckuOs.Ipc.Processes

/-!
# Where the message is

The slot of the mailbox is at every moment in one of four conditions: free, being
filled by the sender, full, or being drained by the receiver.  The three semaphores
say which, and the condition fixes what the processes are allowed to be doing and
what the fields contain.
-/

namespace NckuOs.Ipc

open NckuOs.ByteMemory

/-! ## Texts in memory -/

/-- The first `n` bytes are those of `text`. -/
def Spells (mem : Mem) (text : List UInt8) (n : Nat) : Prop :=
  ∀ i < n, mem i = text.getD i 0

namespace Spells

variable {mem : Mem} {text : List UInt8} {n : Nat}

theorem zero : Spells mem text 0 := by
  intro i below
  exact absurd below (Nat.not_lt_zero i)

/-- The next byte. -/
theorem snoc {byte : UInt8} (spells : Spells mem text n) (next : byte = text.getD n 0) :
    Spells (store mem n 1 fun _ => byte) text (n + 1) := by
  intro i below
  by_cases last : i = n
  · rw [store_of_mem (by omega) (by omega), next, last]
  · rw [store_of_not_mem (by omega)]
    exact spells i (by omega)

/-- A byte behind them. -/
theorem store_behind {k : Nat} {byte : UInt8} (spells : Spells mem text n) (behind : n ≤ k) :
    Spells (store mem k 1 fun _ => byte) text n := by
  intro i below
  rw [store_of_not_mem (by omega)]
  exact spells i below

/-- A NUL behind the text ends it. -/
theorem cstr_eq (noNul : 0 ∉ text) (fits : text.length < textSize)
    (spells : Spells mem text text.length) (nul : mem text.length = 0) :
    cstr mem 0 textSize = text := by
  apply cstr_eq_of_nul noNul fits
  · intro i below
    rw [Nat.zero_add]
    exact spells i below
  · rw [Nat.zero_add]
    exact nul

end Spells

namespace Message

variable {message : Message}

theorem spells_text (fits : message.text.length < textSize) :
    Spells message.msgText message.text message.text.length := by
  intro i below
  have bytes := (cstr_bytes fits).1 i below
  rw [Nat.zero_add] at bytes
  exact bytes

end Message

/-- A text that the buffer has room for. -/
structure Fits (text : List UInt8) : Prop where
  noNul : 0 ∉ text
  length : text.length < textSize

theorem payloadSize_eq {sender : Sender} (fits : Fits sender.message.text) :
    sender.payloadSize = sender.message.text.length := by
  have short : ¬sender.message.strlen ≥ textSize := Nat.not_le.mpr fits.length
  rw [Sender.payloadSize, if_neg short]
  rfl

/-! ## The set-up -/

/-- Where a process is in the set-up when the other one makes the segment. -/
inductive Waits : SetupPc → Prop
  | shmgetExcl : Waits .shmgetExcl
  | shmget : Waits .shmget
  | shmat : Waits (.shmat false)
  | waitReady : Waits .waitReady

/-- The segment while the process that made it is in the set-up. -/
inductive Making : ShmMailbox → SetupPc → Prop
  | shmat : Making .fresh (.shmat true)
  | memset (rest : List Field) : Making .fresh (.memset rest)
  | initMutex : Making .fresh .initMutex
  | initEmpty : Making { ShmMailbox.fresh with mutex := some 1 } .initEmpty
  | initFull : Making { ShmMailbox.fresh with mutex := some 1, empty := some 1 } .initFull
  | setReady :
      Making { ShmMailbox.fresh with mutex := some 1, empty := some 1, full := some 0 } .setReady

/-- The segment when `ready` is set. -/
def ShmMailbox.initialized : ShmMailbox :=
  { fresh with ready := 1, mutex := some 1, empty := some 1, full := some 0 }

section Setup

variable {box : ShmMailbox} {pc : SetupPc}

theorem Making.not_ready (making : Making box pc) : box.ready = 0 := by
  cases making <;> rfl

/-- The process that made the segment is never blocked. -/
theorem Making.step (making : Making box pc) :
    ∃ box' next, setupStep true box pc = some (true, box', next) ∧
      (Making box' next ∨ next = .done ∧ box' = .initialized) := by
  cases making with
  | shmat => exact ⟨_, _, rfl, .inl (.memset allFields)⟩
  | memset rest =>
      cases rest with
      | nil => exact ⟨_, _, rfl, .inl .initMutex⟩
      | cons field rest =>
          refine ⟨_, _, rfl, .inl ?_⟩
          rw [ShmMailbox.clear_fresh]
          exact .memset rest
  | initMutex => exact ⟨_, _, rfl, .inl .initEmpty⟩
  | initEmpty => exact ⟨_, _, rfl, .inl .initFull⟩
  | initFull => exact ⟨_, _, rfl, .inl .setReady⟩
  | setReady => exact ⟨_, _, rfl, .inr ⟨rfl, rfl⟩⟩

/-- The other process changes nothing, and leaves the set-up only when `ready` is
set. -/
theorem Waits.step {linked : Bool} {box' : ShmMailbox} {next : SetupPc} (waits : Waits pc)
    (step : setupStep true box pc = some (linked, box', next)) :
    linked = true ∧ box' = box ∧ (Waits next ∨ next = .done ∧ box.ready ≠ 0) := by
  cases waits with
  | shmgetExcl =>
      cases step
      exact ⟨rfl, rfl, .inl .shmget⟩
  | shmget =>
      cases step
      exact ⟨rfl, rfl, .inl .shmat⟩
  | shmat =>
      cases step
      exact ⟨rfl, rfl, .inl .waitReady⟩
  | waitReady =>
      simp only [setupStep] at step
      split at step
      case isTrue ready =>
        cases step
        exact ⟨rfl, rfl, .inr ⟨rfl, ready⟩⟩
      case isFalse => cases step

/-- It is blocked only while `ready` is not set. -/
theorem Waits.not_blocked (waits : Waits pc) (ready : box.ready ≠ 0) :
    setupStep true box pc ≠ none := by
  cases waits with
  | shmgetExcl => exact Option.some_ne_none _
  | shmget => exact Option.some_ne_none _
  | shmat => exact Option.some_ne_none _
  | waitReady =>
      simp only [setupStep, if_pos ready]
      exact Option.some_ne_none _

end Setup

/-! ## The slot -/

/-- The texts that the sender has not put into the slot yet. -/
def Sender.pending (sender : Sender) : List (List UInt8) :=
  match sender.pc with
  | .setup _ => sender.todo.map Message.text
  | .shmdt => []
  | .finished => []
  | _ => sender.message.text :: sender.todo.map Message.text

/-- The texts that `receive` has returned. -/
def Receiver.texts (receiver : Receiver) : List (List UInt8) :=
  receiver.received.map Message.text

/-- The slot holds `text`. -/
structure Holds (box : ShmMailbox) (text : List UInt8) : Prop where
  bytes : Spells box.buffer text text.length
  length : box.length = text.length

/-- The sender does not have the slot. -/
inductive SenderIdle (texts : List (List UInt8)) (sender : Sender) : Prop
  | setup {pc : SetupPc} (here : sender.pc = .setup pc) (waits : Waits pc)
      (all : sender.todo.map Message.text = texts)
  | waitReady (here : sender.pc = .waitReady)
  | waitEmpty (here : sender.pc = .semWaitEmpty)
  | done (here : sender.pc = .shmdt ∨ sender.pc = .finished)

/-- The receiver does not have the slot. -/
inductive ReceiverIdle (receiver : Receiver) : Prop
  | setup {pc : SetupPc} (here : receiver.pc = .setup pc) (waits : Waits pc)
  | waitReady (here : receiver.pc = .waitReady)
  | waitFull (here : receiver.pc = .semWaitFull)

/-- How far the sender is with its message. -/
inductive Filling (box : ShmMailbox) (sender : Sender) : Prop
  | waitMutex (here : sender.pc = .semWaitMutex) (mutex : box.mutex = some 1)
  | copy {i : Nat} (here : sender.pc = .copy i) (mutex : box.mutex = some 0)
      (inside : i ≤ sender.message.text.length) (bytes : Spells box.buffer sender.message.text i)
  | setLength (here : sender.pc = .setLength) (mutex : box.mutex = some 0)
      (bytes : Spells box.buffer sender.message.text sender.message.text.length)
  | setIsExit (here : sender.pc = .setIsExit) (mutex : box.mutex = some 0)
      (holds : Holds box sender.message.text)
  | postMutex (here : sender.pc = .semPostMutex) (mutex : box.mutex = some 0)
      (holds : Holds box sender.message.text)
  | postFull (here : sender.pc = .semPostFull) (mutex : box.mutex = some 1)
      (holds : Holds box sender.message.text)

/-- How far the receiver is with the text in the slot. -/
inductive Draining (box : ShmMailbox) (receiver : Receiver) (text : List UInt8) : Prop
  | waitMutex (here : receiver.pc = .semWaitMutex) (mutex : box.mutex = some 1)
      (holds : Holds box text)
  | readLength (here : receiver.pc = .readLength) (mutex : box.mutex = some 0)
      (holds : Holds box text)
  | copy {i : Nat} (here : receiver.pc = .copy i) (mutex : box.mutex = some 0)
      (holds : Holds box text) (length : receiver.copyLength = text.length)
      (inside : i ≤ text.length) (bytes : Spells receiver.message.msgText text i)
  | clear (here : receiver.pc = .clearLength ∨ receiver.pc = .clearIsExit ∨
      receiver.pc = .clearBuffer ∨ receiver.pc = .semPostMutex) (mutex : box.mutex = some 0)
      (copied : receiver.message.text = text)
  | postEmpty (here : receiver.pc = .semPostEmpty) (mutex : box.mutex = some 1)
      (copied : receiver.message.text = text)

/-- The four conditions of the slot.  In each of them the texts received, the one
in the slot and those not sent yet make up the whole list. -/
inductive Slot (texts : List (List UInt8)) (box : ShmMailbox) (sender : Sender)
    (receiver : Receiver) : Prop
  | free (empty : box.empty = some 1) (full : box.full = some 0) (mutex : box.mutex = some 1)
      (senderIdle : SenderIdle texts sender) (receiverIdle : ReceiverIdle receiver)
      (account : receiver.texts ++ sender.pending = texts)
  | filling (empty : box.empty = some 0) (full : box.full = some 0)
      (filling : Filling box sender) (receiverIdle : ReceiverIdle receiver)
      (account : receiver.texts ++ sender.pending = texts)
  | full {text : List UInt8} (empty : box.empty = some 0) (full : box.full = some 1)
      (mutex : box.mutex = some 1) (holds : Holds box text)
      (senderIdle : SenderIdle texts sender) (receiverIdle : ReceiverIdle receiver)
      (account : receiver.texts ++ text :: sender.pending = texts)
  | draining {text : List UInt8} (empty : box.empty = some 0) (full : box.full = some 0)
      (draining : Draining box receiver text) (senderIdle : SenderIdle texts sender)
      (account : receiver.texts ++ text :: sender.pending = texts)

/-- The receiver takes the semaphores and the segment away. -/
inductive Closing (box : ShmMailbox) (receiver : Receiver) : Prop
  | destroyFull (here : receiver.pc = .destroyFull) (full : box.full ≠ none)
      (empty : box.empty ≠ none) (mutex : box.mutex ≠ none)
  | destroyEmpty (here : receiver.pc = .destroyEmpty) (empty : box.empty ≠ none)
      (mutex : box.mutex ≠ none)
  | destroyMutex (here : receiver.pc = .destroyMutex) (mutex : box.mutex ≠ none)
  | done (here : receiver.pc = .shmdt ∨ receiver.pc = .shmctl ∨ receiver.pc = .finished)

/-! ## The whole run -/

/-- Nobody has sent or received anything. -/
structure Untouched (texts : List (List UInt8)) (s : State) : Prop where
  todo : s.sender.todo.map Message.text = texts
  received : s.receiver.received = []

/-- How a run of the two processes goes. -/
inductive Phase (texts : List (List UInt8)) (s : State) : Prop
  | absent (unlinked : s.linked = false) (senderHere : s.sender.pc = .setup .shmgetExcl)
      (receiverHere : s.receiver.pc = .setup .shmgetExcl) (untouched : Untouched texts s)
  | senderMakes {pc other : SetupPc} (linked : s.linked = true)
      (senderHere : s.sender.pc = .setup pc) (making : Making s.box pc)
      (receiverHere : s.receiver.pc = .setup other) (waits : Waits other)
      (untouched : Untouched texts s)
  | receiverMakes {pc other : SetupPc} (linked : s.linked = true)
      (receiverHere : s.receiver.pc = .setup pc) (making : Making s.box pc)
      (senderHere : s.sender.pc = .setup other) (waits : Waits other)
      (untouched : Untouched texts s)
  | running (linked : s.linked = true) (ready : s.box.ready ≠ 0)
      (slot : Slot texts s.box s.sender s.receiver) (notExited : exitMessage ∉ s.receiver.texts)
  | closing (senderDone : s.sender.pc = .shmdt ∨ s.sender.pc = .finished)
      (all : s.receiver.texts = texts) (closing : Closing s.box s.receiver)

/-- What the sender sends: texts that fit, the exit message last and only there. -/
structure Stream (texts : List (List UInt8)) : Prop where
  fits : ∀ text ∈ texts, Fits text
  ends : ∃ front, texts = front ++ [exitMessage] ∧ exitMessage ∉ front

end NckuOs.Ipc
