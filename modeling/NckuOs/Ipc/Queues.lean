import NckuOs.Ipc.QueueRun
import NckuOs.Lib.Channel
import NckuOs.Lib.Threads

/-!
# Many runs with message queues

Any number of runs of the two programs with mechanism 1, in any order.  A queue lives until a
receiver has seen the exit message, or until a sender cannot open its file, and the next
`msgget` makes a new one.  `msgget` and `msgctl` do not fail.
-/

namespace NckuOs.Ipc.MessageQueue

open NckuOs.ByteMemory
open NckuOs.Channels
open NckuOs.Threads
open NckuOs.Transition

/-! ## The kernel -/

/-- The queue that the key names, the number of queues so far, and the messages in the queue.
An identifier is not used again. -/
structure Kernel where
  key : Option Nat
  next : Nat
  content : List Packet
  deriving DecidableEq

namespace Kernel

/-- The messages in a queue, as long as it has not been removed. -/
def queue (kernel : Kernel) (msqid : Nat) : Option (List Packet) :=
  if kernel.key = some msqid then some kernel.content else none

/-- `msgget` with `IPC_CREAT`. -/
def msgget (kernel : Kernel) : Kernel × Nat :=
  match kernel.key with
  | some msqid => (kernel, msqid)
  | none => (⟨some kernel.next, kernel.next + 1, []⟩, kernel.next)

/-- A queue with other messages, or none any more. -/
def store (kernel : Kernel) (msqid : Nat) : Option (List Packet) → Kernel
  | some content => { kernel with content := content }
  | none => if kernel.key = some msqid then { kernel with key := none, content := [] } else kernel

end Kernel

/-! ## The runs -/

/-- A sender whose `fopen` fails: `cleanup` removes the queue. -/
inductive OpenerPc
  | msgget
  | msgctl
  | failed
  deriving DecidableEq, Repr

/-- A run of one of the programs. -/
inductive Run
  | sender (sender : Sender)
  | opener (pc : OpenerPc)
  | receiver (receiver : Receiver)

/-- Which program is run: the sender, with its file if it can be opened, or the receiver. -/
inductive Role
  | sender (file : Option (List UInt8))
  | receiver
  deriving DecidableEq, Repr

/-- A run, and its `msqid` when it has one. -/
structure Party where
  msqid : Option Nat
  run : Run

namespace Party

def start : Role → Party
  | .sender (some file) => ⟨none, .sender ⟨.msgget, .zero, sentMessages file⟩⟩
  | .sender none => ⟨none, .opener .msgget⟩
  | .receiver => ⟨none, .receiver ⟨.msgget, .zero, []⟩⟩

/-- The next step of a run on its queue.  A step of one program does not look at the other. -/
def stepOn (limit : Limit) (kernel : Kernel) (msqid : Nat) : Run → Option (Kernel × Party)
  | .sender process =>
      (senderStep limit ⟨kernel.queue msqid, process, ⟨.finished, .zero, []⟩⟩).map fun s =>
        (kernel.store msqid s.queue, ⟨some msqid, .sender s.sender⟩)
  | .receiver process =>
      (receiverStep ⟨kernel.queue msqid, ⟨.finished, .zero, []⟩, process⟩).map fun s =>
        (kernel.store msqid s.queue, ⟨some msqid, .receiver s.receiver⟩)
  | .opener .msgget => some (kernel, ⟨some msqid, .opener .msgctl⟩)
  | .opener .msgctl => some (kernel.store msqid none, ⟨some msqid, .opener .failed⟩)
  | .opener .failed => none

/-- The next step of a party; the first one is `msgget`. -/
def step (limit : Limit) (kernel : Kernel) (party : Party) : Option (Kernel × Party) :=
  match party.msqid with
  | some msqid => stepOn limit kernel msqid party.run
  | none => stepOn limit kernel.msgget.1 kernel.msgget.2 party.run

end Party

variable {ι : Type}

/-- The runs, when there is no queue yet. -/
def runs (limit : Limit) (roles : ι → Role) : Program ι Kernel Party where
  start config := config.shared = ⟨none, 0, []⟩ ∧ ∀ i, config.thread i = .start (roles i)
  step _ := Party.step limit

/-! ## Messages and packets -/

/-- A message as type and text. -/
abbrev Pair := Nat × List UInt8

/-- The packet of a message with this type and text. -/
def packetOfPair (pair : Pair) : Packet :=
  ⟨pair.1, pair.2 ++ [0]⟩

theorem packetOf_eq {message : Message} (fits : Fits message.text) :
    packetOf message = packetOfPair message.pair := by
  have content := cstr_bytes fits.length
  have payload : (packetOf message).payload = message.text ++ [0] := by
    apply List.ext_getElem
    · rw [length_packetOf fits, List.length_append, List.length_singleton]
    · intro i inside _
      rw [length_packetOf fits] at inside
      simp only [packetOf, List.getElem_map, List.getElem_range]
      by_cases isLast : i = message.text.length
      · subst isLast
        rw [List.getElem_concat_length rfl]
        have nul := content.2
        rw [Nat.zero_add] at nul
        exact nul
      · have below : i < message.text.length := by omega
        rw [List.getElem_append_left below, Message.spells_text fits.length i below,
          List.getD_eq_getElem _ _ below]
  exact congrArg (Packet.mk message.mType) payload

theorem unpack_packetOfPair {pair : Pair} (fits : Fits pair.2) (old : Message) :
    (unpack old (packetOfPair pair)).pair = pair := by
  have text : (Message.ofText pair.1 pair.2).text = pair.2 := text_ofText fits pair.1
  have same : (Message.ofText pair.1 pair.2).pair = pair := Prod.ext rfl text
  have fits' : Fits (Message.ofText pair.1 pair.2).text := text.symm ▸ fits
  have unpacked := pair_unpack fits' old
  rw [packetOf_eq fits', same] at unpacked
  exact unpacked

/-! ## What a step does -/

/-- The run is in front of its `msgget`. -/
def Run.AtMsgget : Run → Prop
  | .sender process => process.pc = .msgget
  | .receiver process => process.pc = .msgget
  | .opener pc => pc = .msgget

/-- What becomes of a run when `msgget` has returned. -/
inductive Run.Opens : Run → Run → Prop
  | sender {process : Sender} (here : process.pc = .msgget) :
      Opens (.sender process) (.sender process.nextSend)
  | receiver {process : Receiver} (here : process.pc = .msgget) :
      Opens (.receiver process) (.receiver (process.goto .msgrcv))
  | opener : Opens (.opener .msgget) (.opener .msgctl)

/-- Which runs remove their queue with their next step. -/
inductive Run.Removes : Run → Run → Prop
  | receiver {process : Receiver} (here : process.pc = .msgctl) :
      Removes (.receiver process) (.receiver (process.goto .finished))
  | opener : Removes (.opener .msgctl) (.opener .failed)

/-- All that a step can do. -/
inductive Effect (limit : Limit) (kernel : Kernel) : Party → Kernel → Party → Prop
  | opens {run run' : Run} (opens : run.Opens run') :
      Effect limit kernel ⟨none, run⟩ kernel.msgget.1 ⟨some kernel.msgget.2, run'⟩
  | puts {msqid : Nat} {process : Sender} {content : List Packet} (here : process.pc = .msgsnd)
      (named : kernel.key = some msqid)
      (accepted : msgsnd limit kernel.content (packetOf process.message) = some content) :
      Effect limit kernel ⟨some msqid, .sender process⟩ { kernel with content := content }
        ⟨some msqid, .sender process.nextSend⟩
  | refused {msqid : Nat} {process : Sender} (here : process.pc = .msgsnd)
      (gone : kernel.key ≠ some msqid) :
      Effect limit kernel ⟨some msqid, .sender process⟩ kernel
        ⟨some msqid, .sender (process.goto .failed)⟩
  | takes {msqid : Nat} {process : Receiver} {packet : Packet} {rest : List Packet}
      (here : process.pc = .msgrcv) (named : kernel.key = some msqid)
      (first : kernel.content = packet :: rest) (short : packet.payload.length ≤ textSize) :
      Effect limit kernel ⟨some msqid, .receiver process⟩ { kernel with content := rest }
        ⟨some msqid, .receiver (process.take packet)⟩
  | starved {msqid : Nat} {process : Receiver} (here : process.pc = .msgrcv)
      (gone : kernel.key = some msqid →
        ∃ packet ∈ kernel.content, textSize < packet.payload.length) :
      Effect limit kernel ⟨some msqid, .receiver process⟩ kernel
        ⟨some msqid, .receiver (process.goto .failed)⟩
  | removes {msqid : Nat} {run run' : Run} (removes : run.Removes run') :
      Effect limit kernel ⟨some msqid, run⟩ (kernel.store msqid none) ⟨some msqid, run'⟩

namespace Kernel

variable {kernel : Kernel} {msqid : Nat}

theorem queue_of_named (named : kernel.key = some msqid) :
    kernel.queue msqid = some kernel.content :=
  if_pos named

theorem queue_of_gone (gone : kernel.key ≠ some msqid) : kernel.queue msqid = none :=
  if_neg gone

theorem store_of_gone (gone : kernel.key ≠ some msqid) : kernel.store msqid none = kernel :=
  if_neg gone

/-- `msgget` finds the queue, or makes one. -/
theorem msgget_cases (kernel : Kernel) :
    kernel.key = some kernel.msgget.2 ∧ kernel.msgget.1 = kernel ∨
      kernel.key = none ∧
        kernel.msgget = (⟨some kernel.next, kernel.next + 1, []⟩, kernel.next) := by
  unfold msgget
  split
  next named => exact .inl ⟨named, rfl⟩
  next none => exact .inr ⟨none, rfl⟩

/-- `msgget` gives the queue that the key names. -/
theorem msgget_named (kernel : Kernel) : kernel.msgget.1.key = some kernel.msgget.2 := by
  rcases kernel.msgget_cases with ⟨named, same⟩ | ⟨_, new⟩
  · rw [same]
    exact named
  · rw [new]

/-- A queue that is removed frees the key. -/
theorem store_cases (kernel : Kernel) (msqid : Nat) :
    kernel.key = some msqid ∧ kernel.store msqid none = ⟨none, kernel.next, []⟩ ∨
      kernel.key ≠ some msqid ∧ kernel.store msqid none = kernel := by
  unfold store
  dsimp only
  split
  next named => exact .inl ⟨named, rfl⟩
  next gone => exact .inr ⟨gone, rfl⟩

end Kernel

section Step

variable {limit : Limit} {kernel kernel' : Kernel} {party party' : Party} {msqid : Nat} {run : Run}

theorem effect_of_stepOn (opened : ¬run.AtMsgget)
    (step : Party.stepOn limit kernel msqid run = some (kernel', party')) :
    Effect limit kernel ⟨some msqid, run⟩ kernel' party' := by
  cases run with
  | sender process =>
      rcases Option.map_eq_some_iff.mp step with ⟨s, moved, result⟩
      unfold senderStep at moved
      split at moved
      next here => exact absurd here opened
      next here =>
        split at moved
        next noQueue =>
          cases moved
          have gone : kernel.key ≠ some msqid := by
            intro named
            cases (kernel.queue_of_named named).symm.trans noQueue
          rw [noQueue, Kernel.store_of_gone gone] at result
          cases result
          exact .refused here gone
        next queue isQueue =>
          rcases Option.map_eq_some_iff.mp moved with ⟨content, accepted, rfl⟩
          have named : kernel.key = some msqid := by
            by_contra gone
            cases (kernel.queue_of_gone gone).symm.trans isQueue
          cases (kernel.queue_of_named named).symm.trans isQueue
          cases result
          exact .puts here named accepted
      next => cases moved
      next => cases moved
  | receiver process =>
      rcases Option.map_eq_some_iff.mp step with ⟨s, moved, result⟩
      unfold receiverStep at moved
      split at moved
      next here => exact absurd here opened
      next here =>
        split at moved
        next noQueue =>
          cases moved
          have gone : kernel.key ≠ some msqid := by
            intro named
            cases (kernel.queue_of_named named).symm.trans noQueue
          rw [noQueue, Kernel.store_of_gone gone] at result
          cases result
          exact .starved here fun named => absurd named gone
        next => cases moved
        next packet rest isQueue =>
          have named : kernel.key = some msqid := by
            by_contra gone
            cases (kernel.queue_of_gone gone).symm.trans isQueue
          have content : kernel.content = packet :: rest :=
            Option.some.inj ((kernel.queue_of_named named).symm.trans isQueue)
          split at moved
          next long =>
            cases moved
            rw [isQueue, ← content] at result
            cases result
            refine .starved here fun _ => ⟨packet, ?_, long⟩
            rw [content]
            exact List.mem_cons_self
          next short =>
            cases moved
            cases result
            exact .takes here named content (Nat.not_lt.mp short)
      next here =>
        cases moved
        cases result
        exact .removes (.receiver here)
      next => cases moved
      next => cases moved
  | opener pc =>
      cases pc with
      | msgget => exact absurd rfl opened
      | msgctl =>
          cases step
          exact .removes .opener
      | failed => cases step

theorem effect_of_step (started : party.msqid = none ↔ party.run.AtMsgget)
    (step : party.step limit kernel = some (kernel', party')) :
    Effect limit kernel party kernel' party' := by
  rcases party with ⟨msqid, run⟩
  cases msqid with
  | some msqid =>
      apply effect_of_stepOn _ step
      intro notYet
      cases started.mpr notYet
  | none =>
      have here := started.mp rfl
      have named := kernel.msgget_named
      have step : Party.stepOn limit kernel.msgget.1 kernel.msgget.2 run = some (kernel', party') :=
        step
      cases run with
      | sender process =>
          have here : process.pc = .msgget := here
          simp only [Party.stepOn, senderStep, here, Kernel.queue_of_named named, Option.map_some,
            Option.getD_some, Option.some.injEq, Prod.mk.injEq] at step
          rcases step with ⟨rfl, rfl⟩
          exact .opens (.sender here)
      | receiver process =>
          have here : process.pc = .msgget := here
          simp only [Party.stepOn, receiverStep, here, Kernel.queue_of_named named, Option.map_some,
            Option.getD_some, Option.some.injEq, Prod.mk.injEq] at step
          rcases step with ⟨rfl, rfl⟩
          exact .opens (.receiver here)
      | opener pc =>
          have here : pc = .msgget := here
          subst here
          cases step
          exact .opens .opener

end Step

end NckuOs.Ipc.MessageQueue
