import NckuOs.Lib.Interleaving
import NckuOs.Ipc.Lines

/-!
# Message passing

The other mechanism: a System V message queue, first in first out.  Both programs make
the queue or find it, `send` and `receive` poll it, and the receiver removes it when it
has seen the exit message.  A process that polls is blocked until its call succeeds, so
that polling is not a step.  Apart from a queue that has been removed the calls do not
fail.
-/

namespace NckuOs.Ipc.MessageQueue

open NckuOs.ByteMemory
open NckuOs.Interleaving
open NckuOs.Transition

/-! ## The queue -/

/-- A message in the queue. -/
structure Packet where
  mType : Nat
  payload : List UInt8
  deriving DecidableEq, Repr

/-- `msg_qbytes`, with room for one message of the largest size. -/
structure Limit where
  bytes : Nat
  large : textSize ≤ bytes

/-- The bytes in the queue. -/
def queuedBytes (queue : List Packet) : Nat :=
  (queue.map fun packet => packet.payload.length).sum

/-- `msgsnd` with `IPC_NOWAIT`; nothing stands for `EAGAIN`. -/
def msgsnd (limit : Limit) (queue : List Packet) (packet : Packet) : Option (List Packet) :=
  if queuedBytes queue + packet.payload.length ≤ limit.bytes ∧
      queue.length + 1 ≤ limit.bytes then
    some (queue ++ [packet])
  else none

/-! ## The processes -/

/-- Where the sender is. -/
inductive SenderPc
  | msgget
  | msgsnd
  | failed
  | finished
  deriving DecidableEq, Repr

/-- The sender: the message that it is sending and those that it will send. -/
structure Sender where
  pc : SenderPc
  message : Message
  todo : List Message

/-- Where the receiver is. -/
inductive ReceiverPc
  | msgget
  | msgrcv
  | msgctl
  | failed
  | finished
  deriving DecidableEq, Repr

/-- The receiver: its `message`, and a copy of it for every time that `receive`
returned. -/
structure Receiver where
  pc : ReceiverPc
  message : Message
  received : List Message

/-- The two processes, and the queue while there is one. -/
structure State where
  queue : Option (List Packet)
  sender : Sender
  receiver : Receiver

namespace Sender

def goto (sender : Sender) (pc : SenderPc) : Sender :=
  { sender with pc := pc }

/-- The loop of `main`: call `send` for the next message, or end. -/
def nextSend (sender : Sender) : Sender :=
  match sender.todo with
  | [] => sender.goto .finished
  | message :: rest => ⟨.msgsnd, message, rest⟩

end Sender

/-- `payload_size` of `send_via_msg_passing`. -/
def payloadSize (message : Message) : Nat :=
  if message.strlen + 1 > textSize then textSize - 1 else message.strlen

/-- What `msgsnd` copies: the payload with its NUL. -/
def packetOf (message : Message) : Packet where
  mType := message.mType
  payload := (List.range (payloadSize message + 1)).map message.msgText

/-- What `recv_via_msg_passing` does with a packet: `msgrcv` copies it, then the text is
terminated. -/
def unpack (message : Message) (packet : Packet) : Message where
  mType := packet.mType
  msgText :=
    let receivedSize := packet.payload.length
    store (store message.msgText 0 receivedSize fun i => packet.payload.getD i 0)
      (if receivedSize ≥ textSize then textSize - 1 else receivedSize) 1 fun _ => 0

namespace Receiver

def goto (receiver : Receiver) (pc : ReceiverPc) : Receiver :=
  { receiver with pc := pc }

/-- `receive` returns with a packet: `main` looks for the exit message. -/
def take (receiver : Receiver) (packet : Packet) : Receiver :=
  let message := unpack receiver.message packet
  { pc := if message.isExit then .msgctl else .msgrcv
    message := message
    received := receiver.received ++ [message] }

end Receiver

/-- One step of the sender. -/
def senderStep (limit : Limit) (s : State) : Option State :=
  match s.sender.pc with
  | .msgget => some { s with queue := some (s.queue.getD []), sender := s.sender.nextSend }
  | .msgsnd =>
      match s.queue with
      | none => some { s with sender := s.sender.goto .failed }
      | some queue =>
          (msgsnd limit queue (packetOf s.sender.message)).map fun queue =>
            { s with queue := some queue, sender := s.sender.nextSend }
  | .failed => none
  | .finished => none

/-- One step of the receiver. -/
def receiverStep (s : State) : Option State :=
  match s.receiver.pc with
  | .msgget => some { s with queue := some (s.queue.getD []), receiver := s.receiver.goto .msgrcv }
  | .msgrcv =>
      match s.queue with
      | none => some { s with receiver := s.receiver.goto .failed }
      | some [] => none
      | some (packet :: rest) =>
          -- `msgrcv` does not take a message that is longer than `msgText`.
          if packet.payload.length > textSize then
            some { s with receiver := s.receiver.goto .failed }
          else some { s with queue := some rest, receiver := s.receiver.take packet }
  | .msgctl => some { s with queue := none, receiver := s.receiver.goto .finished }
  | .failed => none
  | .finished => none

/-- Both processes have just started and there is no queue. -/
def startState (messages : List Message) : State where
  queue := none
  sender := ⟨.msgget, .zero, messages⟩
  receiver := ⟨.msgget, .zero, []⟩

/-- The two processes; the sender sends the given messages. -/
def processes (limit : Limit) (messages : List Message) : Pair State where
  start := startState messages
  left := senderStep limit
  right := receiverStep

/-- The receiver has left its loop. -/
def ReceiverPc.HasLeft : ReceiverPc → Prop
  | .msgctl => True
  | .finished => True
  | _ => False

theorem Receiver.take_pc (receiver : Receiver) (packet : Packet) :
    (receiver.take packet).pc =
      if (unpack receiver.message packet).isExit then .msgctl else .msgrcv :=
  rfl

theorem Receiver.take_received (receiver : Receiver) (packet : Packet) :
    (receiver.take packet).received =
      receiver.received ++ [unpack receiver.message packet] :=
  rfl

/-! ## Packets -/

theorem payloadSize_eq {message : Message} (fits : Fits message.text) :
    payloadSize message = message.text.length := by
  have short : ¬message.strlen + 1 > textSize := Nat.not_lt.mpr fits.length
  rw [payloadSize, if_neg short]
  rfl

theorem length_packetOf {message : Message} (fits : Fits message.text) :
    (packetOf message).payload.length = message.text.length + 1 := by
  rw [packetOf, List.length_map, List.length_range, payloadSize_eq fits]

/-- A message arrives as it was sent. -/
theorem pair_unpack {message : Message} (fits : Fits message.text) (old : Message) :
    (unpack old (packetOf message)).pair = message.pair := by
  have length := length_packetOf fits
  have content := cstr_bytes fits.length
  have payload : ∀ i, i ≤ message.text.length →
      (packetOf message).payload.getD i 0 = message.msgText i := by
    intro i inside
    have below : i < (packetOf message).payload.length := by
      rw [length]
      exact Nat.lt_succ_of_le inside
    rw [List.getD_eq_getElem _ _ below]
    simp only [packetOf, List.getElem_map, List.getElem_range]
  -- The NUL behind the copied bytes does not lie in the text.
  have behind : ∃ k, message.text.length ≤ k ∧
      (unpack old (packetOf message)).msgText =
        store (store old.msgText 0 (message.text.length + 1)
          fun i => (packetOf message).payload.getD i 0) k 1 fun _ => 0 := by
    refine ⟨if message.text.length + 1 ≥ textSize then textSize - 1
      else message.text.length + 1, ?_, ?_⟩
    · split
      · exact Nat.le_of_lt_succ fits.length
      · exact Nat.le_succ _
    · simp only [unpack, length]
  have text : (unpack old (packetOf message)).text = message.text := by
    rcases behind with ⟨k, outside, memory⟩
    rw [Message.text, memory]
    apply Spells.cstr_eq fits.noNul fits.length
    · apply Spells.store_behind _ outside
      intro i below
      rw [store_of_mem (Nat.zero_le i) (by omega), Nat.sub_zero, payload i below.le]
      exact Message.spells_text fits.length i below
    · by_cases here : message.text.length = k
      · rw [here]
        exact store_of_mem (Nat.le_refl _) (Nat.lt_succ_self _)
      · rw [store_of_not_mem (by omega), store_of_mem (Nat.zero_le _) (by omega), Nat.sub_zero,
          payload _ (Nat.le_refl _)]
        have nul := content.2
        rw [Nat.zero_add] at nul
        exact nul
  rw [Message.pair, text]
  rfl

end NckuOs.Ipc.MessageQueue
