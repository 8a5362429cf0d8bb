import NckuOs.Lib.Interleaving
import NckuOs.Ipc.Mailbox

/-!
# Sender and receiver

Each process is a program counter with its local variables.  A step is one
semaphore operation, one access to a field of the segment, or one system call,
together with the local computation up to the next; copying a text takes one step
for each byte.  A process that polls `ready` or waits at a semaphore is blocked
until it can go on, so that polling is not a step.  The calls themselves do not
fail.
-/

namespace NckuOs.Ipc

open NckuOs.ByteMemory
open NckuOs.Interleaving
open NckuOs.Transition

/-! ## Setting up the segment

`main` of both programs does this in the same way. -/

/-- Where a process is before it first sends or receives. -/
inductive SetupPc
  | shmgetExcl
  | shmget
  | shmat (created : Bool)
  | memset (rest : List Field)
  | initMutex
  | initEmpty
  | initFull
  | setReady
  | waitReady
  | done
  | failed
  deriving DecidableEq, Repr

/-- One step of the set-up: whether the key names a segment, the segment, and
where the process is.  The first `shmget` makes a segment unless there is one, and
the process that made it initialises it. -/
def setupStep (linked : Bool) (box : ShmMailbox) : SetupPc → Option (Bool × ShmMailbox × SetupPc)
  | .shmgetExcl =>
      if linked then some (linked, box, .shmget) else some (true, .fresh, .shmat true)
  | .shmget => some (linked, box, if linked then .shmat false else .failed)
  | .shmat created => some (linked, box, if created then .memset allFields else .waitReady)
  | .memset [] => some (linked, box, .initMutex)
  | .memset (field :: rest) => some (linked, box.clear field, .memset rest)
  | .initMutex => some (linked, { box with mutex := some 1 }, .initEmpty)
  | .initEmpty => some (linked, { box with empty := some 1 }, .initFull)
  | .initFull => some (linked, { box with full := some 0 }, .setReady)
  | .setReady => some (linked, { box with ready := 1 }, .done)
  | .waitReady => if box.ready ≠ 0 then some (linked, box, .done) else none
  | .done => none
  | .failed => none

/-! ## The processes -/

/-- Where the sender is; from `waitReady` to `semPostFull` it is in
`send_via_memory_sharing`. -/
inductive SenderPc
  | setup (pc : SetupPc)
  | waitReady
  | semWaitEmpty
  | semWaitMutex
  | copy (i : Nat)
  | setLength
  | setIsExit
  | semPostMutex
  | semPostFull
  | shmdt
  | finished
  deriving DecidableEq, Repr

/-- The sender: the message that it is sending and those that it will send. -/
structure Sender where
  pc : SenderPc
  message : Message
  todo : List Message

/-- Where the receiver is; from `waitReady` to `semPostEmpty` it is in
`recv_via_memory_sharing`. -/
inductive ReceiverPc
  | setup (pc : SetupPc)
  | waitReady
  | semWaitFull
  | semWaitMutex
  | readLength
  | copy (i : Nat)
  | clearLength
  | clearIsExit
  | clearBuffer
  | semPostMutex
  | semPostEmpty
  | destroyFull
  | destroyEmpty
  | destroyMutex
  | shmdt
  | shmctl
  | finished
  deriving DecidableEq, Repr

/-- The receiver: its `message`, and a copy of it for every time that `receive`
returned. -/
structure Receiver where
  pc : ReceiverPc
  copyLength : Nat
  message : Message
  received : List Message

/-- The two processes, the segment, and whether the key names it. -/
structure State where
  linked : Bool
  box : ShmMailbox
  sender : Sender
  receiver : Receiver

namespace Sender

def goto (sender : Sender) (pc : SenderPc) : Sender :=
  { sender with pc := pc }

/-- The loop of `main`: call `send` for the next message, or clean up. -/
def nextSend (sender : Sender) : Sender :=
  match sender.todo with
  | [] => sender.goto .shmdt
  | message :: rest => ⟨.waitReady, message, rest⟩

def setupTo (sender : Sender) : SetupPc → Sender
  | .done => sender.nextSend
  | pc => sender.goto (.setup pc)

/-- The length of the payload, bounded by the buffer. -/
def payloadSize (sender : Sender) : Nat :=
  if sender.message.strlen ≥ textSize then textSize - 1 else sender.message.strlen

end Sender

namespace Receiver

def goto (receiver : Receiver) (pc : ReceiverPc) : Receiver :=
  { receiver with pc := pc }

def setupTo (receiver : Receiver) : SetupPc → Receiver
  | .done => receiver.goto .waitReady
  | pc => receiver.goto (.setup pc)

/-- `receive` returns: `main` looks for the exit message. -/
def nextReceive (receiver : Receiver) : Receiver :=
  { receiver with
    pc := if receiver.message.isExit then .destroyFull else .waitReady
    received := receiver.received ++ [receiver.message] }

end Receiver

/-- One step of the sender. -/
def senderStep (s : State) : Option State :=
  match s.sender.pc with
  | .setup pc =>
      (setupStep s.linked s.box pc).map fun (linked, box, next) =>
        { s with linked := linked, box := box, sender := s.sender.setupTo next }
  | .waitReady =>
      if s.box.ready ≠ 0 then some { s with sender := s.sender.goto .semWaitEmpty } else none
  | .semWaitEmpty =>
      (semWait s.box.empty).map fun empty =>
        { s with box := { s.box with empty := empty }, sender := s.sender.goto .semWaitMutex }
  | .semWaitMutex =>
      (semWait s.box.mutex).map fun mutex =>
        { s with box := { s.box with mutex := mutex }, sender := s.sender.goto (.copy 0) }
  | .copy i =>
      if i < s.sender.payloadSize then
        some
          { s with
            box := s.box.putByte i (s.sender.message.msgText i)
            sender := s.sender.goto (.copy (i + 1)) }
      else
        some
          { s with
            box := s.box.putByte s.sender.payloadSize 0
            sender := s.sender.goto .setLength }
  | .setLength =>
      some
        { s with
          box := { s.box with length := s.sender.payloadSize }
          sender := s.sender.goto .setIsExit }
  | .setIsExit =>
      some
        { s with
          box := { s.box with isExit := if s.sender.message.isExit then 1 else 0 }
          sender := s.sender.goto .semPostMutex }
  | .semPostMutex =>
      (semPost s.box.mutex).map fun mutex =>
        { s with box := { s.box with mutex := mutex }, sender := s.sender.goto .semPostFull }
  | .semPostFull =>
      (semPost s.box.full).map fun full =>
        { s with box := { s.box with full := full }, sender := s.sender.nextSend }
  | .shmdt => some { s with sender := s.sender.goto .finished }
  | .finished => none

/-- One step of the receiver. -/
def receiverStep (s : State) : Option State :=
  match s.receiver.pc with
  | .setup pc =>
      (setupStep s.linked s.box pc).map fun (linked, box, next) =>
        { s with linked := linked, box := box, receiver := s.receiver.setupTo next }
  | .waitReady =>
      if s.box.ready ≠ 0 then some { s with receiver := s.receiver.goto .semWaitFull } else none
  | .semWaitFull =>
      (semWait s.box.full).map fun full =>
        { s with box := { s.box with full := full }, receiver := s.receiver.goto .semWaitMutex }
  | .semWaitMutex =>
      (semWait s.box.mutex).map fun mutex =>
        { s with box := { s.box with mutex := mutex }, receiver := s.receiver.goto .readLength }
  | .readLength =>
      some
        { s with
          receiver :=
            { s.receiver with
              pc := .copy 0
              copyLength := if s.box.length ≥ textSize then textSize - 1 else s.box.length } }
  | .copy i =>
      if i < s.receiver.copyLength then
        some
          { s with
            receiver :=
              { s.receiver with
                pc := .copy (i + 1)
                message :=
                  { s.receiver.message with
                    msgText := store s.receiver.message.msgText i 1 fun _ => s.box.buffer i } } }
      else
        -- The NUL goes into the local message; the access is the read of `is_exit`.
        some
          { s with
            receiver :=
              { s.receiver with
                pc := .clearLength
                message :=
                  { mType := if s.box.isExit ≠ 0 then 2 else 1
                    msgText :=
                      store s.receiver.message.msgText s.receiver.copyLength 1 fun _ => 0 } } }
  | .clearLength =>
      some
        { s with
          box := { s.box with length := 0 }
          receiver := s.receiver.goto .clearIsExit }
  | .clearIsExit =>
      some
        { s with
          box := { s.box with isExit := 0 }
          receiver := s.receiver.goto .clearBuffer }
  | .clearBuffer =>
      some { s with box := s.box.putByte 0 0, receiver := s.receiver.goto .semPostMutex }
  | .semPostMutex =>
      (semPost s.box.mutex).map fun mutex =>
        { s with box := { s.box with mutex := mutex }, receiver := s.receiver.goto .semPostEmpty }
  | .semPostEmpty =>
      (semPost s.box.empty).map fun empty =>
        { s with box := { s.box with empty := empty }, receiver := s.receiver.nextReceive }
  | .destroyFull =>
      some
        { s with
          box := { s.box with full := none }
          receiver := s.receiver.goto .destroyEmpty }
  | .destroyEmpty =>
      some
        { s with
          box := { s.box with empty := none }
          receiver := s.receiver.goto .destroyMutex }
  | .destroyMutex =>
      some { s with box := { s.box with mutex := none }, receiver := s.receiver.goto .shmdt }
  | .shmdt => some { s with receiver := s.receiver.goto .shmctl }
  | .shmctl => some { s with linked := false, receiver := s.receiver.goto .finished }
  | .finished => none

/-! ## Accesses -/

/-- What is done with a field. -/
inductive Op
  | read
  | write
  | init
  | wait
  | post
  | destroy
  deriving DecidableEq, Repr

/-- An access to the segment. -/
structure Access where
  op : Op
  field : Field
  deriving DecidableEq, Repr

namespace Access

/-- The access is to one of the fields that hold the message. -/
def isSlot (access : Access) : Bool :=
  access.field = .buffer || access.field = .length || access.field = .isExit

/-- The access takes the field to be an initialised semaphore. -/
def usesSem (access : Access) : Bool :=
  access.op = .wait || access.op = .post || access.op = .destroy

end Access

/-- What the next step of the set-up accesses. -/
def SetupPc.access : SetupPc → Option Access
  | .memset (field :: _) => some ⟨.write, field⟩
  | .initMutex => some ⟨.init, .mutex⟩
  | .initEmpty => some ⟨.init, .empty⟩
  | .initFull => some ⟨.init, .full⟩
  | .setReady => some ⟨.write, .ready⟩
  | .waitReady => some ⟨.read, .ready⟩
  | _ => none

/-- What the next step of the sender accesses. -/
def Sender.access (sender : Sender) : Option Access :=
  match sender.pc with
  | .setup pc => pc.access
  | .waitReady => some ⟨.read, .ready⟩
  | .semWaitEmpty => some ⟨.wait, .empty⟩
  | .semWaitMutex => some ⟨.wait, .mutex⟩
  | .copy _ => some ⟨.write, .buffer⟩
  | .setLength => some ⟨.write, .length⟩
  | .setIsExit => some ⟨.write, .isExit⟩
  | .semPostMutex => some ⟨.post, .mutex⟩
  | .semPostFull => some ⟨.post, .full⟩
  | .shmdt => none
  | .finished => none

/-- What the next step of the receiver accesses. -/
def Receiver.access (receiver : Receiver) : Option Access :=
  match receiver.pc with
  | .setup pc => pc.access
  | .waitReady => some ⟨.read, .ready⟩
  | .semWaitFull => some ⟨.wait, .full⟩
  | .semWaitMutex => some ⟨.wait, .mutex⟩
  | .readLength => some ⟨.read, .length⟩
  | .copy i => some ⟨.read, if i < receiver.copyLength then .buffer else .isExit⟩
  | .clearLength => some ⟨.write, .length⟩
  | .clearIsExit => some ⟨.write, .isExit⟩
  | .clearBuffer => some ⟨.write, .buffer⟩
  | .semPostMutex => some ⟨.post, .mutex⟩
  | .semPostEmpty => some ⟨.post, .empty⟩
  | .destroyFull => some ⟨.destroy, .full⟩
  | .destroyEmpty => some ⟨.destroy, .empty⟩
  | .destroyMutex => some ⟨.destroy, .mutex⟩
  | .shmdt => none
  | .shmctl => none
  | .finished => none

/-! ## Runs -/

/-- Both processes have just started and there is no segment. -/
def startState (messages : List Message) : State where
  linked := false
  box := .fresh
  sender := ⟨.setup .shmgetExcl, .zero, messages⟩
  receiver := ⟨.setup .shmgetExcl, 0, .zero, []⟩

/-- The two processes; the sender sends the given messages. -/
def processes (messages : List Message) : Pair State where
  start := startState messages
  left := senderStep
  right := receiverStep

/-- The states that some interleaving leads to. -/
abbrev IpcReachable (messages : List Message) (s : State) : Prop :=
  Reachable (processes messages).system s

end NckuOs.Ipc
