import NckuOs.Ipc.QueueRun
import NckuOs.Ipc.SharedRun

/-!
# Either mechanism

The end marker travels as a text, and the receiver compares texts.  An ordinary line with
that text ends the stream, with either mechanism.
-/

namespace NckuOs.Ipc

open NckuOs.Interleaving
open NckuOs.Transition

/-- The argument of both programs. -/
inductive Mechanism
  | msgPassing
  | sharedMem
  deriving DecidableEq, Repr

/-- The messages of a file go through with the mechanism. -/
def GoesThrough (limit : MessageQueue.Limit) (file : List UInt8) : Mechanism → Prop
  | .msgPassing =>
      StopsAtMarker (MessageQueue.processes limit (sentMessages file))
        (fun s => s.receiver.received) (fun s => s.receiver.pc.HasLeft) file
  | .sharedMem =>
      StopsAtMarker (processes (sentMessages file))
        (fun s => s.receiver.received) (fun s => s.receiver.pc.HasLeft) file

/-- With either mechanism the receiver gets every message of a file with its type, stops
at the end marker and nowhere else, and prints every ordinary message, exactly when no line
that is sent as an ordinary message spells the exit message. -/
theorem goes_through_iff (limit : MessageQueue.Limit) (file : List UInt8)
    (mechanism : Mechanism) :
    GoesThrough limit file mechanism ↔ exitMessage ∉ ordinaryTexts file := by
  cases mechanism with
  | msgPassing => exact MessageQueue.stopsAtMarker_iff
  | sharedMem => exact stopsAtMarker_iff

/-! ## A line that spells the exit message -/

/-- The lines `__IPC_EXIT__` and `hi`. -/
def exitLineFile : List UInt8 :=
  exitMessage ++ [newline, 104, 105, newline]

/-- Three messages are sent for them. -/
theorem sent_exitLineFile :
    (sentMessages exitLineFile).map Message.pair =
      [(1, exitMessage), (1, [104, 105]), (2, exitMessage)] := by
  decide +kernel

theorem one_of_three (pair : Nat × List UInt8) :
    [pair] ≠ (sentMessages exitLineFile).map Message.pair := by
  rw [sent_exitLineFile]
  intro all
  have shorter : 1 = 3 := congrArg List.length all
  cases shorter

/-- The size of a queue that Linux takes by default. -/
def defaultLimit : MessageQueue.Limit where
  bytes := 16384
  large := by decide

/-- Both processes make the queue, one message is sent and received. -/
theorem one_passed :
    ∃ s, Reachable (MessageQueue.processes defaultLimit (sentMessages exitLineFile)).system s ∧
      s.receiver.pc = .msgctl ∧ s.receiver.received.map Message.pair = [(1, exitMessage)] := by
  let pair := MessageQueue.processes defaultLimit (sentMessages exitLineFile)
  refine ⟨pair.follow [.left, .right, .left, .right] pair.start, ?_, ?_⟩
  · exact Pair.reachable_follow _ (.start rfl)
  · decide +kernel

/-- Both processes move by turns, until the receiver has removed the segment. -/
theorem one_shared :
    ∃ s, IpcReachable (sentMessages exitLineFile) s ∧
      s.receiver.pc = .finished ∧ s.receiver.received.map Message.pair = [(2, exitMessage)] := by
  let pair := processes (sentMessages exitLineFile)
  refine ⟨pair.follow (List.replicate 60 [.left, .right]).flatten pair.start, ?_, ?_⟩
  · exact Pair.reachable_follow _ (.start rfl)
  · decide +kernel

/-- The receiver leaves its loop with the ordinary message, whose type the shared mailbox
changes, and the line behind it is lost. -/
theorem exit_line_ends_stream :
    (∃ s, Reachable (MessageQueue.processes defaultLimit (sentMessages exitLineFile)).system s ∧
      s.receiver.pc.HasLeft ∧ s.receiver.received.map Message.pair = [(1, exitMessage)]) ∧
    (∃ s, IpcReachable (sentMessages exitLineFile) s ∧
      s.receiver.pc.HasLeft ∧ s.receiver.received.map Message.pair = [(2, exitMessage)]) ∧
    ∀ mechanism, ¬GoesThrough defaultLimit exitLineFile mechanism := by
  rcases one_passed with ⟨passed, passedReachable, passedHere, passedPairs⟩
  have passedLeft : passed.receiver.pc.HasLeft := by
    rw [passedHere]
    trivial
  rcases one_shared with ⟨shared, sharedReachable, sharedHere, sharedPairs⟩
  have sharedLeft : shared.receiver.pc.HasLeft := by
    rw [sharedHere]
    trivial
  constructor
  · exact ⟨passed, passedReachable, passedLeft, passedPairs⟩
  · constructor
    · exact ⟨shared, sharedReachable, sharedLeft, sharedPairs⟩
    · intro mechanism
      cases mechanism with
      | msgPassing =>
          apply not_stopsAtMarker passedReachable passedLeft
          rw [passedPairs]
          exact one_of_three _
      | sharedMem =>
          apply not_stopsAtMarker sharedReachable sharedLeft
          rw [sharedPairs]
          exact one_of_three _

end NckuOs.Ipc
