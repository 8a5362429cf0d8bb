import NckuOs.Ipc.Delivery
import NckuOs.Ipc.Flag

/-!
# Runs with the shared mailbox

Every run of the two processes is finite, whatever is sent.  The texts arrive in order,
their types follow from them, and the receiver leaves its loop at the first exit message.
-/

namespace NckuOs.Ipc

open NckuOs.Interleaving
open NckuOs.Transition

variable {messages : List Message} {s s' : State}

/-! ## Every run is finite -/

/-- How many steps of the set-up are left. -/
def SetupPc.rank : SetupPc → Nat
  | .shmgetExcl => 16
  | .shmget => 15
  | .shmat _ => 14
  | .memset rest => rest.length + 5
  | .initMutex => 4
  | .initEmpty => 3
  | .initFull => 2
  | .setReady => 1
  | .waitReady => 1
  | .done => 0
  | .failed => 0

/-- The steps of the receiver for one message. -/
def receiveSteps : Nat := textSize + 10

/-- The steps of both processes for one message. -/
def messageSteps : Nat := receiveSteps + textSize + 9

/-- How many steps the sender can still cause with its message, and behind its loop. -/
def SenderPc.rank : SenderPc → Nat
  | .setup pc => pc.rank + 2
  | .waitReady => messageSteps
  | .semWaitEmpty => receiveSteps + textSize + 8
  | .semWaitMutex => receiveSteps + textSize + 7
  | .copy i => receiveSteps + 6 + (textSize - i)
  | .setLength => receiveSteps + 5
  | .setIsExit => receiveSteps + 4
  | .semPostMutex => receiveSteps + 3
  | .semPostFull => receiveSteps + 2
  | .shmdt => 1
  | .finished => 0

/-- How many steps the sender can still cause. -/
def Sender.rank (sender : Sender) : Nat :=
  messageSteps * sender.todo.length + sender.pc.rank

/-- How many steps the receiver has left before it waits for a message, or ends. -/
def ReceiverPc.rank (copyLength : Nat) : ReceiverPc → Nat
  | .setup pc => pc.rank + 8
  | .waitReady => 7
  | .semWaitFull => 6
  | .semWaitMutex => textSize + 15
  | .readLength => textSize + 14
  | .copy i => 13 + (copyLength - i)
  | .clearLength => 12
  | .clearIsExit => 11
  | .clearBuffer => 10
  | .semPostMutex => 9
  | .semPostEmpty => 8
  | .destroyFull => 5
  | .destroyEmpty => 4
  | .destroyMutex => 3
  | .shmdt => 2
  | .shmctl => 1
  | .finished => 0

def Receiver.rank (receiver : Receiver) : Nat :=
  receiver.pc.rank receiver.copyLength

/-- The value of `full`. -/
def ShmMailbox.fullCount (box : ShmMailbox) : Nat :=
  box.full.getD 0

/-- What a run has left. -/
def stepsLeft (s : State) : Nat :=
  s.sender.rank + receiveSteps * s.box.fullCount + s.receiver.rank

theorem ShmMailbox.fullCount_clear (box : ShmMailbox) (field : Field) :
    (box.clear field).fullCount ≤ box.fullCount := by
  cases field with
  | full => exact Nat.zero_le _
  | ready | mutex | empty | length | isExit | buffer => exact Nat.le_refl _

/-- A step of the set-up. -/
theorem setupStep_rank {linked linked' : Bool} {box box' : ShmMailbox} {pc next : SetupPc}
    (step : setupStep linked box pc = some (linked', box', next)) :
    next.rank < pc.rank ∧ box'.fullCount ≤ box.fullCount := by
  cases pc with
  | shmgetExcl =>
      simp only [setupStep] at step
      split at step
      · cases step
        exact ⟨Nat.lt_succ_self _, Nat.le_refl _⟩
      · cases step
        exact ⟨by decide, Nat.zero_le _⟩
  | shmget =>
      cases step
      constructor
      · split <;> decide
      · exact Nat.le_refl _
  | shmat created =>
      cases step
      constructor
      · cases created <;> decide
      · exact Nat.le_refl _
  | memset rest =>
      cases rest with
      | nil =>
          cases step
          exact ⟨by decide, Nat.le_refl _⟩
      | cons field rest =>
          cases step
          constructor
          · simp only [SetupPc.rank, List.length_cons]
            exact Nat.add_lt_add_right (Nat.lt_succ_self _) 5
          · exact box.fullCount_clear field
  | initMutex | initEmpty | setReady =>
      cases step
      exact ⟨by decide, Nat.le_refl _⟩
  | initFull =>
      cases step
      exact ⟨by decide, Nat.zero_le _⟩
  | waitReady =>
      simp only [setupStep] at step
      split at step
      · cases step
        exact ⟨by decide, Nat.le_refl _⟩
      · cases step
  | done => cases step
  | failed => cases step

theorem Sender.rank_nextSend (sender : Sender) :
    sender.nextSend.rank ≤ messageSteps * sender.todo.length + 1 := by
  unfold nextSend
  cases h : sender.todo with
  | nil =>
      simp only [rank, goto, h, SenderPc.rank]
      exact Nat.le_refl _
  | cons message rest =>
      simp only [rank, SenderPc.rank, List.length_cons, Nat.mul_succ]
      exact Nat.le_succ _

theorem Sender.rank_setupTo (sender : Sender) (next : SetupPc) :
    (sender.setupTo next).rank ≤ messageSteps * sender.todo.length + (next.rank + 2) := by
  cases next with
  | done => exact Nat.le_succ_of_le sender.rank_nextSend
  | shmgetExcl | shmget | shmat | memset | initMutex | initEmpty | initFull | setReady
  | waitReady | failed => exact Nat.le_refl _

theorem Receiver.rank_setupTo (receiver : Receiver) (next : SetupPc) :
    (receiver.setupTo next).rank ≤ next.rank + 8 := by
  cases next with
  | done => exact Nat.le_succ 7
  | shmgetExcl | shmget | shmat | memset | initMutex | initEmpty | initFull | setReady
  | waitReady | failed => exact Nat.le_refl _

theorem Sender.payloadSize_lt (sender : Sender) : sender.payloadSize < textSize := by
  unfold payloadSize
  split
  · exact Nat.sub_lt (by decide) Nat.one_pos
  next short => exact Nat.lt_of_not_le short

theorem semWait_eq_some {sem sem' : Sem} (waited : semWait sem = some sem') :
    sem.getD 0 = sem'.getD 0 + 1 := by
  unfold semWait at waited
  split at waited
  · cases waited
    rfl
  · cases waited

theorem semPost_eq_some {sem sem' : Sem} (posted : semPost sem = some sem') :
    sem'.getD 0 = sem.getD 0 + 1 := by
  unfold semPost at posted
  split at posted
  · cases posted
    rfl
  · cases posted

/-- A step of the sender within `send`. -/
theorem lowers_goto {box : ShmMailbox} {now pc : SenderPc} (here : s.sender.pc = now)
    (full : box.full = s.box.full) (lower : pc.rank < now.rank) :
    stepsLeft { s with box := box, sender := s.sender.goto pc } < stepsLeft s := by
  rw [← here] at lower
  have rank : (s.sender.goto pc).rank < s.sender.rank := Nat.add_lt_add_left lower _
  simp only [stepsLeft, ShmMailbox.fullCount, full]
  omega

/-- A step of the receiver that does not take `full`. -/
theorem lowers_receiver {linked : Bool} {box : ShmMailbox} {receiver : Receiver}
    (full : box.fullCount ≤ s.box.fullCount) (lower : receiver.rank < s.receiver.rank) :
    stepsLeft ⟨linked, box, s.sender, receiver⟩ < stepsLeft s := by
  have full := Nat.mul_le_mul_left receiveSteps full
  simp only [stepsLeft]
  omega

/-- The receiver goes on to its next statement. -/
theorem lowers_receiver_goto {linked : Bool} {box : ShmMailbox} {now pc : ReceiverPc}
    (here : s.receiver.pc = now) (full : box.full = s.box.full)
    (lower : pc.rank s.receiver.copyLength < now.rank s.receiver.copyLength) :
    stepsLeft ⟨linked, box, s.sender, s.receiver.goto pc⟩ < stepsLeft s := by
  rw [← here] at lower
  apply lowers_receiver
  · rw [ShmMailbox.fullCount, full]
    exact Nat.le_refl _
  · exact lower

theorem senderStep_lowers (step : senderStep s = some s') : stepsLeft s' < stepsLeft s := by
  unfold senderStep at step
  split at step
  next pc here =>
    rcases Option.map_eq_some_iff.mp step with ⟨⟨linked, box, next⟩, stepped, rfl⟩
    have lower := setupStep_rank stepped
    have after := s.sender.rank_setupTo next
    have full := Nat.mul_le_mul_left receiveSteps lower.2
    have before : s.sender.rank = messageSteps * s.sender.todo.length + (pc.rank + 2) := by
      rw [Sender.rank, here]
      rfl
    simp only [stepsLeft, before]
    omega
  next here =>
    split at step
    · cases step
      exact lowers_goto here rfl (Nat.lt_succ_self _)
    · cases step
  next here =>
    rcases Option.map_eq_some_iff.mp step with ⟨empty, _, rfl⟩
    exact lowers_goto here rfl (Nat.lt_succ_self _)
  next here =>
    rcases Option.map_eq_some_iff.mp step with ⟨mutex, _, rfl⟩
    apply lowers_goto here rfl
    simp only [SenderPc.rank]
    omega
  next i here =>
    have inside := s.sender.payloadSize_lt
    split at step
    · cases step
      apply lowers_goto here rfl
      simp only [SenderPc.rank]
      omega
    · cases step
      apply lowers_goto here rfl
      simp only [SenderPc.rank]
      omega
  next here =>
    cases step
    exact lowers_goto here rfl (Nat.lt_succ_self _)
  next here =>
    cases step
    exact lowers_goto here rfl (Nat.lt_succ_self _)
  next here =>
    rcases Option.map_eq_some_iff.mp step with ⟨mutex, _, rfl⟩
    exact lowers_goto here rfl (Nat.lt_succ_self _)
  next here =>
    rcases Option.map_eq_some_iff.mp step with ⟨full, posted, rfl⟩
    have after := s.sender.rank_nextSend
    have counted := semPost_eq_some posted
    have before : s.sender.rank = messageSteps * s.sender.todo.length + (receiveSteps + 2) := by
      rw [Sender.rank, here]
      rfl
    simp only [stepsLeft, before, ShmMailbox.fullCount, counted, Nat.mul_succ]
    omega
  next here =>
    cases step
    exact lowers_goto here rfl Nat.one_pos
  next => cases step

theorem Receiver.rank_nextReceive (receiver : Receiver) : receiver.nextReceive.rank < 8 := by
  by_cases exits : receiver.message.isExit = true
  · have here : receiver.nextReceive.pc = .destroyFull := if_pos exits
    rw [rank, here, ReceiverPc.rank]
    decide
  · have here : receiver.nextReceive.pc = .waitReady := if_neg exits
    rw [rank, here, ReceiverPc.rank]
    decide

theorem receiverStep_lowers (step : receiverStep s = some s') : stepsLeft s' < stepsLeft s := by
  unfold receiverStep at step
  split at step
  next pc here =>
    rcases Option.map_eq_some_iff.mp step with ⟨⟨linked, box, next⟩, stepped, rfl⟩
    have lower := setupStep_rank stepped
    apply lowers_receiver
    · exact lower.2
    · apply Nat.lt_of_le_of_lt (s.receiver.rank_setupTo next)
      rw [Receiver.rank, here]
      exact Nat.add_lt_add_right lower.1 8
  next here =>
    split at step
    · cases step
      exact lowers_receiver_goto here rfl (Nat.lt_succ_self 6)
    · cases step
  next here =>
    rcases Option.map_eq_some_iff.mp step with ⟨full, waited, rfl⟩
    have counted := semWait_eq_some waited
    have before : s.receiver.rank = 6 := by
      rw [Receiver.rank, here]
      rfl
    have after : (s.receiver.goto .semWaitMutex).rank = textSize + 15 := rfl
    simp only [stepsLeft, before, after, ShmMailbox.fullCount, counted, Nat.mul_succ, receiveSteps]
    omega
  next here =>
    rcases Option.map_eq_some_iff.mp step with ⟨mutex, _, rfl⟩
    exact lowers_receiver_goto here rfl (Nat.lt_succ_self _)
  next here =>
    cases step
    apply lowers_receiver
    · exact Nat.le_refl _
    · simp only [Receiver.rank, here, ReceiverPc.rank]
      split <;> omega
  next i here =>
    split at step
    · cases step
      apply lowers_receiver
      · exact Nat.le_refl _
      · simp only [Receiver.rank, here, ReceiverPc.rank]
        omega
    · cases step
      apply lowers_receiver
      · exact Nat.le_refl _
      · simp only [Receiver.rank, here, ReceiverPc.rank]
        omega
  next here =>
    cases step
    exact lowers_receiver_goto here rfl (Nat.lt_succ_self 11)
  next here =>
    cases step
    exact lowers_receiver_goto here rfl (Nat.lt_succ_self 10)
  next here =>
    cases step
    exact lowers_receiver_goto here rfl (Nat.lt_succ_self 9)
  next here =>
    rcases Option.map_eq_some_iff.mp step with ⟨mutex, _, rfl⟩
    exact lowers_receiver_goto here rfl (Nat.lt_succ_self 8)
  next here =>
    rcases Option.map_eq_some_iff.mp step with ⟨empty, _, rfl⟩
    apply lowers_receiver
    · exact Nat.le_refl _
    · have before : s.receiver.rank = 8 := by
        rw [Receiver.rank, here]
        rfl
      rw [before]
      exact s.receiver.rank_nextReceive
  next here =>
    cases step
    apply lowers_receiver
    · exact Nat.zero_le _
    · rw [Receiver.rank, Receiver.rank, here]
      exact Nat.lt_succ_self 4
  next here =>
    cases step
    exact lowers_receiver_goto here rfl (Nat.lt_succ_self 3)
  next here =>
    cases step
    exact lowers_receiver_goto here rfl (Nat.lt_succ_self 2)
  next here =>
    cases step
    exact lowers_receiver_goto here rfl (Nat.lt_succ_self 1)
  next here =>
    cases step
    exact lowers_receiver_goto here rfl (Nat.lt_succ_self 0)
  next => cases step

/-- Every run is finite. -/
theorem processes_lowers : (processes messages).Lowers stepsLeft := by
  intro side state next moved
  cases side with
  | left => exact senderStep_lowers moved
  | right => exact receiverStep_lowers moved

/-! ## The end marker -/

/-- The receiver has left its loop. -/
def ReceiverPc.HasLeft : ReceiverPc → Prop
  | .destroyFull => True
  | .destroyEmpty => True
  | .destroyMutex => True
  | .shmdt => True
  | .shmctl => True
  | .finished => True
  | _ => False

theorem senderStep_receiver (step : senderStep s = some s') : s'.receiver = s.receiver := by
  unfold senderStep at step
  split at step
  case h_2 | h_5 =>
    split at step <;> cases step <;> rfl
  case h_1 | h_3 | h_4 | h_8 | h_9 =>
    rcases Option.map_eq_some_iff.mp step with ⟨_, _, rfl⟩
    rfl
  all_goals cases step <;> rfl

/-- There is no way back into the loop. -/
theorem hasLeft_step (left : s.receiver.pc.HasLeft) (step : receiverStep s = some s') :
    s'.receiver.pc.HasLeft := by
  unfold receiverStep at step
  split at step
  case h_12 | h_13 | h_14 | h_15 | h_16 =>
    cases step
    trivial
  case h_17 => cases step
  all_goals
    next here =>
      rw [here] at left
      exact left.elim

theorem seesExitLast_step (sees : SeesExitLast (¬s.receiver.pc.HasLeft) s.receiver.received)
    (step : receiverStep s = some s') :
    SeesExitLast (¬s'.receiver.pc.HasLeft) s'.receiver.received := by
  by_cases last : s.receiver.pc = .semPostEmpty
  · simp only [receiverStep, last] at step
    rcases Option.map_eq_some_iff.mp step with ⟨empty, _, rfl⟩
    apply sees.snoc
    · rw [last]
      exact id
    · intro goesOn
      by_contra exits
      apply goesOn
      have here : s.receiver.nextReceive.pc = .destroyFull :=
        if_pos (Bool.eq_true_of_not_eq_false exits)
      rw [here]
      trivial
  · rw [receiverStep_received last step]
    exact sees.mono fun inLoop left => inLoop (hasLeft_step left step)

theorem seesExitLast_of_reachable (reachable : IpcReachable messages s) :
    SeesExitLast (¬s.receiver.pc.HasLeft) s.receiver.received := by
  apply Pair.invariant (P := fun (s : State) =>
    SeesExitLast (¬s.receiver.pc.HasLeft) s.receiver.received) .start _ _ reachable
  · intro state next sees step
    rw [senderStep_receiver step]
    exact sees
  · intro state next sees step
    exact seesExitLast_step sees step

/-- A message that is typed by its text is determined by it. -/
theorem map_pair_of_typed {received : List Message}
    (typed : ∀ message ∈ received, message.Typed) :
    received.map Message.pair = (received.map Message.text).map fun text =>
      (if text = exitMessage then 2 else 1, text) := by
  rw [List.map_map]
  apply List.map_congr_left
  intro message isMem
  exact Prod.ext (typed message isMem) rfl

variable {file : List UInt8}

theorem typed_of_mem_sent (noExit : exitMessage ∉ ordinaryTexts file) {message : Message}
    (isMem : message ∈ sentMessages file) : message.Typed := by
  rw [sentMessages_eq] at isMem
  rcases List.mem_append.mp isMem with ordinary | isMarker
  · rcases List.mem_map.mp ordinary with ⟨text, inFile, rfl⟩
    rw [Message.Typed, text_ofText (fits_ordinary inFile), if_neg]
    · rfl
    · rintro rfl
      exact noExit inFile
  · rw [List.mem_singleton.mp isMarker, Message.Typed, endMarker, text_ofText fits_exitMessage,
      if_pos rfl]
    rfl

theorem Closing.hasLeft {box : ShmMailbox} {receiver : Receiver}
    (closing : Closing box receiver) : receiver.pc.HasLeft := by
  cases closing with
  | destroyFull here | destroyEmpty here | destroyMutex here =>
      rw [here]
      trivial
  | done here =>
      rcases here with here | here | here
      all_goals
        rw [here]
        trivial

theorem ReceiverIdle.not_hasLeft {receiver : Receiver} (idle : ReceiverIdle receiver) :
    ¬receiver.pc.HasLeft := by
  cases idle with
  | setup here | waitReady here | waitFull here =>
      rw [here]
      exact id

theorem Draining.not_hasLeft {box : ShmMailbox} {receiver : Receiver} {text : List UInt8}
    (draining : Draining box receiver text) : ¬receiver.pc.HasLeft := by
  cases draining with
  | waitMutex here | readLength here | copy here | postEmpty here =>
      rw [here]
      exact id
  | clear here =>
      rcases here with here | here | here | here
      all_goals
        rw [here]
        exact id

theorem Slot.not_hasLeft {texts : List (List UInt8)} {box : ShmMailbox} {sender : Sender}
    {receiver : Receiver} (slot : Slot texts box sender receiver) : ¬receiver.pc.HasLeft := by
  cases slot with
  | free _ _ _ _ idle | filling _ _ _ idle | full _ _ _ _ _ idle => exact idle.not_hasLeft
  | draining _ _ draining => exact draining.not_hasLeft

/-- The receiver has left its loop when it has received every text, and not before. -/
theorem Phase.hasLeft_iff {texts : List (List UInt8)} (stream : Stream texts)
    (phase : Phase texts s) : s.receiver.pc.HasLeft ↔ s.receiver.texts = texts := by
  rcases stream.ends with ⟨front, ends, _⟩
  have notSetup {pc : SetupPc} (here : s.receiver.pc = .setup pc)
      (untouched : Untouched texts s) :
      s.receiver.pc.HasLeft ↔ s.receiver.texts = texts := by
    have nothing : s.receiver.texts ≠ texts := by
      rw [Receiver.texts, untouched.received, ends]
      exact (List.append_ne_nil_of_right_ne_nil _ (List.cons_ne_nil _ _)).symm
    rw [here]
    exact ⟨False.elim, fun all => absurd all nothing⟩
  cases phase with
  | absent _ _ receiverHere untouched => exact notSetup receiverHere untouched
  | senderMakes _ _ _ receiverHere _ untouched => exact notSetup receiverHere untouched
  | receiverMakes _ receiverHere _ _ _ untouched => exact notSetup receiverHere untouched
  | running _ _ slot notExited =>
      constructor
      · exact fun left => absurd left slot.not_hasLeft
      · intro all
        rw [all, ends] at notExited
        exact absurd (List.mem_append_right _ List.mem_cons_self) notExited
  | closing _ all closing => exact ⟨fun _ => all, fun _ => closing.hasLeft⟩

/-- The two processes that share the mailbox. -/
theorem stopsAtMarker (noExit : exitMessage ∉ ordinaryTexts file) :
    StopsAtMarker (processes (sentMessages file)) (fun s => s.receiver.received)
      (fun s => s.receiver.pc.HasLeft) file := by
  have stream := stream_sentMessages noExit
  have sentPairs := map_pair_of_typed fun _ isMem => typed_of_mem_sent noExit isMem
  have pairs (s : State) (reachable : IpcReachable (sentMessages file) s) :=
    map_pair_of_typed (flagInv_of_reachable stream reachable).received
  have stops (s : State) (reachable : IpcReachable (sentMessages file) s) :
      s.receiver.pc.HasLeft ↔
        s.receiver.received.map Message.pair = (sentMessages file).map Message.pair := by
    rw [(phase_of_reachable stream reachable).hasLeft_iff stream]
    constructor
    · intro all
      rw [pairs s reachable, sentPairs]
      exact congrArg _ all
    · exact map_text_of_map_pair
  constructor
  · refine ⟨stepsLeft (startState (sentMessages file)), ?_⟩
    intro sides s trace
    exact Nat.le_trans (Nat.le_add_right _ _) (processes_lowers.length_le trace)
  · intro s reachable
    obtain ⟨inSlot, _, account⟩ := (phase_of_reachable stream reachable).account
    rw [pairs s reachable, sentPairs, ← account, List.append_assoc, List.map_append]
    exact ⟨_, rfl⟩
  · exact stops
  · rintro s reachable ⟨senderBlocked, receiverBlocked⟩
    have phase := phase_of_reachable stream reachable
    have finished := (phase.finished_of_stuck stream senderBlocked receiverBlocked).2.1
    rw [finished]
    trivial
  · intro s reachable left
    exact printed_of_all noExit ((stops s reachable).mp left)

/-- The messages of a file go through the shared mailbox exactly when none of its lines
spells the exit message. -/
theorem stopsAtMarker_iff :
    StopsAtMarker (processes (sentMessages file)) (fun s => s.receiver.received)
      (fun s => s.receiver.pc.HasLeft) file ↔ exitMessage ∉ ordinaryTexts file := by
  constructor
  · intro stops
    exact stops.noExit processes_lowers fun _ reachable => seesExitLast_of_reachable reachable
  · exact stopsAtMarker

end NckuOs.Ipc
