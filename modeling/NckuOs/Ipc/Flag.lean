import NckuOs.Ipc.EndMarker
import NckuOs.Ipc.Run

/-!
# The flag of the shared mailbox

The segment does not carry the type of a message: the sender sets `is_exit` when the text
is the exit message, and the receiver makes the type of it.  So what the receiver obtains
is typed by its text, and that is the type that the message was sent with when no ordinary
text is the exit message.
-/

namespace NckuOs.Ipc

open NckuOs.ByteMemory
open NckuOs.Interleaving
open NckuOs.Transition

variable {texts : List (List UInt8)} {s s' : State}

/-! ## The invariant -/

/-- The message has the type of its text. -/
def Message.Typed (message : Message) : Prop :=
  message.mType = if message.text = exitMessage then 2 else 1

/-- The flag is that of the text. -/
def Flagged (box : ShmMailbox) (text : List UInt8) : Prop :=
  box.isExit = if text = exitMessage then 1 else 0

/-- The text in the buffer. -/
def ShmMailbox.content (box : ShmMailbox) : List UInt8 :=
  (List.range box.length).map box.buffer

theorem Holds.content_eq {box : ShmMailbox} {text : List UInt8} (holds : Holds box text) :
    box.content = text := by
  have length : box.content.length = text.length := by
    rw [ShmMailbox.content, List.length_map, List.length_range, holds.length]
  apply List.ext_getElem length
  intro i _ inText
  simp only [ShmMailbox.content, List.getElem_map, List.getElem_range]
  rw [holds.bytes i inText, List.getD_eq_getElem _ _ inText]

/-- The sender has filled the slot and not handed it over yet. -/
def SenderPc.HasFilled (pc : SenderPc) : Prop :=
  pc = .semPostMutex ∨ pc = .semPostFull

/-- The slot has a text that the receiver has not taken out of it yet. -/
def Stored (box : ShmMailbox) (pc : ReceiverPc) : Prop :=
  box.full = some 1 ∨ pc = .semWaitMutex ∨ pc = .readLength ∨ ∃ i, pc = .copy i

/-- The receiver has taken the text out of the slot. -/
def ReceiverPc.HasCopied (pc : ReceiverPc) : Prop :=
  pc = .clearLength ∨ pc = .clearIsExit ∨ pc = .clearBuffer ∨ pc = .semPostMutex ∨
    pc = .semPostEmpty

/-- Flag and types agree with the texts. -/
structure FlagInv (s : State) : Prop where
  filled : s.sender.pc.HasFilled → Flagged s.box s.box.content
  stored : Stored s.box s.receiver.pc → Flagged s.box s.box.content
  copied : s.receiver.pc.HasCopied → s.receiver.message.Typed
  received : ∀ message ∈ s.receiver.received, message.Typed

/-! ## Idle processes -/

theorem SenderIdle.not_filled {sender : Sender} (idle : SenderIdle texts sender) :
    ¬sender.pc.HasFilled := by
  intro filled
  cases idle with
  | setup here | waitReady here | waitEmpty here =>
      rw [here] at filled
      rcases filled with eq | eq
      · cases eq
      · cases eq
  | done here =>
      rcases here with here | here
      all_goals
        rw [here] at filled
        rcases filled with eq | eq
        · cases eq
        · cases eq

theorem SenderPc.not_filled_setup (pc : SetupPc) : ¬(SenderPc.setup pc).HasFilled := by
  rintro (eq | eq)
  · cases eq
  · cases eq

theorem ReceiverIdle.not_copied {receiver : Receiver} (idle : ReceiverIdle receiver) :
    ¬receiver.pc.HasCopied := by
  rintro (eq | eq | eq | eq | eq)
  all_goals
    cases idle with
    | setup here | waitReady here | waitFull here => cases here.symm.trans eq

theorem ReceiverPc.not_copied_setup (pc : SetupPc) : ¬(ReceiverPc.setup pc).HasCopied := by
  rintro (eq | eq | eq | eq | eq)
  all_goals cases eq

/-- For an idle receiver only `full` says that there is a text. -/
theorem ReceiverIdle.full_of_stored {receiver : Receiver} {box : ShmMailbox}
    (idle : ReceiverIdle receiver) (stored : Stored box receiver.pc) : box.full = some 1 := by
  rcases stored with isFull | eq | eq | ⟨i, eq⟩
  · exact isFull
  all_goals
    cases idle with
    | setup here | waitReady here | waitFull here => cases here.symm.trans eq

theorem ReceiverPc.full_of_stored_setup {box : ShmMailbox} {pc : SetupPc}
    (stored : Stored box (.setup pc)) : box.full = some 1 := by
  rcases stored with isFull | eq | eq | ⟨i, eq⟩
  · exact isFull
  all_goals cases eq

theorem Making.not_full {box : ShmMailbox} {pc : SetupPc} (making : Making box pc) :
    box.full ≠ some 1 := by
  intro full
  cases making <;> cases full

/-! ## One step -/

theorem Receiver.received_setupTo (receiver : Receiver) (pc : SetupPc) :
    (receiver.setupTo pc).received = receiver.received := by
  cases pc <;> rfl

theorem Receiver.nextReceive_pc (receiver : Receiver) :
    receiver.nextReceive.pc = .destroyFull ∨ receiver.nextReceive.pc = .waitReady := by
  unfold Receiver.nextReceive
  dsimp only
  split
  · exact .inl rfl
  · exact .inr rfl

/-- Only the last step of `receive` adds a message. -/
theorem receiverStep_received (notLast : s.receiver.pc ≠ .semPostEmpty)
    (step : receiverStep s = some s') : s'.receiver.received = s.receiver.received := by
  unfold receiverStep at step
  split at step
  case h_11 here => exact absurd here notLast
  case h_1 =>
    rcases Option.map_eq_some_iff.mp step with ⟨⟨_, _, next⟩, _, rfl⟩
    exact s.receiver.received_setupTo next
  case h_2 | h_6 =>
    split at step <;> cases step <;> rfl
  case h_3 | h_4 | h_10 =>
    rcases Option.map_eq_some_iff.mp step with ⟨_, _, rfl⟩
    rfl
  all_goals cases step <;> rfl

namespace FlagInv

/-- With nothing in the slot there is nothing to say about it. -/
theorem of_idle (notFilled : ¬s.sender.pc.HasFilled) (notStored : ¬Stored s.box s.receiver.pc)
    (notCopied : ¬s.receiver.pc.HasCopied)
    (received : ∀ message ∈ s.receiver.received, message.Typed) : FlagInv s where
  filled isFilled := absurd isFilled notFilled
  stored isStored := absurd isStored notStored
  copied isCopied := absurd isCopied notCopied
  received := received

/-- The sender moves outside the slot. -/
theorem setSender (inv : FlagInv s) {sender : Sender} (notFilled : ¬sender.pc.HasFilled) :
    FlagInv { s with sender := sender } where
  filled isFilled := absurd isFilled notFilled
  stored := inv.stored
  copied := inv.copied
  received := inv.received

/-- An idle receiver moves. -/
theorem setReceiver (inv : FlagInv s) {receiver : Receiver} (idle : ReceiverIdle receiver)
    (same : receiver.received = s.receiver.received) :
    FlagInv { s with receiver := receiver } where
  filled := inv.filled
  stored isStored := inv.stored (.inl (idle.full_of_stored isStored))
  copied isCopied := absurd isCopied idle.not_copied
  received := by
    rw [same]
    exact inv.received

/-- A step of the sender that has the slot. -/
theorem fill (inv : FlagInv s) (filling : Filling s.box s.sender)
    (full : s.box.full = some 0) (receiverIdle : ReceiverIdle s.receiver)
    (step : senderStep s = some s') : FlagInv s' := by
  have notStored {box : ShmMailbox} (same : box.full = s.box.full) :
      ¬Stored box s.receiver.pc := by
    intro isStored
    have isFull := receiverIdle.full_of_stored isStored
    rw [same, full] at isFull
    cases isFull
  have notYet {box : ShmMailbox} {pc : SenderPc} (same : box.full = s.box.full)
      (notFilled : ¬pc.HasFilled) : FlagInv { s with box := box, sender := s.sender.goto pc } :=
    of_idle notFilled (notStored same) receiverIdle.not_copied inv.received
  cases filling with
  | waitMutex here mutex =>
      simp only [senderStep, here, mutex, semWait_succ, Option.map_some, Option.some.injEq] at step
      subst step
      exact notYet rfl (by rintro (eq | eq) <;> cases eq)
  | copy here =>
      simp only [senderStep, here] at step
      split at step
      · cases step
        exact notYet rfl (by rintro (eq | eq) <;> cases eq)
      · cases step
        exact notYet rfl (by rintro (eq | eq) <;> cases eq)
  | setLength here =>
      simp only [senderStep, here, Option.some.injEq] at step
      subst step
      exact notYet rfl (by rintro (eq | eq) <;> cases eq)
  | setIsExit here _ holds =>
      simp only [senderStep, here, Option.some.injEq] at step
      subst step
      constructor
      · intro _
        have content := holds.content_eq
        have flag : (if s.sender.message.isExit then 1 else 0 : Nat) =
            if s.box.content = exitMessage then 1 else 0 := by
          rw [content]
          simp only [isExit_iff]
        exact flag
      · exact fun isStored => absurd isStored (notStored rfl)
      · exact fun isCopied => absurd isCopied receiverIdle.not_copied
      · exact inv.received
  | postMutex here mutex =>
      simp only [senderStep, here, mutex, semPost_some, Option.map_some, Option.some.injEq] at step
      subst step
      constructor
      · exact fun _ => inv.filled (.inl here)
      · exact fun isStored => absurd isStored (notStored rfl)
      · exact fun isCopied => absurd isCopied receiverIdle.not_copied
      · exact inv.received
  | postFull here =>
      simp only [senderStep, here, full, semPost_some, Option.map_some, Option.some.injEq] at step
      subst step
      have idle : SenderIdle [] s.sender.nextSend := Sender.idle_nextSend
      constructor
      · exact fun isFilled => absurd isFilled idle.not_filled
      · exact fun _ => inv.filled (.inr here)
      · exact fun isCopied => absurd isCopied receiverIdle.not_copied
      · exact inv.received

/-- A step of the sender while messages are exchanged. -/
theorem slotSenderMoves (linked : s.linked = true) (inv : FlagInv s)
    (slot : Slot texts s.box s.sender s.receiver) (step : senderStep s = some s') :
    FlagInv s' := by
  have idleStep (idle : SenderIdle texts s.sender) (notWaiting : s.sender.pc ≠ .semWaitEmpty) :
      FlagInv s' := by
    obtain ⟨sender, rfl, idle', _⟩ := idle.step linked notWaiting step
    exact inv.setSender idle'.not_filled
  cases slot with
  | free empty full _ senderIdle receiverIdle =>
      by_cases waiting : s.sender.pc = .semWaitEmpty
      · simp only [senderStep, waiting, empty, semWait_succ, Option.map_some,
          Option.some.injEq] at step
        subst step
        constructor
        · rintro (eq | eq) <;> cases eq
        · exact inv.stored
        · exact inv.copied
        · exact inv.received
      · exact idleStep senderIdle waiting
  | filling _ full filling receiverIdle => exact inv.fill filling full receiverIdle step
  | full empty _ _ _ senderIdle => exact idleStep senderIdle (senderStep_of_not_empty empty step)
  | draining empty _ _ senderIdle =>
      exact idleStep senderIdle (senderStep_of_not_empty empty step)

/-- Before `ready` is set there is nothing in the slot. -/
theorem of_setup {senderPc receiverPc : SetupPc} (senderHere : s.sender.pc = .setup senderPc)
    (receiverHere : s.receiver.pc = .setup receiverPc) (full : s.box.full ≠ some 1)
    (received : ∀ message ∈ s.receiver.received, message.Typed) : FlagInv s := by
  apply of_idle
  · rw [senderHere]
    exact SenderPc.not_filled_setup senderPc
  · rw [receiverHere]
    exact fun isStored => full (ReceiverPc.full_of_stored_setup isStored)
  · rw [receiverHere]
    exact ReceiverPc.not_copied_setup receiverPc
  · exact received

/-- When `ready` is set the slot is free. -/
theorem of_initialized {sender : Sender} {receiver : Receiver}
    (senderIdle : SenderIdle texts sender) (receiverIdle : ReceiverIdle receiver)
    (received : ∀ message ∈ receiver.received, message.Typed) :
    FlagInv ⟨true, .initialized, sender, receiver⟩ := by
  apply of_idle
  · exact senderIdle.not_filled
  · intro isStored
    cases receiverIdle.full_of_stored isStored
  · exact receiverIdle.not_copied
  · exact received

/-- Any step of the sender. -/
theorem senderMoves (phase : Phase texts s) (inv : FlagInv s) (step : senderStep s = some s') :
    FlagInv s' := by
  have received := inv.received
  cases phase with
  | absent unlinked senderHere receiverHere =>
      simp only [senderStep, senderHere, unlinked, setupStep, Bool.false_eq_true,
        if_false, Option.map_some, Option.some.injEq] at step
      subst step
      exact of_setup rfl receiverHere Making.shmat.not_full received
  | senderMakes linked senderHere making receiverHere waits =>
      obtain ⟨box, next, stepped, moved⟩ := making.step
      simp only [senderStep, senderHere, linked, stepped, Option.map_some,
        Option.some.injEq] at step
      subst step
      rcases moved with stillMaking | ⟨rfl, rfl⟩
      · rw [Sender.setupTo_of_making stillMaking]
        exact of_setup rfl receiverHere stillMaking.not_full received
      · have idle : SenderIdle [] s.sender.nextSend := Sender.idle_nextSend
        exact of_initialized idle (.setup receiverHere waits) received
  | receiverMakes linked receiverHere making senderHere waits =>
      simp only [senderStep, senderHere, Option.map_eq_some_iff] at step
      obtain ⟨⟨linked', box', next⟩, stepped, rfl⟩ := step
      rw [linked] at stepped
      obtain ⟨rfl, rfl, stillWaits | ⟨_, ready⟩⟩ := waits.step stepped
      · rw [Sender.setupTo_of_waits stillWaits]
        exact of_setup rfl receiverHere making.not_full received
      · exact absurd making.not_ready ready
  | running linked _ slot => exact inv.slotSenderMoves linked slot step
  | closing senderDone =>
      rcases senderDone with detaching | finished
      · simp only [senderStep, detaching, Option.some.injEq] at step
        subst step
        exact inv.setSender (by rintro (eq | eq) <;> cases eq)
      · simp only [senderStep, finished] at step
        cases step

/-- The receiver is still in front of the flag, or copies the text. -/
theorem of_reading {box : ShmMailbox} {receiver : Receiver} (notFilled : ¬s.sender.pc.HasFilled)
    (flag : Flagged box box.content) (notCopied : ¬receiver.pc.HasCopied)
    (received : ∀ message ∈ receiver.received, message.Typed) :
    FlagInv { s with box := box, receiver := receiver } where
  filled isFilled := absurd isFilled notFilled
  stored _ := flag
  copied isCopied := absurd isCopied notCopied
  received := received

/-- The receiver has the text, and the slot is on its way to being empty. -/
theorem of_copied {box : ShmMailbox} {receiver : Receiver} (notFilled : ¬s.sender.pc.HasFilled)
    (notStored : ¬Stored box receiver.pc) (typed : receiver.message.Typed)
    (received : ∀ message ∈ receiver.received, message.Typed) :
    FlagInv { s with box := box, receiver := receiver } where
  filled isFilled := absurd isFilled notFilled
  stored isStored := absurd isStored notStored
  copied _ := typed
  received := received

/-- With `full` at zero a receiver behind its copy does not need the flag. -/
theorem not_stored {box : ShmMailbox} {pc : ReceiverPc} (full : box.full = some 0)
    (copied : pc.HasCopied) : ¬Stored box pc := by
  rintro (isFull | eq | eq | ⟨i, eq⟩)
  · cases full.symm.trans isFull
  all_goals
    subst eq
    rcases copied with eq | eq | eq | eq | eq <;> cases eq

/-- A step of the receiver that has the slot. -/
theorem drain {text : List UInt8} (inv : FlagInv s) (fits : Fits text)
    (draining : Draining s.box s.receiver text) (empty : s.box.empty = some 0)
    (full : s.box.full = some 0) (senderIdle : SenderIdle texts s.sender)
    (step : receiverStep s = some s') : FlagInv s' := by
  have notFilled := senderIdle.not_filled
  cases draining with
  | waitMutex here mutex =>
      simp only [receiverStep, here, mutex, semWait_succ, Option.map_some,
        Option.some.injEq] at step
      subst step
      apply of_reading notFilled
      · exact inv.stored (.inr (.inl here))
      · rintro (eq | eq | eq | eq | eq) <;> cases eq
      · exact inv.received
  | readLength here =>
      simp only [receiverStep, here, Option.some.injEq] at step
      subst step
      apply of_reading notFilled
      · exact inv.stored (.inr (.inr (.inl here)))
      · rintro (eq | eq | eq | eq | eq) <;> cases eq
      · exact inv.received
  | @copy i here _ holds length inside bytes =>
      have flag := inv.stored (.inr (.inr (.inr ⟨i, here⟩)))
      simp only [receiverStep, here, length] at step
      by_cases more : i < text.length
      · rw [if_pos more, Option.some.injEq] at step
        subst step
        apply of_reading notFilled
        · exact flag
        · rintro (eq | eq | eq | eq | eq) <;> cases eq
        · exact inv.received
      · rw [if_neg more, Option.some.injEq] at step
        subst step
        obtain rfl : i = text.length := Nat.le_antisymm inside (Nat.le_of_not_lt more)
        have copied := bytes.cstr_terminated fits
        have typed : (if s.box.isExit ≠ 0 then 2 else 1 : Nat) =
            if cstr (store s.receiver.message.msgText text.length 1 fun _ => 0) 0 textSize =
              exitMessage then 2 else 1 := by
          rw [copied, flag, holds.content_eq]
          split <;> rfl
        apply of_copied notFilled
        · exact not_stored full (.inl rfl)
        · exact typed
        · exact inv.received
  | clear here mutex =>
      have typed : s.receiver.message.Typed := by
        apply inv.copied
        rcases here with here | here | here | here
        · exact .inl here
        · exact .inr (.inl here)
        · exact .inr (.inr (.inl here))
        · exact .inr (.inr (.inr (.inl here)))
      rcases here with here | here | here | here
      · simp only [receiverStep, here, Option.some.injEq] at step
        subst step
        apply of_copied notFilled
        · exact not_stored full (.inr (.inl rfl))
        · exact typed
        · exact inv.received
      · simp only [receiverStep, here, Option.some.injEq] at step
        subst step
        apply of_copied notFilled
        · exact not_stored full (.inr (.inr (.inl rfl)))
        · exact typed
        · exact inv.received
      · simp only [receiverStep, here, Option.some.injEq] at step
        subst step
        apply of_copied notFilled
        · exact not_stored full (.inr (.inr (.inr (.inl rfl))))
        · exact typed
        · exact inv.received
      · simp only [receiverStep, here, mutex, semPost_some, Option.map_some,
          Option.some.injEq] at step
        subst step
        apply of_copied notFilled
        · exact not_stored full (.inr (.inr (.inr (.inr rfl))))
        · exact typed
        · exact inv.received
  | postEmpty here =>
      have typed : s.receiver.message.Typed := inv.copied (.inr (.inr (.inr (.inr here))))
      simp only [receiverStep, here, empty, semPost_some, Option.map_some,
        Option.some.injEq] at step
      subst step
      have next := s.receiver.nextReceive_pc
      apply of_idle
      · exact notFilled
      · rintro (isFull | eq | eq | ⟨i, eq⟩)
        · cases full.symm.trans isFull
        all_goals rcases next with next | next <;> cases next.symm.trans eq
      · rintro (eq | eq | eq | eq | eq)
        all_goals rcases next with next | next <;> cases next.symm.trans eq
      · intro message isMem
        rcases List.mem_append.mp isMem with old | isNew
        · exact inv.received message old
        · rw [List.mem_singleton.mp isNew]
          exact typed

/-- A step of the receiver while messages are exchanged. -/
theorem slotReceiverMoves (stream : Stream texts) (linked : s.linked = true) (inv : FlagInv s)
    (slot : Slot texts s.box s.sender s.receiver) (step : receiverStep s = some s') :
    FlagInv s' := by
  have idleStep (idle : ReceiverIdle s.receiver) (notWaiting : s.receiver.pc ≠ .semWaitFull) :
      FlagInv s' := by
    have notLast : s.receiver.pc ≠ .semPostEmpty :=
      fun last => idle.not_copied (.inr (.inr (.inr (.inr last))))
    have same := receiverStep_received notLast step
    obtain ⟨receiver, rfl, idle', _⟩ := idle.step linked notWaiting step
    exact inv.setReceiver idle' same
  cases slot with
  | free _ full _ _ receiverIdle =>
      exact idleStep receiverIdle (receiverStep_of_not_full full step)
  | filling _ full _ receiverIdle =>
      exact idleStep receiverIdle (receiverStep_of_not_full full step)
  | full _ full _ _ senderIdle receiverIdle =>
      by_cases waiting : s.receiver.pc = .semWaitFull
      · simp only [receiverStep, waiting, full, semWait_succ, Option.map_some,
          Option.some.injEq] at step
        subst step
        constructor
        · exact inv.filled
        · exact fun _ => inv.stored (.inl full)
        · rintro (eq | eq | eq | eq | eq) <;> cases eq
        · exact inv.received
      · exact idleStep receiverIdle waiting
  | draining empty full draining senderIdle account =>
      exact inv.drain (stream.fits_of_account account) draining empty full senderIdle step

/-- The receiver takes the segment away. -/
theorem close (inv : FlagInv s) (closing : Closing s.box s.receiver)
    (step : receiverStep s = some s') : FlagInv s' := by
  have moved {box : ShmMailbox} {linked : Bool} {pc : ReceiverPc}
      (full : box.full = some 1 → s.box.full = some 1)
      (same : box.isExit = s.box.isExit ∧ box.content = s.box.content)
      (left : pc = .destroyEmpty ∨ pc = .destroyMutex ∨ pc = .shmdt ∨ pc = .shmctl ∨
        pc = .finished) : FlagInv ⟨linked, box, s.sender, s.receiver.goto pc⟩ := by
    have flag (flagged : Flagged s.box s.box.content) : Flagged box box.content := by
      rw [Flagged, same.1, same.2]
      exact flagged
    constructor
    · exact fun isFilled => flag (inv.filled isFilled)
    · rintro (isFull | eq | eq | ⟨i, eq⟩)
      · exact flag (inv.stored (.inl (full isFull)))
      all_goals rcases left with here | here | here | here | here <;> cases here.symm.trans eq
    · rintro (eq | eq | eq | eq | eq)
      all_goals rcases left with here | here | here | here | here <;> cases here.symm.trans eq
    · exact inv.received
  cases closing with
  | destroyFull here =>
      simp only [receiverStep, here, Option.some.injEq] at step
      subst step
      exact moved (by simp) ⟨rfl, rfl⟩ (.inl rfl)
  | destroyEmpty here =>
      simp only [receiverStep, here, Option.some.injEq] at step
      subst step
      exact moved id ⟨rfl, rfl⟩ (.inr (.inl rfl))
  | destroyMutex here =>
      simp only [receiverStep, here, Option.some.injEq] at step
      subst step
      exact moved id ⟨rfl, rfl⟩ (.inr (.inr (.inl rfl)))
  | done here =>
      rcases here with here | here | here
      · simp only [receiverStep, here, Option.some.injEq] at step
        subst step
        exact moved id ⟨rfl, rfl⟩ (.inr (.inr (.inr (.inl rfl))))
      · simp only [receiverStep, here, Option.some.injEq] at step
        subst step
        exact moved id ⟨rfl, rfl⟩ (.inr (.inr (.inr (.inr rfl))))
      · simp only [receiverStep, here] at step
        cases step

/-- Any step of the receiver. -/
theorem receiverMoves (stream : Stream texts) (phase : Phase texts s) (inv : FlagInv s)
    (step : receiverStep s = some s') : FlagInv s' := by
  have received := inv.received
  cases phase with
  | absent unlinked senderHere receiverHere =>
      simp only [receiverStep, receiverHere, unlinked, setupStep, Bool.false_eq_true,
        if_false, Option.map_some, Option.some.injEq] at step
      subst step
      exact of_setup senderHere rfl Making.shmat.not_full received
  | senderMakes linked senderHere making receiverHere waits =>
      simp only [receiverStep, receiverHere, Option.map_eq_some_iff] at step
      obtain ⟨⟨linked', box', next⟩, stepped, rfl⟩ := step
      rw [linked] at stepped
      obtain ⟨rfl, rfl, stillWaits | ⟨_, ready⟩⟩ := waits.step stepped
      · rw [Receiver.setupTo_of_waits stillWaits]
        exact of_setup senderHere rfl making.not_full received
      · exact absurd making.not_ready ready
  | receiverMakes linked receiverHere making senderHere waits untouched =>
      obtain ⟨box, next, stepped, moved⟩ := making.step
      simp only [receiverStep, receiverHere, linked, stepped, Option.map_some,
        Option.some.injEq] at step
      subst step
      rcases moved with stillMaking | ⟨rfl, rfl⟩
      · rw [Receiver.setupTo_of_making stillMaking]
        exact of_setup senderHere rfl stillMaking.not_full received
      · exact of_initialized (.setup senderHere waits untouched.todo) (.waitReady rfl) received
  | running linked _ slot => exact inv.slotReceiverMoves stream linked slot step
  | closing _ _ closing => exact inv.close closing step

end FlagInv

theorem flagInv_of_reachable {messages : List Message}
    (stream : Stream (messages.map Message.text)) (reachable : IpcReachable messages s) :
    FlagInv s := by
  have both : Phase (messages.map Message.text) s ∧ FlagInv s := by
    apply Pair.invariant (P := fun (s : State) =>
      Phase (messages.map Message.text) s ∧ FlagInv s) _ _ _ reachable
    · constructor
      · exact .absent rfl rfl rfl ⟨rfl, rfl⟩
      · apply FlagInv.of_setup rfl rfl
        · intro full
          cases full
        · intro message isMem
          cases isMem
    · rintro state next ⟨phase, inv⟩ step
      exact ⟨phase.senderMoves stream step, inv.senderMoves phase step⟩
    · rintro state next ⟨phase, inv⟩ step
      exact ⟨phase.receiverMoves stream step, inv.receiverMoves stream phase step⟩
  exact both.2

end NckuOs.Ipc
