import NckuOs.Ipc.Invariant

/-!
# One step of either process

An idle process leaves the slot as it is, the one that has the slot moves on to its
next access, and the semaphore operations at both ends hand the slot over.
-/

namespace NckuOs.Ipc

open NckuOs.ByteMemory

variable {texts : List (List UInt8)} {s s' : State}

/-! ## Leaving the set-up -/

namespace Sender

variable {sender : Sender}

theorem setupTo_of_waits {next : SetupPc} (waits : Waits next) :
    sender.setupTo next = sender.goto (.setup next) := by
  cases waits <;> rfl

theorem setupTo_of_making {box : ShmMailbox} {next : SetupPc} (making : Making box next) :
    sender.setupTo next = sender.goto (.setup next) := by
  cases making <;> rfl

theorem pending_nextSend : sender.nextSend.pending = sender.todo.map Message.text := by
  unfold nextSend
  cases sender.todo with
  | nil => rfl
  | cons message rest => rfl

theorem idle_nextSend : SenderIdle texts sender.nextSend := by
  unfold nextSend
  cases sender.todo with
  | nil => exact .done (.inl rfl)
  | cons message rest => exact .waitReady rfl

end Sender

namespace Receiver

variable {receiver : Receiver}

theorem setupTo_of_waits {next : SetupPc} (waits : Waits next) :
    receiver.setupTo next = receiver.goto (.setup next) := by
  cases waits <;> rfl

theorem setupTo_of_making {box : ShmMailbox} {next : SetupPc} (making : Making box next) :
    receiver.setupTo next = receiver.goto (.setup next) := by
  cases making <;> rfl

end Receiver

/-! ## Idle processes -/

/-- An idle sender that does not wait for the slot changes nothing but itself. -/
theorem SenderIdle.step (idle : SenderIdle texts s.sender) (linked : s.linked = true)
    (notWaiting : s.sender.pc ≠ .semWaitEmpty) (step : senderStep s = some s') :
    ∃ sender, s' = { s with sender := sender } ∧ SenderIdle texts sender ∧
      sender.pending = s.sender.pending := by
  cases idle with
  | setup here waits all =>
      simp only [senderStep, here, Option.map_eq_some_iff] at step
      obtain ⟨⟨linked', box', next⟩, stepped, rfl⟩ := step
      rw [linked] at stepped
      obtain ⟨rfl, rfl, moved⟩ := waits.step stepped
      have pending : s.sender.pending = s.sender.todo.map Message.text := by
        simp only [Sender.pending, here]
      refine ⟨s.sender.setupTo next, by rw [← linked], ?_⟩
      rcases moved with stillWaits | ⟨rfl, _⟩
      · rw [Sender.setupTo_of_waits stillWaits, pending]
        exact ⟨.setup rfl stillWaits all, rfl⟩
      · rw [pending]
        exact ⟨Sender.idle_nextSend, Sender.pending_nextSend⟩
  | waitReady here =>
      simp only [senderStep, here] at step
      split at step
      case isTrue =>
        cases step
        refine ⟨_, rfl, .waitEmpty rfl, ?_⟩
        simp only [Sender.pending, Sender.goto, here]
      case isFalse => cases step
  | waitEmpty here => exact absurd here notWaiting
  | done here =>
      rcases here with detaching | finished
      · simp only [senderStep, detaching] at step
        cases step
        refine ⟨_, rfl, .done (.inr rfl), ?_⟩
        simp only [Sender.pending, Sender.goto, detaching]
      · simp only [senderStep, finished] at step
        cases step

/-- An idle receiver that does not wait for a text changes nothing but itself. -/
theorem ReceiverIdle.step (idle : ReceiverIdle s.receiver) (linked : s.linked = true)
    (notWaiting : s.receiver.pc ≠ .semWaitFull) (step : receiverStep s = some s') :
    ∃ receiver, s' = { s with receiver := receiver } ∧ ReceiverIdle receiver ∧
      receiver.texts = s.receiver.texts := by
  cases idle with
  | setup here waits =>
      simp only [receiverStep, here, Option.map_eq_some_iff] at step
      obtain ⟨⟨linked', box', next⟩, stepped, rfl⟩ := step
      rw [linked] at stepped
      obtain ⟨rfl, rfl, moved⟩ := waits.step stepped
      refine ⟨s.receiver.setupTo next, by rw [← linked], ?_⟩
      rcases moved with stillWaits | ⟨rfl, _⟩
      · rw [Receiver.setupTo_of_waits stillWaits]
        exact ⟨.setup rfl stillWaits, rfl⟩
      · exact ⟨.waitReady rfl, rfl⟩
  | waitReady here =>
      simp only [receiverStep, here] at step
      split at step
      case isTrue =>
        cases step
        exact ⟨_, rfl, .waitFull rfl, rfl⟩
      case isFalse => cases step
  | waitFull here => exact absurd here notWaiting

/-! ## The process that has the slot -/

/-- A copied text with a NUL stored behind it. -/
theorem Spells.cstr_terminated {mem : Mem} {text : List UInt8} (fits : Fits text)
    (bytes : Spells mem text text.length) :
    cstr (store mem text.length 1 fun _ => 0) 0 textSize = text := by
  have nul : store mem text.length 1 (fun _ => 0) text.length = 0 :=
    store_of_mem (Nat.le_refl _) (Nat.lt_add_of_pos_right Nat.one_pos)
  exact (bytes.store_behind (Nat.le_refl _)).cstr_eq fits.noNul fits.length nul

/-- What one step inside `send` or `receive` leaves alone. -/
structure SameCounts (box box' : ShmMailbox) : Prop where
  ready : box'.ready = box.ready
  empty : box'.empty = box.empty
  full : box'.full = box.full

/-- One step of the sender between its two semaphores. -/
theorem Filling.step (filling : Filling s.box s.sender) (fits : Fits s.sender.message.text)
    (notLast : s.sender.pc ≠ .semPostFull) (step : senderStep s = some s') :
    ∃ box sender, s' = { s with box := box, sender := sender } ∧ Filling box sender ∧
      SameCounts s.box box ∧ sender.message = s.sender.message ∧
        sender.todo = s.sender.todo := by
  have size := payloadSize_eq fits
  cases filling with
  | waitMutex here mutex =>
      simp only [senderStep, here, mutex, semWait_succ, Option.map_some, Option.some.injEq] at step
      subst step
      exact ⟨_, _, rfl, .copy rfl rfl (Nat.zero_le _) .zero, ⟨rfl, rfl, rfl⟩, rfl, rfl⟩
  | @copy i here mutex inside bytes =>
      simp only [senderStep, here, size] at step
      by_cases more : i < s.sender.message.text.length
      · rw [if_pos more, Option.some.injEq] at step
        subst step
        have next := Message.spells_text fits.length i more
        exact ⟨_, _, rfl, .copy rfl mutex more (bytes.snoc next), ⟨rfl, rfl, rfl⟩, rfl, rfl⟩
      · rw [if_neg more, Option.some.injEq] at step
        subst step
        obtain rfl : i = s.sender.message.text.length := by omega
        exact ⟨_, _, rfl, .setLength rfl mutex (bytes.store_behind (Nat.le_refl _)),
          ⟨rfl, rfl, rfl⟩, rfl, rfl⟩
  | setLength here mutex bytes =>
      simp only [senderStep, here, size, Option.some.injEq] at step
      subst step
      exact ⟨_, _, rfl, .setIsExit rfl mutex ⟨bytes, rfl⟩, ⟨rfl, rfl, rfl⟩, rfl, rfl⟩
  | setIsExit here mutex holds =>
      simp only [senderStep, here, Option.some.injEq] at step
      subst step
      exact ⟨_, _, rfl, .postMutex rfl mutex ⟨holds.bytes, holds.length⟩, ⟨rfl, rfl, rfl⟩, rfl, rfl⟩
  | postMutex here mutex holds =>
      simp only [senderStep, here, mutex, semPost_some, Option.map_some, Option.some.injEq] at step
      subst step
      exact ⟨_, _, rfl, .postFull rfl rfl ⟨holds.bytes, holds.length⟩, ⟨rfl, rfl, rfl⟩, rfl, rfl⟩
  | postFull here => exact absurd here notLast

/-- One step of the receiver between its two semaphores. -/
theorem Draining.step {text : List UInt8} (draining : Draining s.box s.receiver text)
    (fits : Fits text) (notLast : s.receiver.pc ≠ .semPostEmpty)
    (step : receiverStep s = some s') :
    ∃ box receiver, s' = { s with box := box, receiver := receiver } ∧
      Draining box receiver text ∧ SameCounts s.box box ∧ receiver.texts = s.receiver.texts := by
  cases draining with
  | waitMutex here mutex holds =>
      simp only [receiverStep, here, mutex, semWait_succ, Option.map_some,
        Option.some.injEq] at step
      subst step
      have holds' : Holds { s.box with mutex := some 0 } text := ⟨holds.bytes, holds.length⟩
      exact ⟨_, _, rfl, .readLength rfl rfl holds', ⟨rfl, rfl, rfl⟩, rfl⟩
  | readLength here mutex holds =>
      have short : ¬s.box.length ≥ textSize := by
        rw [holds.length]
        exact Nat.not_le.mpr fits.length
      simp only [receiverStep, here, if_neg short, Option.some.injEq] at step
      subst step
      exact ⟨s.box, _, rfl, .copy rfl mutex holds holds.length (Nat.zero_le _) .zero,
        ⟨rfl, rfl, rfl⟩, rfl⟩
  | @copy i here mutex holds length inside bytes =>
      simp only [receiverStep, here, length] at step
      by_cases more : i < text.length
      · rw [if_pos more, Option.some.injEq] at step
        subst step
        exact ⟨s.box, _, rfl, .copy rfl mutex holds rfl more (bytes.snoc (holds.bytes i more)),
          ⟨rfl, rfl, rfl⟩, rfl⟩
      · rw [if_neg more, Option.some.injEq] at step
        subst step
        obtain rfl : i = text.length := by omega
        exact ⟨s.box, _, rfl, .clear (.inl rfl) mutex (bytes.cstr_terminated fits),
          ⟨rfl, rfl, rfl⟩, rfl⟩
  | clear here mutex copied =>
      rcases here with here | here | here | here
      · simp only [receiverStep, here, Option.some.injEq] at step
        subst step
        exact ⟨_, _, rfl, .clear (.inr (.inl rfl)) mutex copied, ⟨rfl, rfl, rfl⟩, rfl⟩
      · simp only [receiverStep, here, Option.some.injEq] at step
        subst step
        exact ⟨_, _, rfl, .clear (.inr (.inr (.inl rfl))) mutex copied, ⟨rfl, rfl, rfl⟩, rfl⟩
      · simp only [receiverStep, here, Option.some.injEq] at step
        subst step
        exact ⟨_, _, rfl, .clear (.inr (.inr (.inr rfl))) mutex copied, ⟨rfl, rfl, rfl⟩, rfl⟩
      · simp only [receiverStep, here, mutex, semPost_some, Option.map_some,
          Option.some.injEq] at step
        subst step
        exact ⟨_, _, rfl, .postEmpty rfl rfl copied, ⟨rfl, rfl, rfl⟩, rfl⟩
  | postEmpty here => exact absurd here notLast

/-! ## The slot changes hands -/

namespace Stream

theorem fits_of_account {front rest : List (List UInt8)} {text : List UInt8}
    (stream : Stream texts) (account : front ++ text :: rest = texts) : Fits text := by
  apply stream.fits
  rw [← account]
  exact List.mem_append_right _ List.mem_cons_self

/-- Nothing follows the exit message. -/
theorem rest_eq_nil {front rest : List (List UInt8)} (stream : Stream texts)
    (account : front ++ exitMessage :: rest = texts) : rest = [] := by
  obtain ⟨before, ends, once⟩ := stream.ends
  rcases List.eq_nil_or_concat rest with none | ⟨init, last, rfl⟩
  · exact none
  · rw [ends, List.concat_eq_append, ← List.cons_append, ← List.append_assoc] at account
    have isMem : exitMessage ∈ before := by
      rw [← (List.append_inj' account rfl).1]
      exact List.mem_append_right _ List.mem_cons_self
    exact absurd isMem once

end Stream

/-- The message of a sender in `send` is the first that is pending. -/
theorem Filling.pending_eq {box : ShmMailbox} {sender : Sender} (filling : Filling box sender) :
    sender.pending = sender.message.text :: sender.todo.map Message.text := by
  cases filling with
  | waitMutex here => simp only [Sender.pending, here]
  | copy here => simp only [Sender.pending, here]
  | setLength here => simp only [Sender.pending, here]
  | setIsExit here => simp only [Sender.pending, here]
  | postMutex here => simp only [Sender.pending, here]
  | postFull here => simp only [Sender.pending, here]

/-- A sender about to post `full` has left the critical section. -/
theorem Filling.of_postFull {box : ShmMailbox} {sender : Sender} (filling : Filling box sender)
    (last : sender.pc = .semPostFull) : box.mutex = some 1 ∧ Holds box sender.message.text := by
  cases filling with
  | postFull _ mutex holds => exact ⟨mutex, holds⟩
  | waitMutex here => cases here.symm.trans last
  | copy here => cases here.symm.trans last
  | setLength here => cases here.symm.trans last
  | setIsExit here => cases here.symm.trans last
  | postMutex here => cases here.symm.trans last

/-- A receiver about to post `empty` has left the critical section. -/
theorem Draining.of_postEmpty {box : ShmMailbox} {receiver : Receiver} {text : List UInt8}
    (draining : Draining box receiver text) (last : receiver.pc = .semPostEmpty) :
    box.mutex = some 1 ∧ receiver.message.text = text := by
  cases draining with
  | postEmpty _ mutex copied => exact ⟨mutex, copied⟩
  | waitMutex here => cases here.symm.trans last
  | readLength here => cases here.symm.trans last
  | copy here => cases here.symm.trans last
  | clear here =>
      rcases here with here | here | here | here
      all_goals cases here.symm.trans last

theorem senderStep_of_not_empty (empty : s.box.empty = some 0) (step : senderStep s = some s') :
    s.sender.pc ≠ .semWaitEmpty := by
  intro waiting
  simp only [senderStep, waiting, empty, semWait_zero, Option.map_none] at step
  cases step

theorem receiverStep_of_not_full (full : s.box.full = some 0) (step : receiverStep s = some s') :
    s.receiver.pc ≠ .semWaitFull := by
  intro waiting
  simp only [receiverStep, waiting, full, semWait_zero, Option.map_none] at step
  cases step

/-- One step of the sender while messages are exchanged. -/
theorem Slot.senderMoves (stream : Stream texts) (linked : s.linked = true)
    (slot : Slot texts s.box s.sender s.receiver) (step : senderStep s = some s') :
    s'.linked = true ∧ s'.box.ready = s.box.ready ∧ s'.receiver = s.receiver ∧
      Slot texts s'.box s'.sender s'.receiver := by
  cases slot with
  | free empty full mutex senderIdle receiverIdle account =>
      by_cases waiting : s.sender.pc = .semWaitEmpty
      · simp only [senderStep, waiting, empty, semWait_succ, Option.map_some,
          Option.some.injEq] at step
        subst step
        refine ⟨linked, rfl, rfl, .filling rfl full (.waitMutex rfl mutex) receiverIdle ?_⟩
        rw [← account]
        simp only [Sender.pending, Sender.goto, waiting]
      · obtain ⟨sender, rfl, idle, pending⟩ := senderIdle.step linked waiting step
        refine ⟨linked, rfl, rfl, .free empty full mutex idle receiverIdle ?_⟩
        rw [pending, account]
  | filling empty full filling receiverIdle account =>
      rw [filling.pending_eq] at account
      by_cases last : s.sender.pc = .semPostFull
      · obtain ⟨mutex, holds⟩ := filling.of_postFull last
        simp only [senderStep, last, full, semPost_some, Option.map_some, Option.some.injEq] at step
        subst step
        have holds' : Holds { s.box with full := some 1 } s.sender.message.text :=
          ⟨holds.bytes, holds.length⟩
        refine ⟨linked, rfl, rfl,
          .full empty rfl mutex holds' Sender.idle_nextSend receiverIdle ?_⟩
        rw [Sender.pending_nextSend, account]
      · have fits := stream.fits_of_account account
        obtain ⟨box, sender, rfl, filling', same, message, todo⟩ := filling.step fits last step
        refine ⟨linked, same.ready, rfl,
          .filling (same.empty.trans empty) (same.full.trans full) filling' receiverIdle ?_⟩
        rw [filling'.pending_eq, message, todo, account]
  | full empty full mutex holds senderIdle receiverIdle account =>
      have notWaiting := senderStep_of_not_empty empty step
      obtain ⟨sender, rfl, idle, pending⟩ := senderIdle.step linked notWaiting step
      refine ⟨linked, rfl, rfl, .full empty full mutex holds idle receiverIdle ?_⟩
      rw [pending, account]
  | draining empty full draining senderIdle account =>
      have notWaiting := senderStep_of_not_empty empty step
      obtain ⟨sender, rfl, idle, pending⟩ := senderIdle.step linked notWaiting step
      refine ⟨linked, rfl, rfl, .draining empty full draining idle ?_⟩
      rw [pending, account]

/-- An idle sender with nothing left to send has left its loop. -/
theorem SenderIdle.done_of_pending {sender : Sender} (stream : Stream texts)
    (idle : SenderIdle texts sender) (none : sender.pending = []) :
    sender.pc = .shmdt ∨ sender.pc = .finished := by
  cases idle with
  | setup here _ all =>
      simp only [Sender.pending, here, all] at none
      obtain ⟨front, ends, _⟩ := stream.ends
      rw [none] at ends
      exact absurd ends.symm (List.append_ne_nil_of_right_ne_nil _ (List.cons_ne_nil _ _))
  | waitReady here =>
      simp only [Sender.pending, here] at none
      cases none
  | waitEmpty here =>
      simp only [Sender.pending, here] at none
      cases none
  | done here => exact here

/-- One step of the receiver while messages are exchanged: the exchange goes on, or
it has received the last message. -/
theorem Slot.receiverMoves (stream : Stream texts) (linked : s.linked = true)
    (ready : s.box.ready ≠ 0) (notExited : exitMessage ∉ s.receiver.texts)
    (slot : Slot texts s.box s.sender s.receiver) (step : receiverStep s = some s') :
    Phase texts s' := by
  cases slot with
  | free empty full mutex senderIdle receiverIdle account =>
      have notWaiting := receiverStep_of_not_full full step
      obtain ⟨receiver, rfl, idle, same⟩ := receiverIdle.step linked notWaiting step
      rw [← same] at account notExited
      exact .running linked ready (.free empty full mutex senderIdle idle account) notExited
  | filling empty full filling receiverIdle account =>
      have notWaiting := receiverStep_of_not_full full step
      obtain ⟨receiver, rfl, idle, same⟩ := receiverIdle.step linked notWaiting step
      rw [← same] at account notExited
      exact .running linked ready (.filling empty full filling idle account) notExited
  | @full text empty full mutex holds senderIdle receiverIdle account =>
      by_cases waiting : s.receiver.pc = .semWaitFull
      · simp only [receiverStep, waiting, full, semWait_succ, Option.map_some,
          Option.some.injEq] at step
        subst step
        have draining :
            Draining { s.box with full := some 0 } (s.receiver.goto .semWaitMutex) text :=
          .waitMutex rfl mutex ⟨holds.bytes, holds.length⟩
        exact .running linked ready (.draining empty rfl draining senderIdle account) notExited
      · obtain ⟨receiver, rfl, idle, same⟩ := receiverIdle.step linked waiting step
        rw [← same] at account notExited
        exact .running linked ready (.full empty full mutex holds senderIdle idle account) notExited
  | @draining text empty full draining senderIdle account =>
      by_cases last : s.receiver.pc = .semPostEmpty
      · obtain ⟨mutex, copied⟩ := draining.of_postEmpty last
        simp only [receiverStep, last, empty, semPost_some, Option.map_some,
          Option.some.injEq] at step
        subst step
        have received : s.receiver.nextReceive.texts = s.receiver.texts ++ [text] := by
          simp only [Receiver.texts, Receiver.nextReceive, List.map_append, List.map_cons,
            List.map_nil, copied]
        by_cases isLast : text = exitMessage
        · subst isLast
          have isExit : s.receiver.message.isExit = true := decide_eq_true copied
          have noMore := stream.rest_eq_nil account
          rw [noMore, ← received] at account
          exact .closing (senderIdle.done_of_pending stream noMore) account
            (.destroyFull (if_pos isExit) (initialised_of_eq full) (initialised_of_eq rfl)
              (initialised_of_eq mutex))
        · have notExit : ¬s.receiver.message.isExit = true := by
            intro isExit
            exact isLast (copied.symm.trans (of_decide_eq_true isExit))
          have account' : s.receiver.nextReceive.texts ++ s.sender.pending = texts := by
            rw [received, ← account, List.append_assoc, List.singleton_append]
          have idle : ReceiverIdle s.receiver.nextReceive := .waitReady (if_neg notExit)
          have notExited' : exitMessage ∉ s.receiver.nextReceive.texts := by
            rw [received]
            intro isMem
            rcases List.mem_append.mp isMem with old | isNew
            · exact notExited old
            · exact isLast (List.mem_singleton.mp isNew).symm
          exact .running linked ready (.free rfl full mutex senderIdle idle account') notExited'
      · have fits := stream.fits_of_account account
        obtain ⟨box, receiver, rfl, draining, counts, same⟩ := draining.step fits last step
        rw [← same] at account notExited
        have ready' : box.ready ≠ 0 := by
          rw [counts.ready]
          exact ready
        exact .running linked ready' (.draining (counts.empty.trans empty)
          (counts.full.trans full) draining senderIdle account) notExited

end NckuOs.Ipc
