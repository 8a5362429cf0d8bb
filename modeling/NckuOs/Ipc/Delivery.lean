import NckuOs.Ipc.Run

/-!
# What the mailbox delivers

The texts arrive complete and in order, the fields of the message are used by one
process at a time, semaphores are used only while they are initialised, and a run
ends only when both processes have.
-/

set_option maxRecDepth 4000

namespace NckuOs.Ipc

open NckuOs.Interleaving
open NckuOs.Transition

variable {texts : List (List UInt8)} {s s' : State}

/-! ## Accesses -/

/-- Only the three semaphores are waited for, posted to or destroyed. -/
theorem SetupPc.not_usesSem {pc : SetupPc} {access : Access} (next : pc.access = some access) :
    access.usesSem = false := by
  cases pc with
  | memset rest =>
      cases rest with
      | nil => cases next
      | cons field rest =>
          cases next
          rfl
  | initMutex | initEmpty | initFull | setReady | waitReady =>
      cases next
      rfl
  | shmgetExcl | shmget | shmat | done | failed => cases next

theorem Waits.not_isSlot {pc : SetupPc} {access : Access} (waits : Waits pc)
    (next : pc.access = some access) : access.isSlot = false := by
  cases waits with
  | shmgetExcl => cases next
  | shmget => cases next
  | shmat => cases next
  | waitReady =>
      cases next
      rfl

theorem SenderIdle.not_isSlot {sender : Sender} {access : Access} (idle : SenderIdle texts sender)
    (next : sender.access = some access) : access.isSlot = false := by
  cases idle with
  | setup here waits =>
      simp only [Sender.access, here] at next
      exact waits.not_isSlot next
  | waitReady here =>
      simp only [Sender.access, here] at next
      cases next
      rfl
  | waitEmpty here =>
      simp only [Sender.access, here] at next
      cases next
      rfl
  | done here =>
      rcases here with here | here
      all_goals
        simp only [Sender.access, here] at next
        cases next

theorem ReceiverIdle.not_isSlot {receiver : Receiver} {access : Access}
    (idle : ReceiverIdle receiver) (next : receiver.access = some access) :
    access.isSlot = false := by
  cases idle with
  | setup here waits =>
      simp only [Receiver.access, here] at next
      exact waits.not_isSlot next
  | waitReady here =>
      simp only [Receiver.access, here] at next
      cases next
      rfl
  | waitFull here =>
      simp only [Receiver.access, here] at next
      cases next
      rfl

/-- At every moment one of the processes is not at the slot. -/
theorem Phase.exclusive {first second : Access} (phase : Phase texts s)
    (senderNext : s.sender.access = some first) (receiverNext : s.receiver.access = some second) :
    first.isSlot = false ∨ second.isSlot = false := by
  cases phase with
  | absent _ senderHere =>
      simp only [Sender.access, senderHere] at senderNext
      cases senderNext
  | senderMakes _ _ _ receiverHere waits =>
      simp only [Receiver.access, receiverHere] at receiverNext
      exact .inr (waits.not_isSlot receiverNext)
  | receiverMakes _ _ _ senderHere waits =>
      simp only [Sender.access, senderHere] at senderNext
      exact .inl (waits.not_isSlot senderNext)
  | running _ _ slot =>
      cases slot with
      | free _ _ _ senderIdle => exact .inl (senderIdle.not_isSlot senderNext)
      | filling _ _ _ receiverIdle => exact .inr (receiverIdle.not_isSlot receiverNext)
      | full _ _ _ _ senderIdle => exact .inl (senderIdle.not_isSlot senderNext)
      | draining _ _ _ senderIdle => exact .inl (senderIdle.not_isSlot senderNext)
  | closing senderDone =>
      have idle : SenderIdle texts s.sender := .done senderDone
      exact .inl (idle.not_isSlot senderNext)

/-- While messages are exchanged the semaphores are initialised. -/
theorem Slot.semaphores (slot : Slot texts s.box s.sender s.receiver) :
    s.box.mutex ≠ none ∧ s.box.full ≠ none ∧ s.box.empty ≠ none := by
  cases slot with
  | free empty full mutex | full empty full mutex =>
      exact ⟨initialised_of_eq mutex, initialised_of_eq full, initialised_of_eq empty⟩
  | filling empty full filling =>
      refine ⟨?_, initialised_of_eq full, initialised_of_eq empty⟩
      cases filling with
      | waitMutex _ mutex => exact initialised_of_eq mutex
      | copy _ mutex => exact initialised_of_eq mutex
      | setLength _ mutex => exact initialised_of_eq mutex
      | setIsExit _ mutex => exact initialised_of_eq mutex
      | postMutex _ mutex => exact initialised_of_eq mutex
      | postFull _ mutex => exact initialised_of_eq mutex
  | draining empty full draining =>
      refine ⟨?_, initialised_of_eq full, initialised_of_eq empty⟩
      cases draining with
      | waitMutex _ mutex => exact initialised_of_eq mutex
      | readLength _ mutex => exact initialised_of_eq mutex
      | copy _ mutex => exact initialised_of_eq mutex
      | clear _ mutex => exact initialised_of_eq mutex
      | postEmpty _ mutex => exact initialised_of_eq mutex

/-- A field that is used as a semaphore. -/
def Field.IsSem (field : Field) : Prop :=
  field = .mutex ∨ field = .full ∨ field = .empty

theorem Sender.isSem_of_usesSem {sender : Sender} {access : Access}
    (next : sender.access = some access) (uses : access.usesSem = true) : access.field.IsSem := by
  unfold Sender.access at next
  cases here : sender.pc with
  | setup pc =>
      rw [here] at next
      rw [SetupPc.not_usesSem next] at uses
      cases uses
  | semWaitMutex | semPostMutex =>
      rw [here] at next
      cases next
      exact .inl rfl
  | semPostFull =>
      rw [here] at next
      cases next
      exact .inr (.inl rfl)
  | semWaitEmpty =>
      rw [here] at next
      cases next
      exact .inr (.inr rfl)
  | waitReady | copy | setLength | setIsExit =>
      rw [here] at next
      cases next
      exact absurd uses (by decide)
  | shmdt | finished =>
      rw [here] at next
      cases next

theorem Receiver.isSem_of_usesSem {receiver : Receiver} {access : Access}
    (next : receiver.access = some access) (uses : access.usesSem = true) :
    access.field.IsSem := by
  unfold Receiver.access at next
  cases here : receiver.pc with
  | setup pc =>
      rw [here] at next
      rw [SetupPc.not_usesSem next] at uses
      cases uses
  | semWaitMutex | semPostMutex | destroyMutex =>
      rw [here] at next
      cases next
      exact .inl rfl
  | semWaitFull | destroyFull =>
      rw [here] at next
      cases next
      exact .inr (.inl rfl)
  | semPostEmpty | destroyEmpty =>
      rw [here] at next
      cases next
      exact .inr (.inr rfl)
  | copy =>
      rw [here] at next
      cases next
      cases uses
  | waitReady | readLength | clearLength | clearIsExit | clearBuffer =>
      rw [here] at next
      cases next
      exact absurd uses (by decide)
  | shmdt | shmctl | finished =>
      rw [here] at next
      cases next

/-- An initialised semaphore in each of the fields. -/
theorem sem_ne_none {box : ShmMailbox} {field : Field} (isSem : field.IsSem)
    (semaphores : box.mutex ≠ none ∧ box.full ≠ none ∧ box.empty ≠ none) :
    box.sem field ≠ none := by
  obtain ⟨mutex, full, empty⟩ := semaphores
  rcases isSem with rfl | rfl | rfl
  · exact mutex
  · exact full
  · exact empty

/-- No process uses a semaphore that is not initialised. -/
theorem Phase.initialised {access : Access} (phase : Phase texts s)
    (next : s.sender.access = some access ∨ s.receiver.access = some access)
    (uses : access.usesSem = true) : s.box.sem access.field ≠ none := by
  have isSem : access.field.IsSem := by
    rcases next with next | next
    · exact Sender.isSem_of_usesSem next uses
    · exact Receiver.isSem_of_usesSem next uses
  have notSetup {pc : SetupPc} (here : pc.access = some access) : False := by
    rw [SetupPc.not_usesSem here] at uses
    cases uses
  cases phase with
  | absent _ senderHere receiverHere =>
      simp only [Sender.access, senderHere, Receiver.access, receiverHere, or_self] at next
      exact (notSetup next).elim
  | senderMakes _ senderHere _ receiverHere =>
      simp only [Sender.access, senderHere, Receiver.access, receiverHere] at next
      exact (next.elim notSetup notSetup).elim
  | receiverMakes _ receiverHere _ senderHere =>
      simp only [Sender.access, senderHere, Receiver.access, receiverHere] at next
      exact (next.elim notSetup notSetup).elim
  | running _ _ slot => exact sem_ne_none isSem slot.semaphores
  | closing senderDone _ closing =>
      have receiverNext : s.receiver.access = some access := by
        rcases next with next | next
        · unfold Sender.access at next
          rcases senderDone with here | here
          all_goals
            rw [here] at next
            cases next
        · exact next
      unfold Receiver.access at receiverNext
      cases closing with
      | destroyFull here full =>
          rw [here] at receiverNext
          cases receiverNext
          exact full
      | destroyEmpty here empty =>
          rw [here] at receiverNext
          cases receiverNext
          exact empty
      | destroyMutex here mutex =>
          rw [here] at receiverNext
          cases receiverNext
          exact mutex
      | done here =>
          rcases here with here | here | here
          all_goals
            rw [here] at receiverNext
            cases receiverNext

/-! ## The texts -/

/-- The texts received, at most one in the slot, and those not sent yet make up the
list. -/
theorem Phase.account (phase : Phase texts s) :
    ∃ inSlot, inSlot.length ≤ 1 ∧ s.receiver.texts ++ inSlot ++ s.sender.pending = texts := by
  have nothing {pc : SetupPc} (untouched : Untouched texts s) (here : s.sender.pc = .setup pc) :
      s.receiver.texts ++ [] ++ s.sender.pending = texts := by
    obtain ⟨none, all⟩ := untouched.pending here
    rw [none, all, List.append_nil, List.nil_append]
  cases phase with
  | absent _ senderHere _ untouched => exact ⟨[], Nat.zero_le _, nothing untouched senderHere⟩
  | senderMakes _ senderHere _ _ _ untouched =>
      exact ⟨[], Nat.zero_le _, nothing untouched senderHere⟩
  | receiverMakes _ _ _ senderHere _ untouched =>
      exact ⟨[], Nat.zero_le _, nothing untouched senderHere⟩
  | running _ _ slot =>
      cases slot with
      | free _ _ _ _ _ account => exact ⟨[], Nat.zero_le _, by rw [List.append_nil, account]⟩
      | filling _ _ _ _ account => exact ⟨[], Nat.zero_le _, by rw [List.append_nil, account]⟩
      | @full text _ _ _ _ _ _ account =>
          refine ⟨[text], Nat.le_refl 1, ?_⟩
          rw [List.append_assoc, List.singleton_append, account]
      | @draining text _ _ _ _ account =>
          refine ⟨[text], Nat.le_refl 1, ?_⟩
          rw [List.append_assoc, List.singleton_append, account]
  | closing senderDone all _ =>
      have none : s.sender.pending = [] := by
        unfold Sender.pending
        rcases senderDone with here | here
        all_goals rw [here]
      refine ⟨[], Nat.zero_le _, ?_⟩
      rw [none, all, List.append_nil, List.append_nil]

/-! ## The end of a run -/

/-- An idle sender is blocked only by a slot that is not empty, or at its end. -/
theorem SenderIdle.blocked (idle : SenderIdle texts s.sender) (linked : s.linked = true)
    (ready : s.box.ready ≠ 0) (empty : s.box.empty = some 1) (blocked : senderStep s = none) :
    s.sender.pc = .finished := by
  cases idle with
  | setup here waits =>
      simp only [senderStep, here, linked, Option.map_eq_none_iff] at blocked
      exact absurd blocked (waits.not_blocked ready)
  | waitReady here =>
      simp only [senderStep, here, if_pos ready] at blocked
      cases blocked
  | waitEmpty here =>
      simp only [senderStep, here, empty, semWait_succ, Option.map_some] at blocked
      cases blocked
  | done here =>
      rcases here with detaching | finished
      · simp only [senderStep, detaching] at blocked
        cases blocked
      · exact finished

/-- An idle receiver is blocked only by a slot that is not full. -/
theorem ReceiverIdle.not_blocked (idle : ReceiverIdle s.receiver) (linked : s.linked = true)
    (ready : s.box.ready ≠ 0) (full : s.box.full = some 1) : receiverStep s ≠ none := by
  intro blocked
  cases idle with
  | setup here waits =>
      simp only [receiverStep, here, linked, Option.map_eq_none_iff] at blocked
      exact absurd blocked (waits.not_blocked ready)
  | waitReady here =>
      simp only [receiverStep, here, if_pos ready] at blocked
      cases blocked
  | waitFull here =>
      simp only [receiverStep, here, full, semWait_succ, Option.map_some] at blocked
      cases blocked

/-- A sender that has the slot is not blocked. -/
theorem Filling.not_blocked (full : s.box.full = some 0) (filling : Filling s.box s.sender) :
    senderStep s ≠ none := by
  intro blocked
  cases filling with
  | waitMutex here mutex =>
      simp only [senderStep, here, mutex, semWait_succ, Option.map_some] at blocked
      cases blocked
  | copy here =>
      simp only [senderStep, here] at blocked
      split at blocked
      all_goals cases blocked
  | setLength here | setIsExit here =>
      simp only [senderStep, here] at blocked
      cases blocked
  | postMutex here mutex =>
      simp only [senderStep, here, mutex, semPost_some, Option.map_some] at blocked
      cases blocked
  | postFull here =>
      simp only [senderStep, here, full, semPost_some, Option.map_some] at blocked
      cases blocked

/-- A receiver that has the slot is not blocked. -/
theorem Draining.not_blocked {text : List UInt8} (empty : s.box.empty = some 0)
    (draining : Draining s.box s.receiver text) : receiverStep s ≠ none := by
  intro blocked
  cases draining with
  | waitMutex here mutex =>
      simp only [receiverStep, here, mutex, semWait_succ, Option.map_some] at blocked
      cases blocked
  | readLength here =>
      simp only [receiverStep, here] at blocked
      cases blocked
  | copy here =>
      simp only [receiverStep, here] at blocked
      split at blocked
      all_goals cases blocked
  | clear here mutex =>
      rcases here with here | here | here | here
      · simp only [receiverStep, here] at blocked
        cases blocked
      · simp only [receiverStep, here] at blocked
        cases blocked
      · simp only [receiverStep, here] at blocked
        cases blocked
      · simp only [receiverStep, here, mutex, semPost_some, Option.map_some] at blocked
        cases blocked
  | postEmpty here =>
      simp only [receiverStep, here, empty, semPost_some, Option.map_some] at blocked
      cases blocked

/-- A receiver that takes the segment away is blocked only at its end. -/
theorem Closing.blocked (closing : Closing s.box s.receiver) (blocked : receiverStep s = none) :
    s.receiver.pc = .finished := by
  cases closing with
  | destroyFull here | destroyEmpty here | destroyMutex here =>
      simp only [receiverStep, here] at blocked
      cases blocked
  | done here =>
      rcases here with here | here | here
      · simp only [receiverStep, here] at blocked
        cases blocked
      · simp only [receiverStep, here] at blocked
        cases blocked
      · exact here

/-- When neither process can step, both have finished and everything was
received. -/
theorem Phase.finished_of_stuck (stream : Stream texts) (phase : Phase texts s)
    (senderBlocked : senderStep s = none) (receiverBlocked : receiverStep s = none) :
    s.sender.pc = .finished ∧ s.receiver.pc = .finished ∧ s.receiver.texts = texts := by
  cases phase with
  | absent unlinked senderHere =>
      simp only [senderStep, senderHere, setupStep, unlinked] at senderBlocked
      cases senderBlocked
  | senderMakes linked senderHere making =>
      obtain ⟨_, _, stepped, _⟩ := making.step
      simp only [senderStep, senderHere, linked, stepped] at senderBlocked
      cases senderBlocked
  | receiverMakes linked receiverHere making =>
      obtain ⟨_, _, stepped, _⟩ := making.step
      simp only [receiverStep, receiverHere, linked, stepped] at receiverBlocked
      cases receiverBlocked
  | running linked ready slot notExited =>
      cases slot with
      | free empty _ _ senderIdle _ account =>
          -- The sender has sent everything, so the receiver has had the exit message.
          have finished := senderIdle.blocked linked ready empty senderBlocked
          have none : s.sender.pending = [] := by
            unfold Sender.pending
            rw [finished]
          obtain ⟨front, ends, _⟩ := stream.ends
          rw [none, List.append_nil, ends] at account
          rw [account] at notExited
          exact absurd (List.mem_append_right _ (List.mem_singleton.mpr rfl)) notExited
      | filling _ full filling => exact absurd senderBlocked (filling.not_blocked full)
      | full _ full _ _ _ receiverIdle =>
          exact absurd receiverBlocked (receiverIdle.not_blocked linked ready full)
      | draining empty _ draining => exact absurd receiverBlocked (draining.not_blocked empty)
  | closing senderDone all closing =>
      refine ⟨?_, closing.blocked receiverBlocked, all⟩
      rcases senderDone with here | here
      · simp only [senderStep, here] at senderBlocked
        cases senderBlocked
      · exact here

/-! ## The contract -/

/-- The messages of lines that fit have the lines as their texts. -/
theorem text_ofLines {lines : List (List UInt8)} (fits : ∀ line ∈ lines, Fits line) :
    (lines.map Message.ofLine).map Message.text = lines := by
  rw [List.map_map]
  calc
    lines.map (Message.text ∘ Message.ofLine) = lines.map id := by
      apply List.map_congr_left
      intro line isMem
      exact Message.text_ofLine (fits line isMem).noNul (fits line isMem).length
    _ = lines := List.map_id lines

/-- The sender sends lines without NUL of at most 1023 bytes, the exit message last
and only there.  Then at every moment of every run, whoever makes the segment:
what the receiver has obtained is a prefix of the lines, and with at most one text
in the slot and those not sent yet makes up all of them; a process that is about to
use a semaphore finds it initialised; the processes are not both about to access
the buffer, the length or the exit flag; and if neither can step, both have
finished and all lines were obtained. -/
theorem mailbox_delivers {lines front : List (List UInt8)}
    (fits : ∀ line ∈ lines, 0 ∉ line ∧ line.length ≤ 1023) (ends : lines = front ++ [exitMessage])
    (once : exitMessage ∉ front) (reachable : IpcReachable (lines.map Message.ofLine) s) :
    s.receiver.texts <+: lines ∧
      (∃ inSlot, inSlot.length ≤ 1 ∧ s.receiver.texts ++ inSlot ++ s.sender.pending = lines) ∧
      (∀ access, s.sender.access = some access ∨ s.receiver.access = some access →
        access.usesSem = true → s.box.sem access.field ≠ none) ∧
      (∀ first second, s.sender.access = some first → s.receiver.access = some second →
        ¬(first.isSlot = true ∧ second.isSlot = true)) ∧
      ((∀ side next, ¬(processes (lines.map Message.ofLine)).system.step s side next) →
        s.sender.pc = .finished ∧ s.receiver.pc = .finished ∧ s.receiver.texts = lines) := by
  have allFit : ∀ line ∈ lines, Fits line := by
    intro line isMem
    exact ⟨(fits line isMem).1, Nat.lt_succ_of_le (fits line isMem).2⟩
  have stream : Stream lines := ⟨allFit, front, ends, once⟩
  have phase : Phase lines s := by
    have texts := text_ofLines allFit
    have inPhase := phase_of_reachable (s := s) (by rw [texts]; exact stream) reachable
    rw [texts] at inPhase
    exact inPhase
  obtain ⟨inSlot, short, account⟩ := phase.account
  refine ⟨?_, ⟨inSlot, short, account⟩, ?_, ?_, ?_⟩
  · rw [List.append_assoc] at account
    exact ⟨_, account⟩
  · intro access next uses
    exact phase.initialised next uses
  · rintro first second senderNext receiverNext ⟨senderAt, receiverAt⟩
    rcases phase.exclusive senderNext receiverNext with notAt | notAt
    · rw [notAt] at senderAt
      cases senderAt
    · rw [notAt] at receiverAt
      cases receiverAt
  · intro noStep
    obtain ⟨senderBlocked, receiverBlocked⟩ := Pair.stuck_iff.mpr noStep
    exact phase.finished_of_stuck stream senderBlocked receiverBlocked

/-- The lines `hi` and the exit message. -/
def twoLines : List (List UInt8) :=
  [[104, 105], exitMessage]

/-- Both processes move by turns until neither can. -/
def turns : List Side :=
  (List.replicate 100 [.left, .right]).flatten

/-- The state that they come to. -/
def afterTurns : State :=
  (processes (twoLines.map Message.ofLine)).follow turns (startState (twoLines.map Message.ofLine))

/-- A run to its end obtains both lines. -/
theorem mailbox_delivers_twoLines : afterTurns.receiver.texts = twoLines := by
  have started : IpcReachable (twoLines.map Message.ofLine)
      (startState (twoLines.map Message.ofLine)) := .start rfl
  have reachable : IpcReachable (twoLines.map Message.ofLine) afterTurns :=
    Pair.reachable_follow turns started
  have senderBlocked : senderStep afterTurns = none := by
    apply Option.isNone_iff_eq_none.mp
    decide +kernel
  have receiverBlocked : receiverStep afterTurns = none := by
    apply Option.isNone_iff_eq_none.mp
    decide +kernel
  have fits : ∀ line ∈ twoLines, 0 ∉ line ∧ line.length ≤ 1023 := by decide +kernel
  have ends : twoLines = [[104, 105]] ++ [exitMessage] := rfl
  have once : exitMessage ∉ [[104, 105]] := by decide +kernel
  have contract := mailbox_delivers fits ends once reachable
  exact (contract.2.2.2.2 (Pair.stuck_iff.mp ⟨senderBlocked, receiverBlocked⟩)).2.2

end NckuOs.Ipc
