import NckuOs.Ipc.Preserved

/-!
# The phases of a run

Every run of the two processes, in whatever order they move and whichever of them
makes the segment, goes through the set-up, the exchange of messages and the removal
of the segment.
-/

namespace NckuOs.Ipc

open NckuOs.Interleaving
open NckuOs.Transition

variable {texts : List (List UInt8)} {s s' : State}

/-! ## Phases -/

theorem Untouched.pending {pc : SetupPc} (untouched : Untouched texts s)
    (here : s.sender.pc = .setup pc) : s.receiver.texts = [] ∧ s.sender.pending = texts := by
  constructor
  · rw [Receiver.texts, untouched.received, List.map_nil]
  · simp only [Sender.pending, here, untouched.todo]

/-- Once `ready` is set the slot is free. -/
theorem phase_of_initialized {sender : Sender} {receiver : Receiver}
    (senderIdle : SenderIdle texts sender) (receiverIdle : ReceiverIdle receiver)
    (account : receiver.texts = [] ∧ sender.pending = texts) :
    Phase texts ⟨true, .initialized, sender, receiver⟩ := by
  obtain ⟨none, all⟩ := account
  refine .running rfl Nat.one_ne_zero
    (.free rfl rfl rfl senderIdle receiverIdle ?_) ?_
  · rw [none, all, List.nil_append]
  · rw [none]
    exact List.not_mem_nil

theorem Phase.senderMoves (stream : Stream texts) (phase : Phase texts s)
    (step : senderStep s = some s') : Phase texts s' := by
  cases phase with
  | absent unlinked senderHere receiverHere untouched =>
      simp only [senderStep, senderHere, unlinked, setupStep, Bool.false_eq_true,
        if_false, Option.map_some, Option.some.injEq] at step
      subst step
      exact .senderMakes rfl rfl .shmat receiverHere .shmgetExcl
        ⟨untouched.todo, untouched.received⟩
  | senderMakes linked senderHere making receiverHere waits untouched =>
      obtain ⟨box, next, stepped, moved⟩ := making.step
      simp only [senderStep, senderHere, linked, stepped, Option.map_some,
        Option.some.injEq] at step
      subst step
      rcases moved with stillMaking | ⟨rfl, rfl⟩
      · rw [Sender.setupTo_of_making stillMaking]
        exact .senderMakes rfl rfl stillMaking receiverHere waits
          ⟨untouched.todo, untouched.received⟩
      · have received := (untouched.pending senderHere).1
        have pending := Sender.pending_nextSend.trans untouched.todo
        exact phase_of_initialized Sender.idle_nextSend (.setup receiverHere waits)
          ⟨received, pending⟩
  | receiverMakes linked receiverHere making senderHere waits untouched =>
      simp only [senderStep, senderHere, Option.map_eq_some_iff] at step
      obtain ⟨⟨linked', box', next⟩, stepped, rfl⟩ := step
      rw [linked] at stepped
      obtain ⟨rfl, rfl, stillWaits | ⟨_, ready⟩⟩ := waits.step stepped
      · rw [Sender.setupTo_of_waits stillWaits]
        exact .receiverMakes rfl receiverHere making rfl stillWaits
          ⟨untouched.todo, untouched.received⟩
      · exact absurd making.not_ready ready
  | running linked ready slot notExited =>
      obtain ⟨linked', sameReady, sameReceiver, slot'⟩ := slot.senderMoves stream linked step
      have ready' : s'.box.ready ≠ 0 := by
        rw [sameReady]
        exact ready
      have notExited' : exitMessage ∉ s'.receiver.texts := by
        rw [sameReceiver]
        exact notExited
      exact .running linked' ready' slot' notExited'
  | closing senderDone all closing =>
      rcases senderDone with detaching | finished
      · simp only [senderStep, detaching, Option.some.injEq] at step
        subst step
        exact .closing (.inr rfl) all closing
      · simp only [senderStep, finished] at step
        cases step

theorem Phase.receiverMoves (stream : Stream texts) (phase : Phase texts s)
    (step : receiverStep s = some s') : Phase texts s' := by
  cases phase with
  | absent unlinked senderHere receiverHere untouched =>
      simp only [receiverStep, receiverHere, unlinked, setupStep, Bool.false_eq_true,
        if_false, Option.map_some, Option.some.injEq] at step
      subst step
      exact .receiverMakes rfl rfl .shmat senderHere .shmgetExcl
        ⟨untouched.todo, untouched.received⟩
  | senderMakes linked senderHere making receiverHere waits untouched =>
      simp only [receiverStep, receiverHere, Option.map_eq_some_iff] at step
      obtain ⟨⟨linked', box', next⟩, stepped, rfl⟩ := step
      rw [linked] at stepped
      obtain ⟨rfl, rfl, stillWaits | ⟨_, ready⟩⟩ := waits.step stepped
      · rw [Receiver.setupTo_of_waits stillWaits]
        exact .senderMakes rfl senderHere making rfl stillWaits
          ⟨untouched.todo, untouched.received⟩
      · exact absurd making.not_ready ready
  | receiverMakes linked receiverHere making senderHere waits untouched =>
      obtain ⟨box, next, stepped, moved⟩ := making.step
      simp only [receiverStep, receiverHere, linked, stepped, Option.map_some,
        Option.some.injEq] at step
      subst step
      rcases moved with stillMaking | ⟨rfl, rfl⟩
      · rw [Receiver.setupTo_of_making stillMaking]
        exact .receiverMakes rfl rfl stillMaking senderHere waits
          ⟨untouched.todo, untouched.received⟩
      · exact phase_of_initialized (.setup senderHere waits untouched.todo) (.waitReady rfl)
          (untouched.pending senderHere)
  | running linked ready slot notExited =>
      exact slot.receiverMoves stream linked ready notExited step
  | closing senderDone all closing =>
      cases closing with
      | destroyFull here full empty mutex =>
          simp only [receiverStep, here, Option.some.injEq] at step
          subst step
          exact .closing senderDone all (.destroyEmpty rfl empty mutex)
      | destroyEmpty here empty mutex =>
          simp only [receiverStep, here, Option.some.injEq] at step
          subst step
          exact .closing senderDone all (.destroyMutex rfl mutex)
      | destroyMutex here mutex =>
          simp only [receiverStep, here, Option.some.injEq] at step
          subst step
          exact .closing senderDone all (.done (.inl rfl))
      | done here =>
          rcases here with here | here | here
          · simp only [receiverStep, here, Option.some.injEq] at step
            subst step
            exact .closing senderDone all (.done (.inr (.inl rfl)))
          · simp only [receiverStep, here, Option.some.injEq] at step
            subst step
            exact .closing senderDone all (.done (.inr (.inr rfl)))
          · simp only [receiverStep, here] at step
            cases step

/-- Every reachable state is in one of the phases. -/
theorem phase_of_reachable {messages : List Message}
    (stream : Stream (messages.map Message.text)) (reachable : IpcReachable messages s) :
    Phase (messages.map Message.text) s := by
  apply Pair.invariant (P := Phase (messages.map Message.text)) _ _ _ reachable
  · exact .absent rfl rfl rfl ⟨rfl, rfl⟩
  · intro state next phase step
    exact phase.senderMoves stream step
  · intro state next phase step
    exact phase.receiverMoves stream step

end NckuOs.Ipc
