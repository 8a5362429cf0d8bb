import NckuOs.Ipc.Parties

/-!
# What many senders and receivers share

From the set-up on until a receiver has seen an exit message, whoever runs: the mailbox carries
the texts as a channel does, its fields are used by one party at a time, and no run ends before
that.
-/

namespace NckuOs.Ipc.Parties

open NckuOs.Channels
open NckuOs.Threads
open NckuOs.Transition

/-! ## The set-up -/

namespace Party

variable {segment segment' : Segment} {party party' : Party} {pc next : SetupPc}

/-- The party at the next place of the set-up, or behind it. -/
def setupTo (next : SetupPc) : Party → Party
  | .sender process => .sender (process.setupTo next)
  | .receiver process => .receiver (process.setupTo next)

theorem step_of_inSetup (here : party.InSetup pc)
    (step : party.step segment = some (segment', party')) :
    ∃ next, setupStep segment.linked segment.box pc = some (segment'.linked, segment'.box, next) ∧
      party' = party.setupTo next := by
  cases party with
  | sender process =>
      have here : process.pc = .setup pc := here
      rcases Option.map_eq_some_iff.mp step with ⟨s, moved, result⟩
      simp only [senderStep, here] at moved
      rcases Option.map_eq_some_iff.mp moved with ⟨⟨linked, box, next⟩, stepped, rfl⟩
      cases result
      exact ⟨next, stepped, rfl⟩
  | receiver process =>
      have here : process.pc = .setup pc := here
      rcases Option.map_eq_some_iff.mp step with ⟨s, moved, result⟩
      simp only [receiverStep, here] at moved
      rcases Option.map_eq_some_iff.mp moved with ⟨⟨linked, box, next⟩, stepped, rfl⟩
      cases result
      exact ⟨next, stepped, rfl⟩

theorem step_ne_none (here : party.InSetup pc)
    (goes : setupStep segment.linked segment.box pc ≠ none) : party.step segment ≠ none := by
  cases party with
  | sender process =>
      have here : process.pc = .setup pc := here
      simpa only [step, senderStep, here, ne_eq, Option.map_eq_none_iff] using goes
  | receiver process =>
      have here : process.pc = .setup pc := here
      simpa only [step, receiverStep, here, ne_eq, Option.map_eq_none_iff] using goes

theorem inSetup_of_waits (waits : Waits next) (party : Party) :
    (party.setupTo next).InSetup next := by
  cases party with
  | sender process => exact congrArg Sender.pc (Sender.setupTo_of_waits waits)
  | receiver process => exact congrArg Receiver.pc (Receiver.setupTo_of_waits waits)

theorem inSetup_of_making {box : ShmMailbox} (making : Making box next) (party : Party) :
    (party.setupTo next).InSetup next := by
  cases party with
  | sender process => exact congrArg Sender.pc (Sender.setupTo_of_making making)
  | receiver process => exact congrArg Receiver.pc (Receiver.setupTo_of_making making)

theorem idle_of_done (party : Party) : (party.setupTo .done).Idle := by
  cases party with
  | sender process => exact .sender Sender.idle_nextSend
  | receiver process => exact .receiver (.waitReady rfl)

/-- Nothing is sent or received on the way. -/
theorem pending_setupTo (here : party.InSetup pc) (next : SetupPc) :
    (party.setupTo next).pending = party.pending := by
  cases party with
  | sender process =>
      have here : process.pc = .setup pc := here
      have before : process.pending = process.todo.map Message.text := by
        simp only [Sender.pending, here]
      change (process.setupTo next).pending = process.pending
      rw [before]
      cases next with
      | done => exact Sender.pending_nextSend
      | shmgetExcl | shmget | shmat | memset | initMutex | initEmpty | initFull | setReady
      | waitReady | failed => rfl
  | receiver process => rfl

theorem received_setupTo (party : Party) (next : SetupPc) :
    (party.setupTo next).received = party.received := by
  cases party with
  | sender process => rfl
  | receiver process =>
      cases next with
      | done | shmgetExcl | shmget | shmat | memset | initMutex | initEmpty | initFull | setReady
      | waitReady | failed => rfl

end Party

variable {ι : Type} [DecidableEq ι] {roles : ι → Option (List UInt8)}
  {config : Config ι Segment Party} {channel : Channel ι (List UInt8)} {i : ι}
  {segment' : Segment} {party' : Party}

theorem Accounts.setupTo {pc : SetupPc} (accounts : Accounts roles config channel)
    (here : (config.thread i).InSetup pc) (next : SetupPc) :
    Accounts roles (config.after i (segment', (config.thread i).setupTo next)) channel :=
  accounts.same (Party.pending_setupTo here next) (Party.received_setupTo _ next)

omit [DecidableEq ι] in
/-- Once `ready` is set the slot is free. -/
theorem phase_of_initialized {config : Config ι Segment Party}
    (shared : config.shared = ⟨true, .initialized⟩) (idle : ∀ i, (config.thread i).Idle) :
    Phase config (.empty : Channel ι (List UInt8)) := by
  rcases config with ⟨segment, thread⟩
  cases shared
  exact .running rfl Nat.one_ne_zero (.free rfl rfl rfl idle rfl)

/-! ## One step of any party -/

/-- Either the party leaves its loop, or the mailbox goes on as a channel. -/
theorem Phase.moved (phase : Phase config channel) (accounts : Accounts roles config channel)
    (step : (config.thread i).step config.shared = some (segment', party')) :
    party'.HasLeft ∨ ∃ channel',
      (channel' = channel ∨ Channel.Step OneAtATime channel i channel') ∧
        Phase (config.after i (segment', party')) channel' ∧
          Accounts roles (config.after i (segment', party')) channel' := by
  cases phase with
  | absent unlinked here new =>
      right
      rcases Party.step_of_inSetup (here i) step with ⟨next, stepped, rfl⟩
      rw [unlinked] at stepped
      rcases segment' with ⟨linked, box⟩
      cases stepped
      refine ⟨channel, .inl rfl, ?_, accounts.setupTo (here i) _⟩
      apply Phase.making (i := i) rfl
      · rw [Config.after_self]
        exact Party.inSetup_of_making .shmat _
      · exact .shmat
      · intro j ne
        rw [Config.after_of_ne ne]
        exact ⟨_, here j, .shmgetExcl⟩
      · exact new
  | @making k pc linked here making others new =>
      right
      by_cases isOwn : i = k
      · subst isOwn
        rcases Party.step_of_inSetup here step with ⟨next, stepped, rfl⟩
        rcases making.step with ⟨box, next', goes, moved⟩
        rw [linked, goes] at stepped
        rcases segment' with ⟨linked', box'⟩
        cases stepped
        refine ⟨channel, .inl rfl, ?_, accounts.setupTo here _⟩
        rcases moved with making' | ⟨rfl, rfl⟩
        · apply Phase.making (i := i) rfl
          · rw [Config.after_self]
            exact Party.inSetup_of_making making' _
          · exact making'
          · intro j ne
            rw [Config.after_of_ne ne]
            exact others j ne
          · exact new
        · subst new
          exact phase_of_initialized rfl (idle_after (Party.idle_of_done _) fun j ne =>
            (others j ne).idle)
      · rcases others i isOwn with ⟨pc', here', waits⟩
        rcases Party.step_of_inSetup here' step with ⟨next, stepped, rfl⟩
        rw [linked] at stepped
        rcases waits.step stepped with ⟨linked', sameBox, stillWaits | ⟨_, ready⟩⟩
        · refine ⟨channel, .inl rfl, ?_, accounts.setupTo here' _⟩
          apply Phase.making (i := k) linked'
          · rw [Config.after_of_ne (Ne.symm isOwn)]
            exact here
          · rw [Config.after_shared, sameBox]
            exact making
          · intro j ne
            by_cases isMoved : j = i
            · subst isMoved
              rw [Config.after_self]
              exact ⟨next, Party.inSetup_of_waits stillWaits _, stillWaits⟩
            · rw [Config.after_of_ne isMoved]
              exact others j ne
          · exact new
        · exact absurd making.not_ready ready
  | running linked ready slot =>
      refine (slot.moved linked accounts step).imp_right ?_
      rintro ⟨channel', moved⟩
      refine ⟨channel', moved.step, .running moved.linked ?_ moved.slot, moved.accounts⟩
      rw [Config.after_shared, moved.ready]
      exact ready

theorem Party.hasLeft_step {party party' : Party} {segment segment' : Segment}
    (left : party.HasLeft) (step : party.step segment = some (segment', party')) :
    party'.HasLeft := by
  cases party with
  | sender process => exact left.elim
  | receiver process =>
      rcases Option.map_eq_some_iff.mp step with ⟨s, moved, result⟩
      cases result
      refine Ipc.hasLeft_step ?_ moved
      exact left

/-- Until a receiver leaves its loop the mailbox is a channel. -/
theorem channel_of_reachable (reachable : Reachable (program roles).system config) :
    (∃ i, (config.thread i).HasLeft) ∨
      ∃ channel, Reachable (Channel.system OneAtATime) channel ∧ Phase config channel ∧
        Accounts roles config channel := by
  apply reachable.invariant (P := fun config => (∃ i, (config.thread i).HasLeft) ∨
    ∃ channel, Reachable (Channel.system OneAtATime) channel ∧ Phase config channel ∧
      Accounts roles config channel)
  · rintro config ⟨shared, threads⟩
    right
    refine ⟨.empty, .start rfl, ?_, ?_⟩
    · apply Phase.absent
      · rw [shared]
      · intro i
        rw [threads]
        cases roles i <;> rfl
      · rfl
    · apply Parts.empty
      · intro i
        rw [threads]
        cases roles i <;> rfl
      · intro i
        rw [threads]
        cases roles i <;> rfl
  · rintro config i _ soFar ⟨⟨segment', party'⟩, step, rfl⟩
    rcases soFar with ⟨j, left⟩ | ⟨channel, reached, phase, accounts⟩
    · left
      by_cases isOwn : j = i
      · subst isOwn
        refine ⟨j, ?_⟩
        rw [Config.after_self]
        exact Party.hasLeft_step left step
      · refine ⟨j, ?_⟩
        rw [Config.after_of_ne isOwn]
        exact left
    · rcases phase.moved accounts step with left | ⟨channel', moved, phase', accounts'⟩
      · left
        refine ⟨i, ?_⟩
        rw [Config.after_self]
        exact left
      · right
        refine ⟨channel', ?_, phase', accounts'⟩
        rcases moved with rfl | moved
        · exact reached
        · exact reached.snoc moved

/-! ## Accesses -/

theorem Party.Idle.not_isSlot {party : Party} {access : Access} (idle : party.Idle)
    (next : party.access = some access) : access.isSlot = false := by
  cases idle with
  | sender idle => exact idle.not_isSlot next
  | receiver idle => exact idle.not_isSlot next

theorem Party.isSem_of_usesSem {party : Party} {access : Access}
    (next : party.access = some access) (uses : access.usesSem = true) : access.field.IsSem := by
  cases party with
  | sender process => exact Sender.isSem_of_usesSem next uses
  | receiver process => exact Receiver.isSem_of_usesSem next uses

theorem Party.access_of_inSetup {party : Party} {pc : SetupPc} (here : party.InSetup pc) :
    party.access = pc.access := by
  cases party with
  | sender process =>
      have here : process.pc = .setup pc := here
      simp only [Party.access, Sender.access, here]
  | receiver process =>
      have here : process.pc = .setup pc := here
      simp only [Party.access, Receiver.access, here]

/-- One party at most is at the slot. -/
theorem Phase.exclusive (phase : Phase config channel) {j : ι} (ne : i ≠ j)
    {first second : Access} (firstNext : (config.thread i).access = some first)
    (secondNext : (config.thread j).access = some second) :
    first.isSlot = false ∨ second.isSlot = false := by
  -- Of two parties one is not the party that has the slot.
  have one {k : ι} (others : ∀ j, j ≠ k → (config.thread j).Idle) :
      first.isSlot = false ∨ second.isSlot = false := by
    by_cases isOwn : i = k
    · subst isOwn
      exact .inr ((others j (Ne.symm ne)).not_isSlot secondNext)
    · exact .inl ((others i isOwn).not_isSlot firstNext)
  cases phase with
  | absent _ here =>
      rw [Party.access_of_inSetup (here i)] at firstNext
      cases firstNext
  | making _ _ _ others => exact one fun j ne => (others j ne).idle
  | running _ _ slot =>
      cases slot with
      | free _ _ _ idle => exact .inl ((idle i).not_isSlot firstNext)
      | filling _ _ _ _ others => exact one others
      | full _ _ _ _ idle => exact .inl ((idle i).not_isSlot firstNext)
      | draining _ _ _ _ others => exact one others

omit [DecidableEq ι] in
/-- The semaphores while texts are exchanged, as for one sender and one receiver. -/
theorem Slot.semaphores (slot : Slot config channel) :
    config.shared.box.mutex ≠ none ∧ config.shared.box.full ≠ none ∧
      config.shared.box.empty ≠ none := by
  cases slot with
  | free empty full mutex | full empty full mutex =>
      exact ⟨initialised_of_eq mutex, initialised_of_eq full, initialised_of_eq empty⟩
  | @filling _ sender empty full _ filling =>
      exact @Ipc.Slot.semaphores _ ⟨true, config.shared.box, sender, ⟨.waitReady, 0, .zero, []⟩⟩
        (.filling empty full filling (.waitReady rfl) rfl)
  | @draining _ receiver _ empty full _ draining =>
      exact @Ipc.Slot.semaphores _ ⟨true, config.shared.box, ⟨.finished, .zero, []⟩, receiver⟩
        (.draining empty full draining (.done (.inr rfl)) rfl)

/-- No party uses a semaphore that is not initialised. -/
theorem Phase.initialised (phase : Phase config channel) {access : Access}
    (next : (config.thread i).access = some access) (uses : access.usesSem = true) :
    config.shared.box.sem access.field ≠ none := by
  have notSetup {pc : SetupPc} (here : (config.thread i).InSetup pc) : False := by
    rw [Party.access_of_inSetup here] at next
    rw [SetupPc.not_usesSem next] at uses
    cases uses
  cases phase with
  | absent _ here => exact (notSetup (here i)).elim
  | @making k _ _ here _ others =>
      by_cases isOwn : i = k
      · subst isOwn
        exact (notSetup here).elim
      · rcases others i isOwn with ⟨pc, here', _⟩
        exact (notSetup here').elim
  | running _ _ slot => exact sem_ne_none (Party.isSem_of_usesSem next uses) slot.semaphores

/-! ## The end of a run -/

/-- The programs that run. -/
theorem isReceiver_iff (reachable : Reachable (program roles).system config) (i : ι) :
    (config.thread i).IsReceiver ↔ roles i = none := by
  apply reachable.invariant (P := fun config => (config.thread i).IsReceiver ↔ roles i = none)
  · rintro config ⟨_, threads⟩
    rw [threads]
    cases roles i with
    | none => exact iff_of_true trivial rfl
    | some file => exact iff_of_false id (Option.some_ne_none file)
  · rintro config j _ same ⟨⟨segment', party'⟩, step, rfl⟩
    have kept : party'.IsReceiver = (config.thread j).IsReceiver := by
      generalize config.thread j = party at step
      cases party with
      | sender process =>
          rcases Option.map_eq_some_iff.mp step with ⟨s, _, result⟩
          cases result
          rfl
      | receiver process =>
          rcases Option.map_eq_some_iff.mp step with ⟨s, _, result⟩
          cases result
          rfl
    rw [Config.view_after Party.IsReceiver kept]
    exact same

/-- A receiver in its loop has not received an exit message. -/
def Party.InLoop : Party → Prop
  | .sender _ => True
  | .receiver process => SeesExitLast (¬process.pc.HasLeft) process.received

theorem inLoop_of_reachable (reachable : Reachable (program roles).system config) (i : ι) :
    (config.thread i).InLoop := by
  apply reachable.invariant (P := fun config => (config.thread i).InLoop)
  · rintro config ⟨_, threads⟩
    rw [threads]
    cases roles i with
    | none => exact .start
    | some file => trivial
  · rintro config j _ holds ⟨⟨segment', party'⟩, step, rfl⟩
    by_cases isOwn : i = j
    · subst isOwn
      rw [Config.after_self]
      generalize config.thread i = party at step holds
      cases party with
      | sender process =>
          rcases Option.map_eq_some_iff.mp step with ⟨s, _, result⟩
          cases result
          trivial
      | receiver process =>
          rcases Option.map_eq_some_iff.mp step with ⟨s, moved, result⟩
          cases result
          refine seesExitLast_step ?_ moved
          exact holds
    · rw [Config.after_of_ne isOwn]
      exact holds

theorem Party.not_exit {party : Party} (inLoop : party.InLoop) (stays : ¬party.HasLeft) :
    exitMessage ∉ party.received := by
  cases party with
  | sender process => exact List.not_mem_nil
  | receiver process =>
      intro isMem
      rcases List.mem_map.mp isMem with ⟨message, isReceived, isExit⟩
      have inLoop : SeesExitLast (¬process.pc.HasLeft) process.received := inLoop
      exact inLoop.none stays message isReceived isExit

/-- An idle party is not blocked in the set-up, nor where the slot is as it wants it. -/
theorem Party.Idle.pending_of_blocked {party : Party} {segment : Segment} (idle : party.Idle)
    (linked : segment.linked = true) (ready : segment.box.ready ≠ 0)
    (empty : segment.box.empty = some 1) (blocked : party.step segment = none) :
    party.pending = [] := by
  cases idle with
  | sender idle =>
      have finished := idle.blocked linked ready empty (Option.map_eq_none_iff.mp blocked)
      change Sender.pending _ = []
      unfold Sender.pending
      rw [finished]
  | receiver => rfl

theorem Party.Idle.not_blocked {party : Party} {segment : Segment} (idle : party.Idle)
    (linked : segment.linked = true) (ready : segment.box.ready ≠ 0)
    (full : segment.box.full = some 1) (isReceiver : party.IsReceiver) :
    party.step segment ≠ none := by
  cases idle with
  | sender => exact isReceiver.elim
  | receiver idle =>
      intro blocked
      exact idle.not_blocked linked ready full (Option.map_eq_none_iff.mp blocked)

omit [DecidableEq ι] in
/-- Where nobody can move, all texts have been put in and taken out. -/
theorem Phase.all_of_stuck (phase : Phase config channel)
    (stuck : ∀ i, (config.thread i).step config.shared = none) (receiver : ι)
    (isReceiver : (config.thread receiver).IsReceiver) :
    channel.inside = [] ∧ ∀ i, (config.thread i).pending = [] := by
  cases phase with
  | absent unlinked here =>
      refine absurd (stuck receiver) (Party.step_ne_none (here receiver) ?_)
      rw [unlinked]
      exact Option.some_ne_none _
  | making linked here making =>
      rcases making.step with ⟨box, next, goes, _⟩
      refine absurd (stuck _) (Party.step_ne_none here ?_)
      rw [linked, goes]
      exact Option.some_ne_none _
  | running linked ready slot =>
      cases slot with
      | free empty _ _ idle nothing =>
          exact ⟨nothing, fun i => (idle i).pending_of_blocked linked ready empty (stuck i)⟩
      | @filling k _ _ full here filling =>
          have blocked := stuck k
          rw [here] at blocked
          exact absurd (Option.map_eq_none_iff.mp blocked) (filling.not_blocked full)
      | full _ full _ _ idle =>
          exact absurd (stuck receiver) ((idle receiver).not_blocked linked ready full isReceiver)
      | @draining k _ _ empty _ here draining =>
          have blocked := stuck k
          rw [here] at blocked
          exact absurd (Option.map_eq_none_iff.mp blocked) (draining.not_blocked empty)

/-! ## Every run is finite -/

theorem receiverStep_sender {s s' : State} (step : receiverStep s = some s') :
    s'.sender = s.sender := by
  unfold receiverStep at step
  split at step
  case h_1 | h_3 | h_4 | h_10 | h_11 =>
    rcases Option.map_eq_some_iff.mp step with ⟨_, _, rfl⟩
    rfl
  case h_2 | h_6 =>
    split at step <;> cases step <;> rfl
  all_goals cases step <;> rfl

/-- How many steps a party can still cause. -/
def Party.rank : Party → Nat
  | .sender process => process.rank
  | .receiver process => process.rank

theorem Party.rank_step {party party' : Party} {segment segment' : Segment}
    (step : party.step segment = some (segment', party')) :
    party'.rank + receiveSteps * segment'.box.fullCount <
      party.rank + receiveSteps * segment.box.fullCount := by
  cases party with
  | sender process =>
      rcases Option.map_eq_some_iff.mp step with ⟨s, moved, result⟩
      cases result
      have lower := senderStep_lowers moved
      simp only [stepsLeft, senderStep_receiver moved] at lower
      simp only [rank]
      omega
  | receiver process =>
      rcases Option.map_eq_some_iff.mp step with ⟨s, moved, result⟩
      cases result
      have lower := receiverStep_lowers moved
      simp only [stepsLeft, receiverStep_sender moved] at lower
      simp only [rank]
      omega

/-- What a run has left. -/
def stepsLeft [Fintype ι] (config : Config ι Segment Party) : Nat :=
  (∑ i, (config.thread i).rank) + receiveSteps * config.shared.box.fullCount

theorem stepsLeft_step [Fintype ι] {config' : Config ι Segment Party}
    (stepped : (program roles).system.step config i config') :
    stepsLeft config' < stepsLeft config := by
  rcases stepped with ⟨⟨segment', party'⟩, step, rfl⟩
  have lower := Party.rank_step step
  have total := Config.sum_after Party.rank config i segment' party'
  simp only [stepsLeft, Config.after_shared]
  omega

/-- Every run of finitely many parties is finite. -/
theorem exists_bound [Fintype ι] (roles : ι → Option (List UInt8)) :
    ∃ bound, ∀ events config, Trace (program roles).system events config →
      events.length ≤ bound := by
  have start : ∀ config, (program roles).system.init config →
      stepsLeft config ≤ ∑ i, (Party.start (roles i)).rank := by
    rintro config ⟨shared, threads⟩
    simp only [stepsLeft, shared, threads]
    exact Nat.le_refl _
  refine ⟨∑ i, (Party.start (roles i)).rank, fun events config trace => ?_⟩
  have length := trace.length_le start fun _ _ _ step => stepsLeft_step step
  exact Nat.le_of_add_right_le length

/-! ## The contract -/

instance (pc : ReceiverPc) : Decidable pc.HasLeft :=
  match pc with
  | .destroyFull | .destroyEmpty | .destroyMutex | .shmdt | .shmctl | .finished => .isTrue trivial
  | .setup _ | .waitReady | .semWaitFull | .semWaitMutex | .readLength | .copy _ | .clearLength
  | .clearIsExit | .clearBuffer | .semPostMutex | .semPostEmpty => .isFalse id

instance (party : Party) : Decidable party.HasLeft :=
  match party with
  | .sender _ => .isFalse id
  | .receiver process => inferInstanceAs (Decidable process.pc.HasLeft)

/-- Any number of senders, each with its file, and of receivers share a segment, whichever of
them makes it.  As long as no receiver has left its loop, the mailbox is a channel with room for
one text: what each sender has put in, with what it has left, are the texts of its file in their
order; what each receiver has got is what it took out; and what is taken out is what was put in,
in the same order.  A party finds the semaphores that it uses initialised, and no two are at the
slot. -/
theorem mailbox_shared (reachable : Reachable (program roles).system config)
    (inLoop : ∀ i, ¬(config.thread i).HasLeft) :
    ∃ channel, Reachable (Channel.system OneAtATime) channel ∧ channel.inside.length ≤ 1 ∧
      (∀ i, own i channel.put ++ (config.thread i).pending = texts (roles i)) ∧
      (∀ i, own i channel.taken = (config.thread i).received) ∧
      (∀ i access, (config.thread i).access = some access → access.usesSem = true →
        config.shared.box.sem access.field ≠ none) ∧
      ∀ i j, i ≠ j → ∀ first second, (config.thread i).access = some first →
        (config.thread j).access = some second → first.isSlot = false ∨ second.isSlot = false := by
  rcases channel_of_reachable reachable with ⟨i, left⟩ | ⟨channel, reached, phase, accounts⟩
  · exact absurd left (inLoop i)
  · refine ⟨channel, reached, ?_, accounts.account, accounts.received, ?_, ?_⟩
    · apply Channel.inside_of_reachable (P := fun inside => inside.length ≤ 1) _ _ _ reached
      · exact Nat.zero_le 1
      · intro inside text _ room
        rw [OneAtATime] at room
        rw [room]
        exact Nat.le_refl 1
      · intro text rest short
        exact Nat.le_of_succ_le short
    · exact fun i access next uses => phase.initialised next uses
    · exact fun i j ne first second firstNext secondNext =>
        phase.exclusive ne firstNext secondNext

/-- A sender with the line `hi`, one with an empty file, and a receiver. -/
def threeRoles (i : Fin 3) : Option (List UInt8) :=
  if i = 0 then some [104, 105, newline] else if i = 1 then some [] else none

def threeStart : Config (Fin 3) Segment Party :=
  ⟨⟨false, .fresh⟩, fun i => .start (threeRoles i)⟩

/-- The first sender makes the segment and sends its line, the second waits for the slot, and
the receiver takes the line out. -/
def threeMoves : List (Fin 3) :=
  List.replicate 24 0 ++ List.replicate 5 1 ++ List.replicate 16 2

/-- Where they are then. -/
theorem threeMoves_ends : (((program threeRoles).run threeMoves threeStart).any fun config =>
    decide ((∀ i, ¬(config.thread i).HasLeft) ∧ (config.thread 2).received = [[104, 105]])) =
      true := by
  decide +kernel

theorem mailbox_shared_threeMoves : ∃ config,
    Reachable (program threeRoles).system config ∧ (config.thread 2).received = [[104, 105]] ∧
    ∃ channel, Reachable (Channel.system OneAtATime) channel ∧ channel.inside.length ≤ 1 ∧
      (∀ i, own i channel.put ++ (config.thread i).pending = texts (threeRoles i)) ∧
      (∀ i, own i channel.taken = (config.thread i).received) ∧
      (∀ i access, (config.thread i).access = some access → access.usesSem = true →
        config.shared.box.sem access.field ≠ none) ∧
      ∀ i j, i ≠ j → ∀ first second, (config.thread i).access = some first →
        (config.thread j).access = some second →
          first.isSlot = false ∨ second.isSlot = false := by
  rcases (Option.any_eq_true _ _).mp threeMoves_ends with ⟨config, runs, here⟩
  rcases of_decide_eq_true here with ⟨inLoop, received⟩
  have started : Trace (program threeRoles).system [] threeStart := .start ⟨rfl, fun _ => rfl⟩
  have reachable : Reachable (program threeRoles).system config :=
    ⟨_, Program.trace_run threeMoves started runs⟩
  exact ⟨config, reachable, received, mailbox_shared reachable inLoop⟩

/-- With a sender and a receiver among them, however many there are: every run is finite, and
where no party can move a receiver has left its loop. -/
theorem mailbox_never_stuck [Fintype ι] {sender receiver : ι} {file : List UInt8}
    (sends : roles sender = some file) (receives : roles receiver = none) :
    (∃ bound, ∀ events config, Trace (program roles).system events config →
      events.length ≤ bound) ∧
      ∀ config, Reachable (program roles).system config →
        (∀ i, (config.thread i).step config.shared = none) → ∃ i, (config.thread i).HasLeft := by
  refine ⟨exists_bound roles, fun config reachable stuck => ?_⟩
  rcases channel_of_reachable reachable with left | ⟨channel, _, phase, accounts⟩
  · exact left
  · have isReceiver := (isReceiver_iff reachable receiver).mpr receives
    rcases phase.all_of_stuck stuck receiver isReceiver with ⟨nothing, all⟩
    -- The exit message of the sender has been put in, so some party has taken it out.
    have sent : exitMessage ∈ own sender channel.put := by
      have account := accounts.account sender
      rw [all sender, List.append_nil, sends] at account
      rw [account]
      have isTexts : texts (some file) = ordinaryTexts file ++ [exitMessage] :=
        texts_sentMessages file
      rw [isTexts]
      exact List.mem_append_right _ List.mem_cons_self
    have taken : exitMessage ∈ channel.taken.map Prod.snd := by
      have fifo := channel.fifo
      rw [nothing, List.append_nil] at fifo
      rw [← fifo]
      exact List.mem_map_of_mem (mem_own.mp sent)
    rcases List.mem_map.mp taken with ⟨⟨i, text⟩, isEntry, isExit⟩
    dsimp only at isExit
    subst isExit
    refine ⟨i, ?_⟩
    by_contra stays
    apply Party.not_exit (inLoop_of_reachable reachable i) stays
    rw [← accounts.received i]
    exact mem_own.mpr isEntry

theorem mailbox_never_stuck_threeRoles :
    (∃ bound, ∀ events config, Trace (program threeRoles).system events config →
      events.length ≤ bound) ∧
      ∀ config, Reachable (program threeRoles).system config →
        (∀ i, (config.thread i).step config.shared = none) → ∃ i, (config.thread i).HasLeft :=
  @mailbox_never_stuck (Fin 3) _ threeRoles _ 0 2 [104, 105, newline] rfl rfl

end NckuOs.Ipc.Parties
