import NckuOs.Ipc.SharedRun
import NckuOs.Lib.Channel
import NckuOs.Lib.Threads

/-!
# Many senders and receivers on one segment

Any number of runs of the two programs with mechanism 2.  One of them makes the segment, and
as long as no receiver takes it away the mailbox is a channel with room for one text.
-/

namespace NckuOs.Ipc.Parties

open NckuOs.Channels
open NckuOs.Threads
open NckuOs.Transition

/-- The segment, and whether the key names it. -/
structure Segment where
  linked : Bool
  box : ShmMailbox

/-- A run of one of the programs. -/
inductive Party
  | sender (sender : Sender)
  | receiver (receiver : Receiver)

namespace Party

/-- The next step of a party.  A step of one program does not look at the other one. -/
def step (segment : Segment) : Party → Option (Segment × Party)
  | .sender process =>
      (senderStep ⟨segment.linked, segment.box, process, ⟨.finished, 0, .zero, []⟩⟩).map fun s =>
        (⟨s.linked, s.box⟩, .sender s.sender)
  | .receiver process =>
      (receiverStep ⟨segment.linked, segment.box, ⟨.finished, .zero, []⟩, process⟩).map fun s =>
        (⟨s.linked, s.box⟩, .receiver s.receiver)

/-- The start of a sender with this file, or of a receiver. -/
def start : Option (List UInt8) → Party
  | some file => .sender ⟨.setup .shmgetExcl, .zero, sentMessages file⟩
  | none => .receiver ⟨.setup .shmgetExcl, 0, .zero, []⟩

/-- The texts that a party is going to put into the slot. -/
def pending : Party → List (List UInt8)
  | .sender process => process.pending
  | .receiver _ => []

/-- The texts that `receive` has returned. -/
def received : Party → List (List UInt8)
  | .sender _ => []
  | .receiver process => process.texts

/-- A receiver that has left its loop takes the segment away. -/
def HasLeft : Party → Prop
  | .sender _ => False
  | .receiver process => process.pc.HasLeft

def IsReceiver : Party → Prop
  | .sender _ => False
  | .receiver _ => True

/-- The next access to the segment. -/
def access : Party → Option Access
  | .sender process => process.access
  | .receiver process => process.access

/-- The place in the set-up. -/
def InSetup (pc : SetupPc) : Party → Prop
  | .sender process => process.pc = .setup pc
  | .receiver process => process.pc = .setup pc

/-- In the set-up of a segment that another party makes. -/
def Waiting (party : Party) : Prop :=
  ∃ pc, party.InSetup pc ∧ Waits pc

/-- A party that does not have the slot. -/
inductive Idle : Party → Prop
  | sender {sender : Sender} (idle : SenderIdle sender.pending sender) : Idle (.sender sender)
  | receiver {receiver : Receiver} (idle : ReceiverIdle receiver) : Idle (.receiver receiver)

end Party

variable {ι : Type} {roles : ι → Option (List UInt8)}

/-- Runs of the sender, each with its file, and of the receiver. -/
def program (roles : ι → Option (List UInt8)) : Program ι Segment Party where
  start config := config.shared = ⟨false, .fresh⟩ ∧ ∀ i, config.thread i = .start (roles i)
  step _ := Party.step

/-- The texts of the messages that a party is to send. -/
def texts : Option (List UInt8) → List (List UInt8)
  | some file => (sentMessages file).map Message.text
  | none => []

/-- An item may be put into an empty slot. -/
def OneAtATime (inside : List (List UInt8)) (_text : List UInt8) : Prop :=
  inside = []

theorem fits_of_mem_texts {role : Option (List UInt8)} {text : List UInt8}
    (isMem : text ∈ texts role) : Fits text := by
  cases role with
  | none => cases isMem
  | some file =>
      have isMem : text ∈ (sentMessages file).map Message.text := isMem
      rw [texts_sentMessages] at isMem
      rcases List.mem_append.mp isMem with ordinary | isMarker
      · exact fits_ordinary ordinary
      · rw [List.mem_singleton.mp isMarker]
        exact fits_exitMessage

/-! ## The slot -/

section Slot

variable (config : Config ι Segment Party) (channel : Channel ι (List UInt8))

/-- The four conditions of the slot; the party that has it is the only one that is not idle. -/
inductive Slot : Prop
  | free (empty : config.shared.box.empty = some 1) (full : config.shared.box.full = some 0)
      (mutex : config.shared.box.mutex = some 1) (idle : ∀ i, (config.thread i).Idle)
      (nothing : channel.inside = [])
  | filling {i : ι} {sender : Sender} (empty : config.shared.box.empty = some 0)
      (full : config.shared.box.full = some 0) (here : config.thread i = .sender sender)
      (filling : Filling config.shared.box sender)
      (others : ∀ j, j ≠ i → (config.thread j).Idle) (nothing : channel.inside = [])
  | full {text : List UInt8} (empty : config.shared.box.empty = some 0)
      (full : config.shared.box.full = some 1) (mutex : config.shared.box.mutex = some 1)
      (holds : Holds config.shared.box text) (idle : ∀ i, (config.thread i).Idle)
      (one : channel.inside = [text])
  | draining {i : ι} {receiver : Receiver} {text : List UInt8}
      (empty : config.shared.box.empty = some 0) (full : config.shared.box.full = some 0)
      (here : config.thread i = .receiver receiver)
      (draining : Draining config.shared.box receiver text)
      (others : ∀ j, j ≠ i → (config.thread j).Idle) (one : channel.inside = [text])

/-- How a run goes until a receiver takes the segment away. -/
inductive Phase : Prop
  | absent (unlinked : config.shared.linked = false)
      (here : ∀ i, (config.thread i).InSetup .shmgetExcl) (new : channel = .empty)
  | making {i : ι} {pc : SetupPc} (linked : config.shared.linked = true)
      (here : (config.thread i).InSetup pc) (making : Making config.shared.box pc)
      (others : ∀ j, j ≠ i → (config.thread j).Waiting) (new : channel = .empty)
  | running (linked : config.shared.linked = true) (ready : config.shared.box.ready ≠ 0)
      (slot : Slot config channel)

end Slot

/-! ## Steps of an idle party -/

namespace Party

variable {segment segment' : Segment} {party party' : Party}

theorem Waiting.idle (waiting : party.Waiting) : party.Idle := by
  rcases waiting with ⟨pc, here, waits⟩
  cases party with
  | sender sender =>
      have here : sender.pc = .setup pc := here
      apply Idle.sender
      apply SenderIdle.setup here waits
      simp only [Sender.pending, here]
  | receiver receiver => exact .receiver (.setup here waits)

/-- A step that leaves the slot alone. -/
structure Quiet (segment segment' : Segment) (party party' : Party) : Prop where
  segment : segment' = segment
  idle : party'.Idle
  pending : party'.pending = party.pending
  received : party'.received = party.received

/-- An idle party leaves the slot alone, unless it waits for it. -/
theorem Idle.step (idle : party.Idle) (linked : segment.linked = true)
    (step : party.step segment = some (segment', party')) :
    Quiet segment segment' party party' ∨
      (∃ sender, party = .sender sender ∧ sender.pc = .semWaitEmpty) ∨
        ∃ receiver, party = .receiver receiver ∧ receiver.pc = .semWaitFull := by
  cases idle with
  | @sender sender idle =>
      by_cases waiting : sender.pc = .semWaitEmpty
      · exact .inr (.inl ⟨sender, rfl, waiting⟩)
      · rcases Option.map_eq_some_iff.mp step with ⟨s, moved, result⟩
        rcases idle.step linked waiting moved with ⟨sender', rfl, idle', pending⟩
        cases result
        exact .inl ⟨rfl, .sender (pending ▸ idle'), pending, rfl⟩
  | @receiver receiver idle =>
      by_cases waiting : receiver.pc = .semWaitFull
      · exact .inr (.inr ⟨receiver, rfl, waiting⟩)
      · rcases Option.map_eq_some_iff.mp step with ⟨s, moved, result⟩
        rcases idle.step linked waiting moved with ⟨receiver', rfl, idle', same⟩
        cases result
        exact .inl ⟨rfl, .receiver idle', rfl, same⟩

/-- Nobody gets through `sem_wait(&empty)` at zero. -/
theorem not_waitEmpty (empty : segment.box.empty = some 0)
    (step : party.step segment = some (segment', party')) :
    ¬∃ sender, party = .sender sender ∧ sender.pc = .semWaitEmpty := by
  rintro ⟨sender, rfl, waiting⟩
  rcases Option.map_eq_some_iff.mp step with ⟨s, moved, _⟩
  exact senderStep_of_not_empty empty moved waiting

theorem not_waitFull (full : segment.box.full = some 0)
    (step : party.step segment = some (segment', party')) :
    ¬∃ receiver, party = .receiver receiver ∧ receiver.pc = .semWaitFull := by
  rintro ⟨receiver, rfl, waiting⟩
  rcases Option.map_eq_some_iff.mp step with ⟨s, moved, _⟩
  exact receiverStep_of_not_full full moved waiting

end Party

/-! ## Steps at the slot -/

/-- Every text has been put in, or is going to be, and has been received, or is inside. -/
abbrev Accounts (roles : ι → Option (List UInt8)) (config : Config ι Segment Party)
    [DecidableEq ι] (channel : Channel ι (List UInt8)) : Prop :=
  Parts channel (fun i => (config.thread i).pending) (fun i => (config.thread i).received)
    fun i => texts (roles i)

section Steps

variable [DecidableEq ι] {config : Config ι Segment Party} {channel : Channel ι (List UInt8)}
  {i : ι} {segment' : Segment} {party' : Party}

/-- The channel after a step of party `i`, with what holds of the slot. -/
structure Moved (roles : ι → Option (List UInt8)) (config : Config ι Segment Party)
    (channel : Channel ι (List UInt8)) (i : ι) (segment' : Segment) (party' : Party)
    (channel' : Channel ι (List UInt8)) : Prop where
  step : channel' = channel ∨ Channel.Step OneAtATime channel i channel'
  linked : segment'.linked = true
  ready : segment'.box.ready = config.shared.box.ready
  slot : Slot (config.after i (segment', party')) channel'
  accounts : Accounts roles (config.after i (segment', party')) channel'

theorem Accounts.same (accounts : Accounts roles config channel)
    (pending : party'.pending = (config.thread i).pending)
    (received : party'.received = (config.thread i).received) :
    Accounts roles (config.after i (segment', party')) channel :=
  accounts.congr (Config.view_after Party.pending pending)
    (Config.view_after Party.received received) fun _ => rfl

omit [DecidableEq ι] in
theorem Accounts.fits [DecidableEq ι] (accounts : Accounts roles config channel)
    {text : List UInt8} (isMem : text ∈ channel.inside) : Fits text := by
  rcases accounts.exists_whole isMem with ⟨i, isText⟩
  exact fits_of_mem_texts isText

theorem Accounts.fits_pending (accounts : Accounts roles config channel) {text : List UInt8}
    (isMem : text ∈ (config.thread i).pending) : Fits text := by
  have isText : text ∈ texts (roles i) := by
    rw [← accounts.account i]
    exact List.mem_append_right _ isMem
  exact fits_of_mem_texts isText

/-- A quiet step moves nothing. -/
theorem Party.Quiet.moved (quiet : Party.Quiet config.shared segment' (config.thread i) party')
    (linked : config.shared.linked = true) (accounts : Accounts roles config channel)
    (slot : Slot (config.after i (segment', party')) channel) :
    Moved roles config channel i segment' party' channel where
  step := .inl rfl
  linked := by
    rw [quiet.segment]
    exact linked
  ready := by
    rw [quiet.segment]
  slot := slot
  accounts := accounts.same quiet.pending quiet.received

theorem idle_after (idle : party'.Idle) (others : ∀ j, j ≠ i → (config.thread j).Idle) (j : ι) :
    ((config.after i (segment', party')).thread j).Idle :=
  Config.forall_after (P := fun _ party => Party.Idle party) idle others j

/-- The others are idle still when one of them has moved. -/
theorem others_after {k : ι} (others : ∀ j, j ≠ k → (config.thread j).Idle)
    (idle : party'.Idle) (j : ι) (ne : j ≠ k) :
    ((config.after i (segment', party')).thread j).Idle := by
  by_cases isOwn : j = i
  · subst isOwn
    rw [Config.after_self]
    exact idle
  · rw [Config.after_of_ne isOwn]
    exact others j ne

/-- The others are idle still when the one that has the slot has moved. -/
theorem others_after_own (others : ∀ j, j ≠ i → (config.thread j).Idle) (j : ι) (ne : j ≠ i) :
    ((config.after i (segment', party')).thread j).Idle := by
  rw [Config.after_of_ne ne]
  exact others j ne

omit [DecidableEq ι] in
/-- A step of a party that does not have the slot, while another one has it or a text is in it. -/
theorem quiet_of_busy (idle : (config.thread i).Idle) (linked : config.shared.linked = true)
    (empty : config.shared.box.empty = some 0)
    (step : (config.thread i).step config.shared = some (segment', party')) :
    Party.Quiet config.shared segment' (config.thread i) party' ∨
      ∃ receiver, config.thread i = .receiver receiver ∧ receiver.pc = .semWaitFull :=
  (idle.step linked step).imp_right fun waiting =>
    waiting.resolve_left (Party.not_waitEmpty empty step)

/-- `sem_wait(&empty)`. -/
theorem moved_waitEmpty {sender : Sender} (here : config.thread i = .sender sender)
    (waiting : sender.pc = .semWaitEmpty) (linked : config.shared.linked = true)
    (accounts : Accounts roles config channel) (empty : config.shared.box.empty = some 1)
    (full : config.shared.box.full = some 0) (mutex : config.shared.box.mutex = some 1)
    (idle : ∀ i, (config.thread i).Idle) (nothing : channel.inside = [])
    (step : (config.thread i).step config.shared = some (segment', party')) :
    Moved roles config channel i segment' party' channel := by
  rw [here] at step
  simp only [Party.step, senderStep, waiting, empty, semWait_succ, Option.map_some,
    Option.some.injEq, Prod.mk.injEq] at step
  rcases step with ⟨rfl, rfl⟩
  refine ⟨.inl rfl, linked, rfl, ?_, accounts.same ?_ ?_⟩
  · exact .filling rfl full (Config.after_self ..) (.waitMutex rfl mutex)
      (others_after_own fun j _ => idle j) nothing
  · rw [here]
    simp only [Party.pending, Sender.pending, Sender.goto, waiting]
  · rw [here]
    rfl

/-- `sem_wait(&full)`. -/
theorem moved_waitFull {receiver : Receiver} {text : List UInt8}
    (here : config.thread i = .receiver receiver) (waiting : receiver.pc = .semWaitFull)
    (linked : config.shared.linked = true) (accounts : Accounts roles config channel)
    (empty : config.shared.box.empty = some 0) (full : config.shared.box.full = some 1)
    (mutex : config.shared.box.mutex = some 1) (holds : Holds config.shared.box text)
    (idle : ∀ i, (config.thread i).Idle) (one : channel.inside = [text])
    (step : (config.thread i).step config.shared = some (segment', party')) :
    Moved roles config channel i segment' party' channel := by
  rw [here] at step
  simp only [Party.step, receiverStep, waiting, full, semWait_succ, Option.map_some,
    Option.some.injEq, Prod.mk.injEq] at step
  rcases step with ⟨rfl, rfl⟩
  refine ⟨.inl rfl, linked, rfl, ?_, accounts.same ?_ ?_⟩
  · exact .draining empty rfl (Config.after_self ..)
      (.waitMutex rfl mutex ⟨holds.bytes, holds.length⟩) (others_after_own fun j _ => idle j) one
  · rw [here]
    rfl
  · rw [here]
    rfl

/-- A step of the sender that has the slot. -/
theorem moved_filling {sender : Sender} (here : config.thread i = .sender sender)
    (linked : config.shared.linked = true) (accounts : Accounts roles config channel)
    (empty : config.shared.box.empty = some 0) (full : config.shared.box.full = some 0)
    (filling : Filling config.shared.box sender)
    (others : ∀ j, j ≠ i → (config.thread j).Idle) (nothing : channel.inside = [])
    (step : (config.thread i).step config.shared = some (segment', party')) :
    ∃ channel', Moved roles config channel i segment' party' channel' := by
  have pending : (config.thread i).pending =
      sender.message.text :: sender.todo.map Message.text := by
    rw [here]
    exact filling.pending_eq
  rw [here] at step
  by_cases last : sender.pc = .semPostFull
  · rcases filling.of_postFull last with ⟨mutex, holds⟩
    simp only [Party.step, senderStep, last, full, semPost_some, Option.map_some,
      Option.some.injEq, Prod.mk.injEq] at step
    rcases step with ⟨rfl, rfl⟩
    refine ⟨channel.puts i sender.message.text, .inr (.put nothing), linked, rfl, ?_, ?_⟩
    · refine .full empty rfl mutex ⟨holds.bytes, holds.length⟩ ?_ ?_
      · exact idle_after (.sender Sender.idle_nextSend) others
      · rw [Channel.puts_inside, nothing, List.nil_append]
    · apply accounts.puts
      · rw [pending, Config.after_self]
        exact congrArg _ Sender.pending_nextSend.symm
      · intro j ne
        rw [Config.after_of_ne ne]
      · apply Config.view_after
        rw [here]
        rfl
  · have fits : Fits sender.message.text := by
      apply accounts.fits_pending
      rw [pending]
      exact List.mem_cons_self
    rcases Option.map_eq_some_iff.mp step with ⟨s, moved, result⟩
    rcases filling.step fits last moved with ⟨box, sender', rfl, filling', same, message, todo⟩
    cases result
    refine ⟨channel, .inl rfl, linked, same.ready, ?_, accounts.same ?_ ?_⟩
    · exact .filling (same.empty.trans empty) (same.full.trans full) (Config.after_self ..) filling'
        (others_after_own others) nothing
    · rw [pending]
      exact filling'.pending_eq.trans (by rw [message, todo])
    · rw [here]
      rfl

/-- A step of the receiver that has the slot. -/
theorem moved_draining {receiver : Receiver} {text : List UInt8}
    (here : config.thread i = .receiver receiver) (linked : config.shared.linked = true)
    (accounts : Accounts roles config channel) (empty : config.shared.box.empty = some 0)
    (full : config.shared.box.full = some 0)
    (draining : Draining config.shared.box receiver text)
    (others : ∀ j, j ≠ i → (config.thread j).Idle) (one : channel.inside = [text])
    (step : (config.thread i).step config.shared = some (segment', party')) :
    party'.HasLeft ∨ ∃ channel', Moved roles config channel i segment' party' channel' := by
  have received : (config.thread i).received = receiver.texts := by
    rw [here]
    rfl
  rw [here] at step
  by_cases last : receiver.pc = .semPostEmpty
  · rcases draining.of_postEmpty last with ⟨mutex, copied⟩
    simp only [Party.step, receiverStep, last, empty, semPost_some, Option.map_some,
      Option.some.injEq, Prod.mk.injEq] at step
    rcases step with ⟨rfl, rfl⟩
    by_cases isExit : receiver.message.isExit = true
    · left
      have left : receiver.nextReceive.pc = .destroyFull := if_pos isExit
      rw [Party.HasLeft, left]
      trivial
    · right
      refine ⟨channel.takes i text [] one, .inr (.take one), linked, rfl, ?_, ?_⟩
      · exact .free rfl full mutex
          (idle_after (.receiver (.waitReady (if_neg isExit))) others) rfl
      · apply accounts.takes
        · rw [received, Config.after_self]
          simp only [Party.received, Receiver.texts, Receiver.nextReceive, List.map_append,
            List.map_singleton, copied]
        · intro j ne
          rw [Config.after_of_ne ne]
        · apply Config.view_after
          rw [here]
          rfl
  · have fits : Fits text := by
      apply accounts.fits
      rw [one]
      exact List.mem_singleton_self text
    rcases Option.map_eq_some_iff.mp step with ⟨s, moved, result⟩
    rcases draining.step fits last moved with ⟨box, receiver', rfl, draining', same, texts⟩
    cases result
    right
    refine ⟨channel, .inl rfl, linked, same.ready, ?_, accounts.same ?_ ?_⟩
    · exact .draining (same.empty.trans empty) (same.full.trans full) (Config.after_self ..)
        draining' (others_after_own others) one
    · rw [here]
      rfl
    · rw [received]
      exact texts

/-- A step of any party while texts are exchanged. -/
theorem Slot.moved (slot : Slot config channel) (linked : config.shared.linked = true)
    (accounts : Accounts roles config channel)
    (step : (config.thread i).step config.shared = some (segment', party')) :
    party'.HasLeft ∨ ∃ channel', Moved roles config channel i segment' party' channel' := by
  cases slot with
  | free empty full mutex idle nothing =>
      right
      refine ⟨channel, ?_⟩
      rcases (idle i).step linked step with quiet | ⟨sender, here, waiting⟩ | waiting
      · apply quiet.moved linked accounts
        rcases quiet with ⟨rfl, idle', _, _⟩
        exact .free empty full mutex (idle_after idle' fun j _ => idle j) nothing
      · exact moved_waitEmpty here waiting linked accounts empty full mutex idle nothing step
      · exact absurd waiting (Party.not_waitFull full step)
  | @filling k sender empty full here filling others nothing =>
      by_cases isOwn : i = k
      · subst isOwn
        exact .inr (moved_filling here linked accounts empty full filling others nothing step)
      · right
        have quiet := (quiet_of_busy (others i isOwn) linked empty step).resolve_right
          (Party.not_waitFull full step)
        refine ⟨channel, quiet.moved linked accounts ?_⟩
        rcases quiet with ⟨rfl, idle', _, _⟩
        have here' : (config.after i (config.shared, party')).thread k = .sender sender := by
          rw [Config.after_of_ne (Ne.symm isOwn)]
          exact here
        exact .filling empty full here' filling (others_after others idle') nothing
  | full empty full mutex holds idle one =>
      right
      refine ⟨channel, ?_⟩
      rcases quiet_of_busy (idle i) linked empty step with quiet | ⟨receiver, here, waiting⟩
      · apply quiet.moved linked accounts
        rcases quiet with ⟨rfl, idle', _, _⟩
        exact .full empty full mutex holds (idle_after idle' fun j _ => idle j) one
      · exact moved_waitFull here waiting linked accounts empty full mutex holds idle one step
  | @draining k receiver text empty full here draining others one =>
      by_cases isOwn : i = k
      · subst isOwn
        exact moved_draining here linked accounts empty full draining others one step
      · right
        have quiet := (quiet_of_busy (others i isOwn) linked empty step).resolve_right
          (Party.not_waitFull full step)
        refine ⟨channel, quiet.moved linked accounts ?_⟩
        rcases quiet with ⟨rfl, idle', _, _⟩
        have here' : (config.after i (config.shared, party')).thread k = .receiver receiver := by
          rw [Config.after_of_ne (Ne.symm isOwn)]
          exact here
        exact .draining empty full here' draining (others_after others idle') one

end Steps

end NckuOs.Ipc.Parties
