import NckuOs.Ipc.Queues

/-!
# What many runs share with message queues

Every queue carries the messages as a channel does: none is received twice, out of order, or
from another queue.  Messages are lost only with a queue that is removed, and a sender and a
receiver that have the same queue both come to an end.
-/

namespace NckuOs.Ipc.MessageQueue

open NckuOs.Channels
open NckuOs.Threads
open NckuOs.Transition

/-! ## What a run has done -/

/-- The messages that the sender has not put into its queue. -/
def Sender.unsent (process : Sender) : List Message :=
  match process.pc with
  | .msgget => process.todo
  | .msgsnd => process.message :: process.todo
  | .failed => process.message :: process.todo
  | .finished => []

namespace Run

def unsent : Run → List Pair
  | .sender process => process.unsent.map Message.pair
  | .receiver _ => []
  | .opener _ => []

/-- The messages that `receive` has returned. -/
def got : Run → List Pair
  | .sender _ => []
  | .receiver process => process.received.map Message.pair
  | .opener _ => []

/-- The run has removed its queue. -/
def HasRemoved : Run → Prop
  | .sender _ => False
  | .receiver process => process.pc = .finished
  | .opener pc => pc = .failed

/-- The run has found out that its queue is not there any more. -/
def HasFailed : Run → Prop
  | .sender process => process.pc = .failed
  | .receiver process => process.pc = .failed
  | .opener _ => False

def HasEnded : Run → Prop
  | .sender process => process.pc = .failed ∨ process.pc = .finished
  | .receiver process => process.pc = .failed ∨ process.pc = .finished
  | .opener pc => pc = .failed

/-- A receiver in its loop has not received the exit message. -/
def SeesExit : Run → Prop
  | .sender _ => True
  | .receiver process => SeesExitLast process.pc.Looping process.received
  | .opener _ => True

/-- The run is one of the program. -/
def Runs : Run → Role → Prop
  | .sender _ => fun role => ∃ file, role = .sender (some file)
  | .opener _ => fun role => role = .sender none
  | .receiver _ => fun role => role = .receiver

end Run

/-- The messages that a run is to send. -/
def messages : Role → List Pair
  | .sender (some file) => (sentMessages file).map Message.pair
  | .sender none => []
  | .receiver => []

theorem fits_of_mem_messages {role : Role} {pair : Pair} (isMem : pair ∈ messages role) :
    Fits pair.2 := by
  unfold messages at isMem
  split at isMem
  next file =>
    rcases List.mem_map.mp isMem with ⟨message, isSent, rfl⟩
    have isText : message.text ∈ ordinaryTexts file ++ [exitMessage] := by
      rw [← texts_sentMessages]
      exact List.mem_map_of_mem isSent
    rcases List.mem_append.mp isText with ordinary | isMarker
    · exact fits_ordinary ordinary
    · rw [show message.pair.2 = exitMessage from List.mem_singleton.mp isMarker]
      exact fits_exitMessage
  next => cases isMem
  next => cases isMem

/-! ## One party -/

/-- The kernel later: a queue that has gone does not come back. -/
structure Later (kernel kernel' : Kernel) : Prop where
  next : kernel.next ≤ kernel'.next
  gone : ∀ msqid < kernel.next, kernel'.key = some msqid → kernel.key = some msqid

/-- The queue that the key names has been made. -/
def Kernel.Named (kernel : Kernel) : Prop :=
  ∀ msqid, kernel.key = some msqid → msqid < kernel.next

/-- What holds of one party, whatever the others do. -/
structure Sound (role : Role) (kernel : Kernel) (party : Party) : Prop where
  started : party.msqid = none ↔ party.run.AtMsgget
  made : ∀ msqid, party.msqid = some msqid → msqid < kernel.next
  gone : ∀ msqid, party.msqid = some msqid → party.run.HasRemoved ∨ party.run.HasFailed →
    kernel.key ≠ some msqid
  new : party.run.AtMsgget → party.run.unsent = messages role ∧ party.run.got = []
  sees : party.run.SeesExit
  runs : party.run.Runs role

section Party

variable {limit : Limit} {role : Role} {kernel kernel' : Kernel} {party party' : Party}

theorem Kernel.later_store (kernel : Kernel) (msqid : Nat) :
    Later kernel (kernel.store msqid none) := by
  rcases kernel.store_cases msqid with ⟨_, removed⟩ | ⟨_, same⟩
  · rw [removed]
    exact ⟨Nat.le_refl _, by rintro _ _ ⟨⟩⟩
  · rw [same]
    exact ⟨Nat.le_refl _, fun _ _ named => named⟩

theorem Kernel.later_msgget (kernel : Kernel) : Later kernel kernel.msgget.1 := by
  rcases kernel.msgget_cases with ⟨_, same⟩ | ⟨_, new⟩
  · rw [same]
    exact ⟨Nat.le_refl _, fun _ _ named => named⟩
  · rw [new]
    refine ⟨Nat.le_succ _, fun msqid earlier named => ?_⟩
    cases named
    exact absurd earlier (Nat.lt_irrefl _)

theorem Effect.later (effect : Effect limit kernel party kernel' party') :
    Later kernel kernel' := by
  cases effect with
  | opens => exact kernel.later_msgget
  | puts | refused | takes | starved => exact ⟨Nat.le_refl _, fun _ _ named => named⟩
  | removes => exact kernel.later_store _

theorem Kernel.store_key (kernel : Kernel) (msqid : Nat) :
    (kernel.store msqid none).key ≠ some msqid ∧
      ∀ other, (kernel.store msqid none).key = some other → kernel.key = some other := by
  rcases kernel.store_cases msqid with ⟨_, removed⟩ | ⟨gone, same⟩
  · rw [removed]
    exact ⟨by rintro ⟨⟩, by rintro _ ⟨⟩⟩
  · rw [same]
    exact ⟨gone, fun _ named => named⟩

theorem Kernel.Named.msgget (named : kernel.Named) : kernel.msgget.1.Named := by
  rcases kernel.msgget_cases with ⟨_, same⟩ | ⟨_, new⟩
  · rw [same]
    exact named
  · rw [new]
    intro msqid isKey
    cases isKey
    exact Nat.lt_succ_self _

theorem Effect.named (effect : Effect limit kernel party kernel' party') (named : kernel.Named) :
    kernel'.Named := by
  cases effect with
  | opens => exact named.msgget
  | puts | refused | takes | starved => exact named
  | @removes id =>
      intro msqid isKey
      exact Nat.lt_of_lt_of_le (named msqid ((kernel.store_key id).2 msqid isKey))
        (kernel.later_store id).next

theorem Sound.later (sound : Sound role kernel party) (later : Later kernel kernel') :
    Sound role kernel' party where
  started := sound.started
  made msqid has := Nat.lt_of_lt_of_le (sound.made msqid has) later.next
  gone msqid has ended named :=
    sound.gone msqid has ended (later.gone msqid (sound.made msqid has) named)
  new := sound.new
  sees := sound.sees
  runs := sound.runs

theorem Sender.unsent_nextSend (process : Sender) : process.nextSend.unsent = process.todo := by
  unfold nextSend
  cases process.todo with
  | nil => rfl
  | cons message rest => rfl

theorem Run.Opens.opened {run run' : Run} (opens : run.Opens run') :
    run.AtMsgget ∧ ¬run'.AtMsgget ∧ ¬run'.HasRemoved ∧ ¬run'.HasFailed ∧
      run'.unsent = run.unsent ∧ run'.got = run.got := by
  cases opens with
  | @sender process here =>
      have next := process.nextSend_pc
      refine ⟨here, ?_, id, ?_, ?_, rfl⟩
      · rcases next with next | next <;> simp [AtMsgget, next]
      · rcases next with next | next <;> simp [HasFailed, next]
      · rw [unsent, unsent, Sender.unsent_nextSend, Sender.unsent, here]
  | receiver here =>
      refine ⟨here, ?_, ?_, ?_, rfl, rfl⟩
      · rintro ⟨⟩
      · rintro ⟨⟩
      · rintro ⟨⟩
  | opener =>
      refine ⟨rfl, ?_, ?_, id, rfl, rfl⟩
      · rintro ⟨⟩
      · rintro ⟨⟩

/-- A sender goes on to its next message. -/
theorem Run.nextSend_cases (process : Sender) :
    ¬(Run.sender process.nextSend).AtMsgget ∧ ¬(Run.sender process.nextSend).HasFailed := by
  rcases process.nextSend_pc with next | next <;> simp [AtMsgget, HasFailed, next]

/-- `receive` returns, and `main` looks for the exit message. -/
theorem Run.take_cases {process : Receiver} (here : process.pc = .msgrcv) (packet : Packet)
    (sees : (Run.receiver process).SeesExit) :
    ¬(Run.receiver (process.take packet)).AtMsgget ∧
      ¬(Run.receiver (process.take packet)).HasRemoved ∧
      ¬(Run.receiver (process.take packet)).HasFailed ∧
      (Run.receiver (process.take packet)).SeesExit := by
  have next := process.take_pc packet
  have sees : SeesExitLast process.pc.Looping process.received := sees
  have behind : SeesExitLast (process.take packet).pc.Looping (process.take packet).received := by
    rw [Receiver.take_received]
    apply sees.snoc (.inr here)
    intro goesOn
    rw [next] at goesOn
    by_contra exits
    rw [if_pos (Bool.eq_true_of_not_eq_false exits)] at goesOn
    rcases goesOn with eq | eq
    · cases eq
    · cases eq
  refine ⟨?_, ?_, ?_, behind⟩
  all_goals
    simp only [AtMsgget, HasRemoved, HasFailed, next]
    split <;> simp

/-- What one step does to the party that takes it. -/
theorem Effect.sound (effect : Effect limit kernel party kernel' party')
    (sound : Sound role kernel party) (named : kernel.Named)
    (short : ∀ packet ∈ kernel.content, kernel.key ≠ none → packet.payload.length ≤ textSize) :
    Sound role kernel' party' := by
  have later := effect.later
  cases effect with
  | opens opens =>
      rcases opens.opened with ⟨_, notAt, notRemoved, notFailed, _, _⟩
      constructor
      · exact iff_of_false (Option.some_ne_none _) notAt
      · rintro _ ⟨⟩
        exact named.msgget _ kernel.msgget_named
      · rintro _ _ (removed | failed)
        · exact absurd removed notRemoved
        · exact absurd failed notFailed
      · exact fun here => absurd here notAt
      · cases opens with
        | sender => trivial
        | receiver here => exact SeesExitLast.mono sound.sees fun _ => .inl here
        | opener => trivial
      · cases opens <;> exact sound.runs
  | @puts msqid process content here =>
      rcases Run.nextSend_cases process with ⟨notAt, notFailed⟩
      constructor
      · exact iff_of_false (Option.some_ne_none _) notAt
      · exact sound.made
      · rintro _ _ (removed | failed)
        · exact removed.elim
        · exact absurd failed notFailed
      · exact fun atMsgget => absurd atMsgget notAt
      · trivial
      · exact sound.runs
  | refused here gone =>
      constructor
      · exact iff_of_false (Option.some_ne_none _) (by rintro ⟨⟩)
      · exact sound.made
      · rintro _ ⟨⟩ _
        exact gone
      · rintro ⟨⟩
      · trivial
      · exact sound.runs
  | @takes msqid process packet rest here =>
      rcases Run.take_cases here packet sound.sees with ⟨notAt, notRemoved, notFailed, sees⟩
      constructor
      · exact iff_of_false (Option.some_ne_none _) notAt
      · exact sound.made
      · rintro _ _ (removed | failed)
        · exact absurd removed notRemoved
        · exact absurd failed notFailed
      · exact fun atMsgget => absurd atMsgget notAt
      · exact sees
      · exact sound.runs
  | starved here gone =>
      constructor
      · exact iff_of_false (Option.some_ne_none _) (by rintro ⟨⟩)
      · exact sound.made
      · rintro _ ⟨⟩ _ isKey
        rcases gone isKey with ⟨packet, isMem, long⟩
        have fits := short packet isMem (by rw [isKey]; exact Option.some_ne_none _)
        exact absurd long (Nat.not_lt.mpr fits)
      · rintro ⟨⟩
      · exact SeesExitLast.mono sound.sees fun _ => .inr here
      · exact sound.runs
  | @removes msqid run run' removes =>
      have notAt : ¬run'.AtMsgget := by
        cases removes <;> rintro ⟨⟩
      constructor
      · exact iff_of_false (Option.some_ne_none _) notAt
      · intro other has
        exact Nat.lt_of_lt_of_le (sound.made other has) later.next
      · rintro _ ⟨⟩ _
        exact (kernel.store_key msqid).1
      · exact fun atMsgget => absurd atMsgget notAt
      · cases removes with
        | receiver =>
            apply SeesExitLast.mono sound.sees
            rintro (eq | eq)
            · cases eq
            · cases eq
        | opener => trivial
      · cases removes <;> exact sound.runs

end Party

/-! ## The channels -/

/-- `msgsnd` has room for a message. -/
def Room (limit : Limit) (inside : List Pair) (pair : Pair) : Prop :=
  ∃ content, msgsnd limit (inside.map packetOfPair) (packetOfPair pair) = some content

namespace Party

/-- What a party has not put into queue `msqid`, has got from it, and is to send to it; nothing
when it has another queue. -/
def unsentAt (msqid : Nat) (party : Party) : List Pair :=
  if party.msqid = some msqid then party.run.unsent else []

@[inherit_doc unsentAt]
def gotAt (msqid : Nat) (party : Party) : List Pair :=
  if party.msqid = some msqid then party.run.got else []

@[inherit_doc unsentAt]
def messagesAt (msqid : Nat) (role : Role) (party : Party) : List Pair :=
  if party.msqid = some msqid then messages role else []

end Party

variable {ι : Type} [DecidableEq ι] {limit : Limit} {roles : ι → Role}
  {config : Config ι Kernel Party} {channels : Nat → Channel ι Pair} {i : ι} {kernel' : Kernel}
  {party' : Party}

abbrev Accounts (roles : ι → Role) (config : Config ι Kernel Party) (msqid : Nat)
    (channel : Channel ι Pair) : Prop :=
  Parts channel (fun i => (config.thread i).unsentAt msqid) (fun i => (config.thread i).gotAt msqid)
    fun i => (config.thread i).messagesAt msqid (roles i)

/-- The invariant of all runs and queues. -/
structure Inv (limit : Limit) (roles : ι → Role) (config : Config ι Kernel Party)
    (channels : Nat → Channel ι Pair) : Prop where
  named : config.shared.Named
  sound : ∀ i, Sound (roles i) config.shared (config.thread i)
  kept : ∀ msqid < config.shared.next, config.shared.key = some msqid ∨
    ∃ i, (config.thread i).msqid = some msqid ∧ (config.thread i).run.HasRemoved
  reached : ∀ msqid, Reachable (Channel.system (Room limit)) (channels msqid)
  content : ∀ msqid, config.shared.key = some msqid →
    config.shared.content = (channels msqid).inside.map packetOfPair
  unused : ∀ msqid, config.shared.next ≤ msqid → channels msqid = .empty
  accounts : ∀ msqid, Accounts roles config msqid (channels msqid)

theorem Accounts.fits {msqid : Nat} {channel : Channel ι Pair}
    (accounts : Accounts roles config msqid channel) {pair : Pair}
    (isMem : pair ∈ channel.inside) : Fits pair.2 := by
  rcases accounts.exists_whole isMem with ⟨i, isWhole⟩
  unfold Party.messagesAt at isWhole
  split at isWhole
  · exact fits_of_mem_messages isWhole
  · cases isWhole

/-- `msgrcv` takes every message that is in the queue. -/
theorem Inv.short (inv : Inv limit roles config channels) (packet : Packet)
    (isMem : packet ∈ config.shared.content) (named : config.shared.key ≠ none) :
    packet.payload.length ≤ textSize := by
  rcases Option.ne_none_iff_exists'.mp named with ⟨msqid, isKey⟩
  rw [inv.content msqid isKey] at isMem
  rcases List.mem_map.mp isMem with ⟨pair, inside, rfl⟩
  have fits := (inv.accounts msqid).fits inside
  rw [packetOfPair, List.length_append, List.length_singleton]
  exact fits.length

/-- A run that has removed its queue does not move. -/
theorem Effect.not_removed {kernel : Kernel} {party : Party}
    (effect : Effect limit kernel party kernel' party') : ¬party.run.HasRemoved := by
  cases effect with
  | opens opens =>
      cases opens with
      | sender => exact id
      | receiver here =>
          intro removed
          cases here.symm.trans removed
      | opener => rintro ⟨⟩
  | puts | refused => exact id
  | takes here | starved here =>
      intro removed
      cases here.symm.trans removed
  | removes removes =>
      cases removes with
      | receiver here =>
          intro removed
          cases here.symm.trans removed
      | opener => rintro ⟨⟩

/-- A queue that is not there any more has been removed by a party that had it. -/
theorem Inv.kept_after (inv : Inv limit roles config channels)
    (effect : Effect limit config.shared (config.thread i) kernel' party') :
    ∀ msqid < kernel'.next, kernel'.key = some msqid ∨
      ∃ j, ((config.after i (kernel', party')).thread j).msqid = some msqid ∧
        ((config.after i (kernel', party')).thread j).run.HasRemoved := by
  -- Who has removed a queue before stays where it is.
  have still {msqid : Nat} (removed : ∃ j, (config.thread j).msqid = some msqid ∧
      (config.thread j).run.HasRemoved) :
      ∃ j, ((config.after i (kernel', party')).thread j).msqid = some msqid ∧
        ((config.after i (kernel', party')).thread j).run.HasRemoved := by
    rcases removed with ⟨j, has, removed⟩
    have other : j ≠ i := by
      rintro rfl
      exact effect.not_removed removed
    refine ⟨j, ?_⟩
    rw [Config.after_of_ne other]
    exact ⟨has, removed⟩
  intro msqid made
  generalize config.thread i = party at effect
  cases effect with
  | opens =>
      rcases config.shared.msgget_cases with ⟨_, same⟩ | ⟨noKey, new⟩
      · rw [same] at made
        refine (inv.kept msqid made).imp (fun named => ?_) still
        rw [same]
        exact named
      · have made : msqid < config.shared.next + 1 := by
          rw [new] at made
          exact made
        rcases Nat.lt_succ_iff_lt_or_eq.mp made with earlier | rfl
        · rcases inv.kept msqid earlier with named | removed
          · cases noKey.symm.trans named
          · exact .inr (still removed)
        · left
          rw [new]
  | puts | refused | takes | starved => exact (inv.kept msqid made).imp_right still
  | @removes own run run' removes =>
      by_cases isOwn : msqid = own
      · subst isOwn
        right
        refine ⟨i, ?_⟩
        rw [Config.after_self]
        refine ⟨rfl, ?_⟩
        cases removes <;> rfl
      · rcases config.shared.store_cases own with ⟨isKey, removed⟩ | ⟨_, same⟩
        · have made : msqid < config.shared.next := by
            rw [removed] at made
            exact made
          rcases inv.kept msqid made with named | earlier
          · cases isKey.symm.trans named
            exact absurd rfl isOwn
          · exact .inr (still earlier)
        · rw [same] at made
          refine (inv.kept msqid made).imp (fun named => ?_) still
          rw [same]
          exact named

/-! ## One step of any party -/

/-- What does not depend on the channels. -/
theorem Inv.after (inv : Inv limit roles config channels)
    (effect : Effect limit config.shared (config.thread i) kernel' party')
    {channels' : Nat → Channel ι Pair}
    (reached : ∀ msqid, Reachable (Channel.system (Room limit)) (channels' msqid))
    (content : ∀ msqid, kernel'.key = some msqid →
      kernel'.content = (channels' msqid).inside.map packetOfPair)
    (unused : ∀ msqid, kernel'.next ≤ msqid → channels' msqid = .empty)
    (accounts : ∀ msqid, Accounts roles (config.after i (kernel', party')) msqid
      (channels' msqid)) : Inv limit roles (config.after i (kernel', party')) channels' where
  named := effect.named inv.named
  sound := Config.forall_after (P := fun j party => Sound (roles j) kernel' party)
    (effect.sound (inv.sound i) inv.named inv.short) fun j _ => (inv.sound j).later effect.later
  kept := inv.kept_after effect
  reached := reached
  content := content
  unused := unused
  accounts := accounts

/-- A party that neither puts in nor takes out. -/
theorem Accounts.same {msqid : Nat} {channel : Channel ι Pair}
    (accounts : Accounts roles config msqid channel)
    (unsent : party'.unsentAt msqid = (config.thread i).unsentAt msqid)
    (got : party'.gotAt msqid = (config.thread i).gotAt msqid)
    (own : party'.msqid = (config.thread i).msqid) :
    Accounts roles (config.after i (kernel', party')) msqid channel := by
  apply accounts.congr
  · exact Config.view_after (Party.unsentAt msqid) unsent
  · exact Config.view_after (Party.gotAt msqid) got
  · intro j
    apply Config.view_after (Party.messagesAt msqid (roles j))
    simp only [Party.messagesAt, own]

/-- A step that leaves all channels as they are. -/
theorem Inv.quiet (inv : Inv limit roles config channels)
    (effect : Effect limit config.shared (config.thread i) kernel' party')
    (content : ∀ msqid, kernel'.key = some msqid →
      config.shared.key = some msqid ∧ kernel'.content = config.shared.content)
    (own : party'.msqid = (config.thread i).msqid)
    (unsent : party'.run.unsent = (config.thread i).run.unsent)
    (got : party'.run.got = (config.thread i).run.got) :
    Inv limit roles (config.after i (kernel', party')) channels := by
  apply inv.after effect inv.reached
  · intro msqid isKey
    rw [(content msqid isKey).2]
    exact inv.content msqid (content msqid isKey).1
  · exact fun msqid later => inv.unused msqid (effect.later.next.trans later)
  · intro msqid
    apply (inv.accounts msqid).same
    · simp only [Party.unsentAt, own, unsent]
    · simp only [Party.gotAt, own, got]
    · exact own

/-- `msgget`. -/
theorem Inv.opens (inv : Inv limit roles config channels) {run run' : Run}
    (here : config.thread i = ⟨none, run⟩) (opens : run.Opens run') :
    Inv limit roles (config.after i (config.shared.msgget.1, ⟨some config.shared.msgget.2, run'⟩))
      channels := by
  have effect : Effect limit config.shared (config.thread i) config.shared.msgget.1
      ⟨some config.shared.msgget.2, run'⟩ := here ▸ .opens opens
  rcases opens.opened with ⟨atMsgget, _, _, _, unsent, got⟩
  have sound := inv.sound i
  rw [here] at sound
  rcases sound.new atMsgget with ⟨all, nothing⟩
  apply inv.after effect inv.reached
  · intro msqid isKey
    rcases config.shared.msgget_cases with ⟨_, same⟩ | ⟨_, new⟩
    · rw [same] at isKey ⊢
      exact inv.content msqid isKey
    · rw [new] at isKey ⊢
      cases isKey
      rw [inv.unused _ (Nat.le_refl _)]
      rfl
  · exact fun msqid later => inv.unused msqid (effect.later.next.trans later)
  · intro msqid
    have before : (config.thread i).msqid ≠ some msqid := by
      rw [here]
      rintro ⟨⟩
    by_cases isOwn : config.shared.msgget.2 = msqid
    · subst isOwn
      apply (inv.accounts _).gives (i := i)
      · exact if_neg before
      · rw [Config.after_self]
        simp only [Party.unsentAt, Party.messagesAt, if_pos, unsent, all]
      · intro j ne
        rw [Config.after_of_ne ne]
      · intro j ne
        rw [Config.after_of_ne ne]
      · apply Config.view_after (Party.gotAt _)
        simp only [Party.gotAt, if_neg before, if_pos, got, nothing]
    · have after : ¬some config.shared.msgget.2 = some msqid := by
        rintro ⟨⟩
        exact isOwn rfl
      apply (inv.accounts msqid).congr
      · apply Config.view_after (Party.unsentAt msqid)
        simp only [Party.unsentAt, if_neg before, if_neg after]
      · apply Config.view_after (Party.gotAt msqid)
        simp only [Party.gotAt, if_neg before, if_neg after]
      · intro j
        apply Config.view_after (Party.messagesAt msqid (roles j))
        simp only [Party.messagesAt, if_neg before, if_neg after]

theorem at_other {msqid own : Nat} (other : msqid ≠ own) {run : Run} :
    Party.unsentAt msqid ⟨some own, run⟩ = [] ∧ Party.gotAt msqid ⟨some own, run⟩ = [] := by
  have notHere : ¬some own = some msqid := by
    rintro ⟨⟩
    exact other rfl
  exact ⟨if_neg notHere, if_neg notHere⟩

/-- The channel of one queue goes on, and the others stay. -/
theorem Inv.moves (inv : Inv limit roles config channels) {own : Nat} {run run' : Run}
    {content : List Packet} {channel : Channel ι Pair} (here : config.thread i = ⟨some own, run⟩)
    (effect : Effect limit config.shared (config.thread i)
      { config.shared with content := content } ⟨some own, run'⟩)
    (named : config.shared.key = some own)
    (step : Channel.Step (Room limit) (channels own) i channel)
    (inside : content = channel.inside.map packetOfPair)
    (accounts : Accounts roles
      (config.after i ({ config.shared with content := content }, ⟨some own, run'⟩)) own channel) :
    Inv limit roles (config.after i ({ config.shared with content := content }, ⟨some own, run'⟩))
      (Function.update channels own channel) := by
  apply inv.after effect
  · intro msqid
    by_cases isOwn : msqid = own
    · subst isOwn
      rw [Function.update_self]
      exact (inv.reached msqid).snoc step
    · rw [Function.update_of_ne isOwn]
      exact inv.reached msqid
  · intro msqid isKey
    cases named.symm.trans isKey
    rw [Function.update_self]
    exact inside
  · intro msqid later
    have other : msqid ≠ own := by
      rintro rfl
      exact absurd (inv.named msqid named) (Nat.not_lt.mpr later)
    rw [Function.update_of_ne other]
    exact inv.unused msqid later
  · intro msqid
    by_cases isOwn : msqid = own
    · subst isOwn
      rw [Function.update_self]
      exact accounts
    · rw [Function.update_of_ne isOwn]
      apply (inv.accounts msqid).same
      · rw [here, (at_other isOwn).1, (at_other isOwn).1]
      · rw [here, (at_other isOwn).2, (at_other isOwn).2]
      · rw [here]

theorem at_own {own : Nat} {run : Run} :
    Party.unsentAt own ⟨some own, run⟩ = run.unsent ∧ Party.gotAt own ⟨some own, run⟩ = run.got :=
  ⟨if_pos rfl, if_pos rfl⟩

theorem Run.unsent_eq {process : Sender} (here : process.pc = .msgsnd) :
    (Run.sender process).unsent =
      process.message.pair :: (Run.sender process.nextSend).unsent := by
  rw [Run.unsent, Run.unsent, Sender.unsent_nextSend, Sender.unsent, here, List.map_cons]

/-- The message that a sender is sending fits. -/
theorem Inv.fits (inv : Inv limit roles config channels) {own : Nat} {process : Sender}
    (here : config.thread i = ⟨some own, .sender process⟩) (atSend : process.pc = .msgsnd) :
    Fits process.message.text := by
  have account := (inv.accounts own).account i
  simp only [here, at_own, Run.unsent_eq atSend, Party.messagesAt, if_pos] at account
  have isMem : process.message.pair ∈ messages (roles i) := by
    rw [← account]
    exact List.mem_append_right _ List.mem_cons_self
  exact fits_of_mem_messages isMem

/-- A successful `msgsnd`. -/
theorem Inv.puts (inv : Inv limit roles config channels) {own : Nat} {process : Sender}
    {content : List Packet} (here : config.thread i = ⟨some own, .sender process⟩)
    (atSend : process.pc = .msgsnd) (named : config.shared.key = some own)
    (accepted : msgsnd limit config.shared.content (packetOf process.message) = some content) :
    ∃ channels', Inv limit roles
      (config.after i ({ config.shared with content := content },
        ⟨some own, .sender process.nextSend⟩)) channels' := by
  have unsent := Run.unsent_eq atSend
  have accounts := inv.accounts own
  have isPacket := packetOf_eq (inv.fits here atSend)
  have before := inv.content own named
  have room : Room limit (channels own).inside process.message.pair := by
    refine ⟨content, ?_⟩
    rw [← before, ← isPacket]
    exact accepted
  refine ⟨_, inv.moves here (here ▸ .puts atSend named accepted) named (.put (i := i) room) ?_ ?_⟩
  · unfold msgsnd at accepted
    split at accepted
    · cases accepted
      rw [Channel.puts_inside, List.map_append, List.map_singleton, before, isPacket]
    · cases accepted
  · apply Parts.congr (accounts.puts (i := i) _ _ _) (fun _ => rfl) (fun _ => rfl)
    · intro j
      apply Config.view_after (Party.messagesAt own (roles j))
      rw [here]
      rfl
    · simp only [here, Config.after_self, at_own, unsent]
    · intro j ne
      rw [Config.after_of_ne ne]
    · apply Config.view_after (Party.gotAt own)
      rw [here]
      rfl

/-- A successful `msgrcv`. -/
theorem Inv.takes (inv : Inv limit roles config channels) {own : Nat} {process : Receiver}
    {packet : Packet} {rest : List Packet}
    (here : config.thread i = ⟨some own, .receiver process⟩) (atReceive : process.pc = .msgrcv)
    (named : config.shared.key = some own) (first : config.shared.content = packet :: rest)
    (short : packet.payload.length ≤ textSize) :
    ∃ channels', Inv limit roles
      (config.after i ({ config.shared with content := rest },
        ⟨some own, .receiver (process.take packet)⟩)) channels' := by
  have accounts := inv.accounts own
  have before := inv.content own named
  rw [first] at before
  rcases List.map_eq_cons_iff.mp before.symm with ⟨pair, others, inside, rfl, isRest⟩
  have fits : Fits pair.2 := by
    apply accounts.fits
    rw [inside]
    exact List.mem_cons_self
  have got : (Run.receiver (process.take (packetOfPair pair))).got =
      (Run.receiver process).got ++ [pair] := by
    rw [Run.got, Run.got, Receiver.take_received, List.map_append, List.map_singleton,
      unpack_packetOfPair fits]
  refine ⟨_, inv.moves here (here ▸ .takes atReceive named first short) named
    (.take inside) isRest.symm ?_⟩
  apply Parts.congr (accounts.takes inside _ _ _) (fun _ => rfl) (fun _ => rfl)
  · intro j
    apply Config.view_after (Party.messagesAt own (roles j))
    rw [here]
    rfl
  · simp only [here, Config.after_self, at_own, got]
  · intro j ne
    rw [Config.after_of_ne ne]
  · apply Config.view_after (Party.unsentAt own)
    rw [here]
    rfl

/-- Whatever a party does. -/
theorem Inv.step (inv : Inv limit roles config channels)
    (step : (config.thread i).step limit config.shared = some (kernel', party')) :
    ∃ channels', Inv limit roles (config.after i (kernel', party')) channels' := by
  have effect := effect_of_step (inv.sound i).started step
  generalize isParty : config.thread i = party at effect
  have same := effect
  cases effect with
  | opens opens => exact ⟨channels, inv.opens isParty opens⟩
  | puts here named accepted => exact inv.puts isParty here named accepted
  | refused here =>
      refine ⟨channels, inv.quiet (isParty ▸ same) (fun _ named => ⟨named, rfl⟩) ?_ ?_ ?_⟩
      · rw [isParty]
      · simp only [isParty, Run.unsent, Sender.unsent, Sender.goto, here]
      · rw [isParty]
        rfl
  | takes here named first short => exact inv.takes isParty here named first short
  | starved =>
      refine ⟨channels, inv.quiet (isParty ▸ same) (fun _ named => ⟨named, rfl⟩) ?_ ?_ ?_⟩
      · rw [isParty]
      · rw [isParty]
        rfl
      · rw [isParty]
        rfl
  | @removes own run run' removes =>
      refine ⟨channels, inv.quiet (isParty ▸ same) (fun msqid named => ?_) ?_ ?_ ?_⟩
      · rcases config.shared.store_cases own with ⟨_, removed⟩ | ⟨_, kept⟩
        · rw [removed] at named
          cases named
        · rw [kept] at named ⊢
          exact ⟨named, rfl⟩
      · rw [isParty]
      · rw [isParty]
        cases removes <;> rfl
      · rw [isParty]
        cases removes <;> rfl

theorem inv_of_reachable (reachable : Reachable (runs limit roles).system config) :
    ∃ channels, Inv limit roles config channels := by
  apply reachable.invariant (P := fun config => ∃ channels, Inv limit roles config channels)
  · rintro config ⟨shared, threads⟩
    have noKey (msqid : Nat) : config.shared.key ≠ some msqid := by
      rw [shared]
      rintro ⟨⟩
    have noQueue (i : ι) (msqid : Nat) : (config.thread i).msqid ≠ some msqid := by
      rw [threads]
      rcases roles i with (file | file) | _ <;> rintro ⟨⟩
    refine ⟨fun _ => .empty, ⟨?_, fun i => ?_, ?_, fun _ => .start rfl, ?_, fun _ _ => rfl, ?_⟩⟩
    · exact fun msqid isKey => absurd isKey (noKey msqid)
    · rw [threads]
      rcases roles i with (_ | file) | _
      · exact ⟨iff_of_true rfl rfl, by rintro _ ⟨⟩, by rintro _ ⟨⟩, fun _ => ⟨rfl, rfl⟩, trivial,
          rfl⟩
      · exact ⟨iff_of_true rfl rfl, by rintro _ ⟨⟩, by rintro _ ⟨⟩, fun _ => ⟨rfl, rfl⟩, trivial,
          file, rfl⟩
      · exact ⟨iff_of_true rfl rfl, by rintro _ ⟨⟩, by rintro _ ⟨⟩, fun _ => ⟨rfl, rfl⟩, .start,
          rfl⟩
    · intro msqid made
      rw [shared] at made
      exact absurd made (Nat.not_lt_zero msqid)
    · exact fun msqid isKey => absurd isKey (noKey msqid)
    · intro msqid
      apply Parts.empty
      · intro i
        simp only [Party.unsentAt, Party.messagesAt, if_neg (noQueue i msqid)]
      · intro i
        exact if_neg (noQueue i msqid)
  · rintro config i _ ⟨channels, inv⟩ ⟨⟨kernel', party'⟩, step, rfl⟩
    exact inv.step step

/-! ## The end of a run -/

/-- A run that has not ended can move, but for a sender without room and a receiver without a
message. -/
theorem Inv.blocked (inv : Inv limit roles config channels) {msqid : Nat} {run : Run}
    (here : config.thread i = ⟨some msqid, run⟩)
    (stuck : (config.thread i).step limit config.shared = none) :
    run.HasEnded ∨
      (∃ process, run = .sender process ∧ config.shared.key = some msqid ∧
        config.shared.content ≠ []) ∨
      ∃ process, run = .receiver process ∧ process.pc = .msgrcv ∧
        config.shared.key = some msqid ∧ config.shared.content = [] := by
  have started := (inv.sound i).started
  rw [here] at started stuck
  have notAt : ¬run.AtMsgget := fun atMsgget => Option.some_ne_none _ (started.mpr atMsgget)
  have named {queue : List Packet} (isQueue : config.shared.queue msqid = some queue) :
      config.shared.key = some msqid ∧ config.shared.content = queue := by
    by_cases isKey : config.shared.key = some msqid
    · exact ⟨isKey, Option.some.inj ((config.shared.queue_of_named isKey).symm.trans isQueue)⟩
    · cases (config.shared.queue_of_gone isKey).symm.trans isQueue
  cases run with
  | sender process =>
      have blocked := Option.map_eq_none_iff.mp stuck
      unfold senderStep at blocked
      split at blocked
      next atMsgget => exact absurd atMsgget notAt
      next atSend =>
        split at blocked
        next => cases blocked
        next queue isQueue =>
          rcases named isQueue with ⟨isKey, content⟩
          refine .inr (.inl ⟨process, rfl, isKey, fun none => ?_⟩)
          -- A message of any size has room in a queue without messages.
          rw [← content, none] at blocked
          exact msgsnd_nil (inv.fits here atSend) (Option.map_eq_none_iff.mp blocked)
      next failed => exact .inl (.inl failed)
      next finished => exact .inl (.inr finished)
  | receiver process =>
      have blocked := Option.map_eq_none_iff.mp stuck
      unfold receiverStep at blocked
      split at blocked
      next atMsgget => exact absurd atMsgget notAt
      next atReceive =>
        split at blocked
        next => cases blocked
        next isQueue =>
          rcases named isQueue with ⟨isKey, content⟩
          exact .inr (.inr ⟨process, rfl, atReceive, isKey, content⟩)
        next => split at blocked <;> cases blocked
      next => cases blocked
      next failed => exact .inl (.inl failed)
      next finished => exact .inl (.inr finished)
  | opener pc =>
      cases pc with
      | msgget => exact absurd rfl notAt
      | msgctl => cases stuck
      | failed => exact .inl rfl

/-- A receiver that has ended has not the queue that the key names, nor has a sender whose
`msgsnd` has failed. -/
theorem Inv.not_named (inv : Inv limit roles config channels) {msqid : Nat} {run : Run}
    (here : config.thread i = ⟨some msqid, run⟩) (ended : run.HasRemoved ∨ run.HasFailed) :
    config.shared.key ≠ some msqid := by
  apply (inv.sound i).gone
  · rw [here]
  · rw [here]
    exact ended

/-- The receiver of an exit message does not stay in its loop. -/
theorem Inv.exit_not_taken (inv : Inv limit roles config channels) {msqid : Nat}
    (stuck : ∀ i, (config.thread i).step limit config.shared = none)
    (isKey : config.shared.key = some msqid) {pair : Pair}
    (taken : (i, pair) ∈ (channels msqid).taken) : pair.2 ≠ exitMessage := by
  intro isExit
  have got : pair ∈ (config.thread i).gotAt msqid := by
    rw [← (inv.accounts msqid).received i]
    exact mem_own.mpr taken
  unfold Party.gotAt at got
  split at got
  next has =>
    have sees := (inv.sound i).sees
    have here : config.thread i = ⟨some msqid, (config.thread i).run⟩ := by
      rw [← has]
    generalize (config.thread i).run = run at got sees here
    cases run with
    | sender => cases got
    | opener => cases got
    | receiver process =>
        have sees : SeesExitLast process.pc.Looping process.received := sees
        rcases List.mem_map.mp got with ⟨message, received, rfl⟩
        have notLooping : ¬process.pc.Looping := fun looping =>
          sees.none looping message received isExit
        rcases inv.blocked here (stuck i) with (failed | finished) | ⟨_, other, _⟩ |
            ⟨_, same, atReceive, _⟩
        · exact inv.not_named here (.inr failed) isKey
        · exact inv.not_named here (.inl finished) isKey
        · cases other
        · cases same
          exact notLooping (.inr atReceive)
  next => cases got

/-- Where nobody can move, a sender and a receiver of one queue have ended. -/
theorem Inv.both_ended (inv : Inv limit roles config channels)
    (stuck : ∀ i, (config.thread i).step limit config.shared = none) {msqid : Nat} {j : ι}
    {process : Sender} {process' : Receiver}
    (sends : config.thread i = ⟨some msqid, .sender process⟩)
    (receives : config.thread j = ⟨some msqid, .receiver process'⟩) :
    (Run.sender process).HasEnded ∧ (Run.receiver process').HasEnded := by
  have ended (receiverEnded : (Run.receiver process').HasEnded) :
      config.shared.key ≠ some msqid := by
    apply inv.not_named receives
    rcases receiverEnded with failed | finished
    · exact .inr failed
    · exact .inl finished
  rcases inv.blocked sends (stuck i) with senderEnded | ⟨_, _, isKey, some⟩ | ⟨_, other, _⟩
  · refine ⟨senderEnded, ?_⟩
    rcases inv.blocked receives (stuck j) with receiverEnded | ⟨_, other, _⟩ |
        ⟨_, _, _, isKey, none⟩
    · exact receiverEnded
    · cases other
    · exfalso
      rcases senderEnded with failed | finished
      · exact inv.not_named sends (.inr failed) isKey
      -- All messages of the sender have been taken out, and the exit message is one of them.
      have nothing : (channels msqid).inside = [] := by
        have content := inv.content msqid isKey
        rw [none] at content
        exact List.map_eq_nil_iff.mp content.symm
      rcases (inv.sound i).runs with runs
      rw [sends] at runs
      rcases runs with ⟨file, isRole⟩
      have account := (inv.accounts msqid).account i
      simp only [sends, at_own, Party.messagesAt, if_pos, Run.unsent, Sender.unsent, finished,
        List.map_nil, List.append_nil, isRole, messages] at account
      have isSent : endMarker.pair ∈ own i (channels msqid).put := by
        rw [account, sentMessages_eq, List.map_append]
        exact List.mem_append_right _ List.mem_cons_self
      have taken : endMarker.pair ∈ (channels msqid).taken.map Prod.snd := by
        have fifo := (channels msqid).fifo
        rw [nothing, List.append_nil] at fifo
        rw [← fifo]
        exact List.mem_map_of_mem (mem_own.mp isSent)
      rcases List.mem_map.mp taken with ⟨⟨k, pair⟩, isEntry, isMarker⟩
      dsimp only at isMarker
      subst isMarker
      exact inv.exit_not_taken stuck isKey isEntry (text_ofText fits_exitMessage 2)
  · exfalso
    rcases inv.blocked receives (stuck j) with receiverEnded | ⟨_, other, _⟩ | ⟨_, _, _, _, none⟩
    · exact ended receiverEnded isKey
    · cases other
    · exact some none
  · cases other

/-! ## Every run is finite -/

theorem receiverStep_sender {s s' : State} (step : receiverStep s = some s') :
    s'.sender = s.sender := by
  unfold receiverStep at step
  split at step
  · cases step
    rfl
  · split at step
    · cases step
      rfl
    · cases step
    · split at step <;> cases step <;> rfl
  · cases step
    rfl
  · cases step
  · cases step

/-- How many steps a run can still cause. -/
def Run.rank : Run → Nat
  | .sender process => process.rank
  | .receiver process => process.pc.rank
  | .opener .msgget => 2
  | .opener .msgctl => 1
  | .opener .failed => 0

/-- No more messages come in than those of the queue that is stored. -/
theorem Kernel.length_store (kernel : Kernel) (msqid : Nat) (queue : Option (List Packet)) :
    (kernel.store msqid queue).content.length + ((kernel.queue msqid).getD []).length ≤
      kernel.content.length + (queue.getD []).length := by
  by_cases named : kernel.key = some msqid
  · rw [kernel.queue_of_named named]
    cases queue with
    | some content => exact Nat.le_of_eq (Nat.add_comm _ _)
    | none =>
        have removed : kernel.store msqid none = ⟨none, kernel.next, []⟩ := if_pos named
        rw [removed]
        exact Nat.le_of_eq (Nat.add_comm _ _)
  · rw [kernel.queue_of_gone named]
    cases queue with
    | some content => exact Nat.le_add_left _ _
    | none =>
        rw [kernel.store_of_gone named]

theorem rank_stepOn {kernel : Kernel} {msqid : Nat} {run : Run}
    (step : Party.stepOn limit kernel msqid run = some (kernel', party')) :
    party'.run.rank + kernel'.content.length < run.rank + kernel.content.length := by
  cases run with
  | sender process =>
      rcases Option.map_eq_some_iff.mp step with ⟨s, moved, result⟩
      cases result
      have lower := senderStep_lowers moved
      have stored := kernel.length_store msqid s.queue
      simp only [measure, senderStep_receiver moved] at lower
      simp only [Run.rank]
      omega
  | receiver process =>
      rcases Option.map_eq_some_iff.mp step with ⟨s, moved, result⟩
      cases result
      have lower := receiverStep_lowers moved
      have stored := kernel.length_store msqid s.queue
      simp only [measure, receiverStep_sender moved] at lower
      simp only [Run.rank]
      omega
  | opener pc =>
      have stored := kernel.length_store msqid none
      rw [Option.getD_none, List.length_nil] at stored
      cases pc with
      | msgget =>
          cases step
          exact Nat.add_lt_add_right (Nat.lt_succ_self 1) _
      | msgctl =>
          cases step
          simp only [Run.rank]
          omega
      | failed => cases step

theorem rank_step {kernel : Kernel} {party : Party}
    (step : party.step limit kernel = some (kernel', party')) :
    party'.run.rank + kernel'.content.length < party.run.rank + kernel.content.length := by
  rcases party with ⟨msqid, run⟩
  cases msqid with
  | some msqid => exact rank_stepOn step
  | none =>
      have lower : party'.run.rank + kernel'.content.length <
          run.rank + kernel.msgget.1.content.length := rank_stepOn step
      apply Nat.lt_of_lt_of_le lower
      apply Nat.add_le_add_left
      rcases kernel.msgget_cases with ⟨_, same⟩ | ⟨_, new⟩
      · rw [same]
      · rw [new]
        exact Nat.zero_le _

/-- What all runs have left. -/
def stepsLeft [Fintype ι] (config : Config ι Kernel Party) : Nat :=
  (∑ i, (config.thread i).run.rank) + config.shared.content.length

theorem stepsLeft_step [Fintype ι] {config' : Config ι Kernel Party}
    (stepped : (runs limit roles).system.step config i config') :
    stepsLeft config' < stepsLeft config := by
  rcases stepped with ⟨⟨kernel', party'⟩, step, rfl⟩
  have lower := rank_step step
  have total := Config.sum_after (fun party => party.run.rank) config i kernel' party'
  simp only [stepsLeft, Config.after_shared]
  omega

theorem exists_bound [Fintype ι] (limit : Limit) (roles : ι → Role) :
    ∃ bound, ∀ events config, Trace (runs limit roles).system events config →
      events.length ≤ bound := by
  have start : ∀ config, (runs limit roles).system.init config →
      stepsLeft config ≤ ∑ i, (Party.start (roles i)).run.rank := by
    rintro config ⟨shared, threads⟩
    simp only [stepsLeft, shared, threads]
    exact Nat.le_refl _
  refine ⟨∑ i, (Party.start (roles i)).run.rank, fun events config trace => ?_⟩
  have length := trace.length_le start fun _ _ _ step => stepsLeft_step step
  exact Nat.le_of_add_right_le length

/-! ## The contract -/

/-- Any number of runs of both programs share the queues, in any order.  Every queue carries its
messages as a channel does: what each sender has put in, with what it has left, are the messages
of its file in their order, what each receiver has got is what it took out, and what is taken out
is what was put in, in the same order.  No party has any part in another queue than its own, and
a queue is there until a party that has it removes it. -/
theorem queues_shared (reachable : Reachable (runs limit roles).system config) :
    ∃ channels : Nat → Channel ι Pair,
      (∀ msqid, Reachable (Channel.system (Room limit)) (channels msqid)) ∧
      (∀ msqid, config.shared.key = some msqid →
        config.shared.content = (channels msqid).inside.map packetOfPair) ∧
      (∀ i msqid, (config.thread i).msqid = some msqid →
        own i (channels msqid).put ++ (config.thread i).run.unsent = messages (roles i) ∧
          own i (channels msqid).taken = (config.thread i).run.got) ∧
      (∀ i msqid, (config.thread i).msqid ≠ some msqid →
        own i (channels msqid).put = [] ∧ own i (channels msqid).taken = []) ∧
      ∀ msqid < config.shared.next, config.shared.key = some msqid ∨
        ∃ i, (config.thread i).msqid = some msqid ∧ (config.thread i).run.HasRemoved := by
  rcases inv_of_reachable reachable with ⟨channels, inv⟩
  refine ⟨channels, inv.reached, inv.content, fun i msqid has => ?_, fun i msqid other => ?_,
    inv.kept⟩
  · have account := (inv.accounts msqid).account i
    have received := (inv.accounts msqid).received i
    simp only [Party.unsentAt, Party.messagesAt, if_pos has] at account
    simp only [Party.gotAt, if_pos has] at received
    exact ⟨account, received⟩
  · have account := (inv.accounts msqid).account i
    have received := (inv.accounts msqid).received i
    simp only [Party.unsentAt, Party.messagesAt, if_neg other, List.append_nil] at account
    simp only [Party.gotAt, if_neg other] at received
    exact ⟨account, received⟩

/-- A sender with the line `hi`, one that cannot open its file, and a receiver. -/
inductive Three
  | sends
  | cannotOpen
  | receives
  deriving DecidableEq

def threeParties : Three → Role
  | .sends => .sender (some [104, 105, newline])
  | .cannotOpen => .sender none
  | .receives => .receiver

def threePartiesStart : Config Three Kernel Party :=
  ⟨⟨none, 0, []⟩, fun i => .start (threeParties i)⟩

/-- The receiver takes the line out, and the second sender then removes the queue. -/
def removedUnderway : List Three :=
  [.sends, .cannotOpen, .receives, .sends, .receives, .sends, .cannotOpen, .receives]

/-- The exit message is not received. -/
theorem removedUnderway_ends :
    (((runs ⟨textSize, Nat.le_refl _⟩ threeParties).run removedUnderway threePartiesStart).any
      fun config => decide ((config.thread .receives).run.got = [(1, [104, 105])] ∧
        config.shared.key = none)) = true := by
  decide +kernel

theorem queues_shared_removedUnderway : ∃ config,
    Reachable (runs ⟨textSize, Nat.le_refl _⟩ threeParties).system config ∧
    (config.thread .receives).run.got = [(1, [104, 105])] ∧ config.shared.key = none ∧
    ∃ channels : Nat → Channel Three Pair,
      (∀ msqid, Reachable (Channel.system (Room ⟨textSize, Nat.le_refl _⟩)) (channels msqid)) ∧
      (∀ msqid, config.shared.key = some msqid →
        config.shared.content = (channels msqid).inside.map packetOfPair) ∧
      (∀ i msqid, (config.thread i).msqid = some msqid →
        own i (channels msqid).put ++ (config.thread i).run.unsent = messages (threeParties i) ∧
          own i (channels msqid).taken = (config.thread i).run.got) ∧
      (∀ i msqid, (config.thread i).msqid ≠ some msqid →
        own i (channels msqid).put = [] ∧ own i (channels msqid).taken = []) ∧
      ∀ msqid < config.shared.next, config.shared.key = some msqid ∨
        ∃ i, (config.thread i).msqid = some msqid ∧ (config.thread i).run.HasRemoved := by
  rcases (Option.any_eq_true _ _).mp removedUnderway_ends with ⟨config, ran, here⟩
  rcases of_decide_eq_true here with ⟨got, removed⟩
  have started : Trace (runs ⟨textSize, Nat.le_refl _⟩ threeParties).system [] threePartiesStart :=
    .start ⟨rfl, fun _ => rfl⟩
  have reachable : Reachable (runs ⟨textSize, Nat.le_refl _⟩ threeParties).system config :=
    ⟨_, Program.trace_run removedUnderway started ran⟩
  exact ⟨config, reachable, got, removed, queues_shared reachable⟩

/-- However many runs there are: every run is finite, and where no party can move, a sender and a
receiver that have got the same queue have both ended. -/
theorem queues_never_stuck [Fintype ι] (limit : Limit) (roles : ι → Role) :
    (∃ bound, ∀ events config, Trace (runs limit roles).system events config →
      events.length ≤ bound) ∧
      ∀ config, Reachable (runs limit roles).system config →
        (∀ i, (config.thread i).step limit config.shared = none) →
          ∀ i j msqid process process', config.thread i = ⟨some msqid, .sender process⟩ →
            config.thread j = ⟨some msqid, .receiver process'⟩ →
              (Run.sender process).HasEnded ∧ (Run.receiver process').HasEnded := by
  refine ⟨exists_bound limit roles, fun config reachable stuck i j msqid process process' => ?_⟩
  rcases inv_of_reachable reachable with ⟨channels, inv⟩
  exact inv.both_ended stuck

end NckuOs.Ipc.MessageQueue
