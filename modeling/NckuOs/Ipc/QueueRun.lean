import NckuOs.Ipc.EndMarker
import NckuOs.Ipc.MessageQueue
import NckuOs.Ipc.Preserved

/-!
# Runs with the message queue

The messages received, those in the queue and those not sent yet make up the stream, in
this order and with their types.  So the receiver stops at the end marker unless a line
spells it.
-/

namespace NckuOs.Ipc.MessageQueue

open NckuOs.Interleaving
open NckuOs.Transition

variable {limit : Limit} {sent : List Message} {s s' : State}

/-! ## The invariant -/

/-- The messages that the sender has not put into the queue yet. -/
def Sender.pending (sender : Sender) : List Message :=
  match sender.pc with
  | .msgget => sender.todo
  | .msgsnd => sender.message :: sender.todo
  | .failed => []
  | .finished => []

theorem Sender.pending_nextSend (sender : Sender) : sender.nextSend.pending = sender.todo := by
  unfold nextSend
  cases sender.todo with
  | nil => rfl
  | cons message rest => rfl

/-- Messages are exchanged; `inQueue` are those in the queue. -/
structure Exchange (sent inQueue : List Message) (s : State) : Prop where
  queue : s.queue.getD [] = inQueue.map packetOf
  opened : s.sender.pc ≠ .msgget ∨ s.receiver.pc ≠ .msgget → s.queue ≠ none
  account : s.receiver.received.map Message.pair ++ inQueue.map Message.pair ++
    s.sender.pending.map Message.pair = sent.map Message.pair
  fresh : s.sender.pc = .msgget → s.sender.todo = sent
  senderHere : s.sender.pc ≠ .failed
  receiverHere : s.receiver.pc = .msgget ∨ s.receiver.pc = .msgrcv
  notExited : ∀ message ∈ s.receiver.received, message.text ≠ exitMessage

/-- How a run goes. -/
inductive Phase (sent : List Message) (s : State) : Prop
  | exchange (inQueue : List Message) (exchange : Exchange sent inQueue s)
  | closing (senderHere : s.sender.pc = .finished) (receiverHere : s.receiver.pc.HasLeft)
      (all : s.receiver.received.map Message.pair = sent.map Message.pair)

theorem phase_start : Phase sent (startState sent) :=
  .exchange []
    { queue := rfl
      opened := by
        intro later
        rcases later with notHere | notHere
        · exact absurd rfl notHere
        · exact absurd rfl notHere
      account := rfl
      fresh := fun _ => rfl
      senderHere := by
        intro eq
        cases eq
      receiverHere := .inl rfl
      notExited := by
        intro message isMem
        cases isMem }

/-! ## The steps -/

theorem Sender.nextSend_pc (sender : Sender) :
    sender.nextSend.pc = .msgsnd ∨ sender.nextSend.pc = .finished := by
  unfold nextSend
  cases sender.todo with
  | nil => exact .inr rfl
  | cons message rest => exact .inl rfl

/-- The sender goes on to its next message. -/
theorem Exchange.nextSend {inQueue inQueue' : List Message} {queue : List Packet}
    (exchange : Exchange sent inQueue s) (packets : queue = inQueue'.map packetOf)
    (account : s.receiver.received.map Message.pair ++ inQueue'.map Message.pair ++
      s.sender.todo.map Message.pair = sent.map Message.pair) :
    Exchange sent inQueue' { s with queue := some queue, sender := s.sender.nextSend } where
  queue := packets
  opened _ := Option.some_ne_none _
  account := by
    rw [Sender.pending_nextSend]
    exact account
  fresh here := by
    have here : s.sender.nextSend.pc = .msgget := here
    rcases s.sender.nextSend_pc with next | next
    · cases here.symm.trans next
    · cases here.symm.trans next
  senderHere failed := by
    have failed : s.sender.nextSend.pc = .failed := failed
    rcases s.sender.nextSend_pc with next | next
    · cases failed.symm.trans next
    · cases failed.symm.trans next
  receiverHere := exchange.receiverHere
  notExited := exchange.notExited

theorem Phase.senderMoves (phase : Phase sent s) (step : senderStep limit s = some s') :
    Phase sent s' := by
  unfold senderStep at step
  cases phase with
  | exchange inQueue exchange =>
      have account := exchange.account
      split at step
      next here =>
        cases step
        apply Phase.exchange inQueue
        apply exchange.nextSend exchange.queue
        rw [Sender.pending, here] at account
        exact account
      next here =>
        have isOpen : s.queue ≠ none := by
          apply exchange.opened
          left
          rw [here]
          intro eq
          cases eq
        split at step
        next noQueue => exact absurd noQueue isOpen
        next queue isQueue =>
          rcases Option.map_eq_some_iff.mp step with ⟨queue', accepted, rfl⟩
          unfold msgsnd at accepted
          split at accepted
          · cases accepted
            have packets : queue = inQueue.map packetOf := by
              have packets := exchange.queue
              rw [isQueue] at packets
              exact packets
            apply Phase.exchange (inQueue ++ [s.sender.message])
            apply exchange.nextSend
            · rw [List.map_append, packets]
              rfl
            · rw [← account, Sender.pending, here, List.map_append, List.map_cons]
              simp only [List.map_cons, List.map_nil, List.append_assoc, List.singleton_append]
          · cases accepted
      next => cases step
      next => cases step
  | closing senderHere receiverHere all =>
      rw [senderHere] at step
      cases step

/-- Nothing follows the message with the exit text. -/
theorem Exchange.rest_eq_nil {message : Message} {rest : List Message}
    (stream : Stream (sent.map Message.text)) (exchange : Exchange sent (message :: rest) s)
    (isExit : message.text = exitMessage) : rest = [] ∧ s.sender.pending = [] := by
  have account : s.receiver.received.map Message.text ++
      exitMessage :: (rest.map Message.text ++ s.sender.pending.map Message.text) =
        sent.map Message.text := by
    have texts := congrArg (List.map Prod.snd) exchange.account
    simp only [List.map_append, List.map_map, List.map_cons, List.append_assoc] at texts
    rw [← isExit]
    exact texts
  have nothing := List.append_eq_nil_iff.mp (stream.rest_eq_nil account)
  constructor
  · exact List.map_eq_nil_iff.mp nothing.1
  · exact List.map_eq_nil_iff.mp nothing.2

/-- A sender with nothing left is at its end. -/
theorem Exchange.sender_finished {inQueue : List Message}
    (stream : Stream (sent.map Message.text)) (exchange : Exchange sent inQueue s)
    (none : s.sender.pending = []) : s.sender.pc = .finished := by
  rcases stream.ends with ⟨front, ends, _⟩
  unfold Sender.pending at none
  split at none
  next here =>
    rw [exchange.fresh here] at none
    rw [none] at ends
    exact absurd ends.symm (List.append_ne_nil_of_right_ne_nil _ (List.cons_ne_nil _ _))
  next => cases none
  next here => exact absurd here exchange.senderHere
  next here => exact here

/-- `receive` returns with the first message of the queue. -/
theorem Exchange.receive {message : Message} {rest : List Message}
    (stream : Stream (sent.map Message.text)) (exchange : Exchange sent (message :: rest) s)
    (same : (unpack s.receiver.message (packetOf message)).pair = message.pair) :
    Phase sent
      { s with
        queue := some (rest.map packetOf)
        receiver := s.receiver.take (packetOf message) } := by
  have account := exchange.account
  have received : (s.receiver.take (packetOf message)).received.map Message.pair =
      s.receiver.received.map Message.pair ++ [message.pair] := by
    rw [Receiver.take_received, List.map_append, List.map_singleton, same]
  have sameText : (unpack s.receiver.message (packetOf message)).text = message.text :=
    text_of_pair same
  by_cases isExit : message.text = exitMessage
  · rcases exchange.rest_eq_nil stream isExit with ⟨rfl, none⟩
    have finished := exchange.sender_finished stream none
    apply Phase.closing
    · exact finished
    · have left : (s.receiver.take (packetOf message)).pc = .msgctl := by
        rw [Receiver.take_pc, if_pos (isExit_iff.mpr (sameText.trans isExit))]
      rw [left]
      trivial
    · rw [none] at account
      simp only [List.map_cons, List.map_nil, List.append_nil] at account
      exact received.trans account
  · have stays : (s.receiver.take (packetOf message)).pc = .msgrcv := by
      rw [Receiver.take_pc, if_neg]
      intro exits
      exact isExit (sameText.symm.trans (isExit_iff.mp exits))
    apply Phase.exchange rest
    constructor
    · rfl
    · intro _
      exact Option.some_ne_none _
    · rw [received, ← account, List.map_cons]
      simp only [List.append_assoc, List.cons_append, List.nil_append]
    · exact exchange.fresh
    · exact exchange.senderHere
    · exact .inr stays
    · intro other isMem
      rw [Receiver.take_received] at isMem
      rcases List.mem_append.mp isMem with old | isNew
      · exact exchange.notExited other old
      · rw [List.mem_singleton.mp isNew, sameText]
        exact isExit

/-- A message that is sent fits. -/
theorem fits_of_pair {message : Message} (stream : Stream (sent.map Message.text))
    (isMem : message.pair ∈ sent.map Message.pair) : Fits message.text := by
  apply stream.fits
  rcases List.mem_map.mp isMem with ⟨other, inSent, same⟩
  rw [← text_of_pair same]
  exact List.mem_map_of_mem inSent

theorem Phase.receiverMoves (stream : Stream (sent.map Message.text)) (phase : Phase sent s)
    (step : receiverStep s = some s') : Phase sent s' := by
  unfold receiverStep at step
  cases phase with
  | exchange inQueue exchange =>
      have packets := exchange.queue
      rcases exchange.receiverHere with here | here
      · rw [here] at step
        cases step
        apply Phase.exchange inQueue
        constructor
        · exact packets
        · intro _
          exact Option.some_ne_none _
        · exact exchange.account
        · exact exchange.fresh
        · exact exchange.senderHere
        · exact .inr rfl
        · exact exchange.notExited
      · rw [here] at step
        have isOpen : s.queue ≠ none := by
          apply exchange.opened
          right
          rw [here]
          intro eq
          cases eq
        dsimp only at step
        split at step
        next noQueue => exact absurd noQueue isOpen
        next => cases step
        next packet rest isQueue =>
          rw [isQueue] at packets
          cases inQueue with
          | nil => cases packets
          | cons message later =>
              have packets : packet :: rest = packetOf message :: later.map packetOf := packets
              cases packets
              have isSent : message.pair ∈ sent.map Message.pair := by
                rw [← exchange.account]
                apply List.mem_append_left
                apply List.mem_append_right
                exact List.mem_cons_self
              have fits := fits_of_pair stream isSent
              have short : ¬(packetOf message).payload.length > textSize := by
                rw [length_packetOf fits]
                exact Nat.not_lt.mpr fits.length
              rw [if_neg short] at step
              cases step
              exact exchange.receive stream (pair_unpack fits s.receiver.message)
  | closing senderHere receiverHere all =>
      split at step
      next here =>
        rw [here] at receiverHere
        cases receiverHere
      next here =>
        rw [here] at receiverHere
        cases receiverHere
      next =>
        cases step
        exact .closing senderHere trivial all
      next => cases step
      next => cases step

theorem phase_of_reachable (stream : Stream (sent.map Message.text))
    (reachable : Reachable (processes limit sent).system s) : Phase sent s := by
  apply Pair.invariant (P := Phase sent) phase_start _ _ reachable
  · intro state next phase step
    exact phase.senderMoves step
  · intro state next phase step
    exact phase.receiverMoves stream step

/-! ## Every run is finite -/

/-- How many steps the sender can still cause. -/
def Sender.rank (sender : Sender) : Nat :=
  match sender.pc with
  | .msgget => 3 * sender.todo.length + 1
  | .msgsnd => 3 * sender.todo.length + 2
  | .failed => 0
  | .finished => 0

def ReceiverPc.rank : ReceiverPc → Nat
  | .msgget => 3
  | .msgrcv => 2
  | .msgctl => 1
  | .failed => 0
  | .finished => 0

/-- What a run has left: a message in the queue is one more step of the receiver. -/
def measure (s : State) : Nat :=
  s.sender.rank + (s.queue.getD []).length + s.receiver.pc.rank

theorem Sender.rank_nextSend (sender : Sender) :
    sender.nextSend.rank ≤ 3 * sender.todo.length := by
  unfold nextSend
  cases sender.todo with
  | nil => exact Nat.le_refl 0
  | cons message rest =>
      rw [rank, List.length_cons]
      dsimp only
      omega

theorem senderStep_lowers (step : senderStep limit s = some s') : measure s' < measure s := by
  have next := s.sender.rank_nextSend
  unfold senderStep at step
  split at step
  next here =>
    cases step
    have before : s.sender.rank = 3 * s.sender.todo.length + 1 := by rw [Sender.rank, here]
    simp only [measure, before, Option.getD_some]
    omega
  next here =>
    have before : s.sender.rank = 3 * s.sender.todo.length + 2 := by rw [Sender.rank, here]
    split at step
    next noQueue =>
      cases step
      have after : (s.sender.goto .failed).rank = 0 := rfl
      simp only [measure, before, after]
      omega
    next queue isQueue =>
      rcases Option.map_eq_some_iff.mp step with ⟨queue', accepted, rfl⟩
      unfold msgsnd at accepted
      split at accepted
      · cases accepted
        simp only [measure, before, isQueue, Option.getD_some, List.length_append,
          List.length_singleton]
        omega
      · cases accepted
  next => cases step
  next => cases step

theorem Receiver.rank_take (receiver : Receiver) (packet : Packet) :
    (receiver.take packet).pc.rank ≤ 2 := by
  rw [take_pc]
  split
  · exact Nat.le_succ 1
  · exact Nat.le_refl 2

theorem receiverStep_lowers (step : receiverStep s = some s') : measure s' < measure s := by
  unfold receiverStep at step
  split at step
  next here =>
    cases step
    simp only [measure, here, Receiver.goto, ReceiverPc.rank, Option.getD_some]
    exact Nat.lt_succ_self _
  next here =>
    split at step
    next =>
      cases step
      simp only [measure, here, Receiver.goto, ReceiverPc.rank]
      omega
    next => cases step
    next packet rest isQueue =>
      split at step
      · cases step
        simp only [measure, here, Receiver.goto, ReceiverPc.rank]
        omega
      · cases step
        have after := s.receiver.rank_take packet
        have before : s.receiver.pc.rank = 2 := by
          rw [here]
          rfl
        simp only [measure, before, isQueue, Option.getD_some, List.length_cons]
        omega
  next here =>
    cases step
    simp only [measure, here, Receiver.goto, ReceiverPc.rank, Option.getD_none, List.length_nil]
    omega
  next => cases step
  next => cases step

theorem lowers : (processes limit sent).Lowers measure := by
  intro side state next moved
  cases side with
  | left => exact senderStep_lowers moved
  | right => exact receiverStep_lowers moved

/-! ## The end marker -/

/-- The receiver is in its loop. -/
def ReceiverPc.Looping (pc : ReceiverPc) : Prop :=
  pc = .msgget ∨ pc = .msgrcv

theorem senderStep_receiver (step : senderStep limit s = some s') :
    s'.receiver = s.receiver := by
  unfold senderStep at step
  split at step
  · cases step
    rfl
  · split at step
    · cases step
      rfl
    · rcases Option.map_eq_some_iff.mp step with ⟨queue, _, rfl⟩
      rfl
  · cases step
  · cases step

theorem seesExitLast_step
    (sees : SeesExitLast s.receiver.pc.Looping s.receiver.received)
    (step : receiverStep s = some s') :
    SeesExitLast s'.receiver.pc.Looping s'.receiver.received := by
  unfold receiverStep at step
  split at step
  next here =>
    cases step
    exact sees.mono fun _ => .inl here
  next here =>
    split at step
    next =>
      cases step
      exact sees.mono fun _ => .inr here
    next => cases step
    next packet rest _ =>
      split at step
      · cases step
        exact sees.mono fun _ => .inr here
      · cases step
        rw [Receiver.take_received]
        apply sees.snoc (.inr here)
        intro goesOn
        rw [Receiver.take_pc] at goesOn
        by_contra exits
        rw [if_pos (Bool.eq_true_of_not_eq_false exits)] at goesOn
        rcases goesOn with eq | eq
        · cases eq
        · cases eq
  next here =>
    cases step
    apply sees.mono
    rintro (eq | eq)
    · cases eq
    · cases eq
  next => cases step
  next => cases step

theorem seesExitLast_of_reachable (reachable : Reachable (processes limit sent).system s) :
    SeesExitLast s.receiver.pc.Looping s.receiver.received := by
  apply Pair.invariant (P := fun (s : State) =>
    SeesExitLast s.receiver.pc.Looping s.receiver.received) .start _ _ reachable
  · intro state next sees step
    rw [senderStep_receiver step]
    exact sees
  · intro state next sees step
    exact seesExitLast_step sees step

/-- An exchange is not over: the marker is still to come. -/
theorem Exchange.not_all {inQueue : List Message} (stream : Stream (sent.map Message.text))
    (exchange : Exchange sent inQueue s) :
    s.receiver.received.map Message.pair ≠ sent.map Message.pair := by
  intro all
  rcases stream.ends with ⟨front, ends, _⟩
  have isMem : exitMessage ∈ s.receiver.received.map Message.text := by
    rw [map_text_of_map_pair all, ends]
    exact List.mem_append_right _ List.mem_cons_self
  rcases List.mem_map.mp isMem with ⟨message, received, isExit⟩
  exact exchange.notExited message received isExit

/-- An empty queue has room. -/
theorem msgsnd_nil {message : Message} (fits : Fits message.text) :
    msgsnd limit [] (packetOf message) ≠ none := by
  have size := length_packetOf fits
  have room : queuedBytes [] + (packetOf message).payload.length ≤ limit.bytes := by
    rw [size]
    exact Nat.le_trans (Nat.le_of_eq (Nat.zero_add _)) (Nat.le_trans fits.length limit.large)
  have one : ([] : List Packet).length + 1 ≤ limit.bytes :=
    Nat.le_trans (Nat.succ_le_of_lt (by decide)) limit.large
  rw [msgsnd, if_pos ⟨room, one⟩]
  exact Option.some_ne_none _

/-- In an exchange one of the processes can go on: a queue that has no room is not
empty. -/
theorem Exchange.not_stuck {inQueue : List Message} (stream : Stream (sent.map Message.text))
    (exchange : Exchange sent inQueue s) : ¬(processes limit sent).Stuck s := by
  rintro ⟨senderBlocked, receiverBlocked⟩
  have senderBlocked : senderStep limit s = none := senderBlocked
  have receiverBlocked : receiverStep s = none := receiverBlocked
  have packets := exchange.queue
  rcases exchange.receiverHere with here | here
  · rw [receiverStep, here] at receiverBlocked
    cases receiverBlocked
  · have isOpen : s.queue ≠ none := by
      apply exchange.opened
      right
      rw [here]
      intro eq
      cases eq
    rcases Option.ne_none_iff_exists'.mp isOpen with ⟨queue, isQueue⟩
    cases queue with
    | cons packet rest =>
        simp only [receiverStep, here, isQueue] at receiverBlocked
        split at receiverBlocked
        · cases receiverBlocked
        · cases receiverBlocked
    | nil =>
        have nothing : inQueue = [] := by
          rw [isQueue] at packets
          exact List.map_eq_nil_iff.mp packets.symm
        have account := exchange.account
        rw [nothing] at account
        unfold senderStep at senderBlocked
        split at senderBlocked
        next => cases senderBlocked
        next atSend =>
          simp only [isQueue, Option.map_eq_none_iff] at senderBlocked
          have isSent : s.sender.message.pair ∈ sent.map Message.pair := by
            rw [← account, Sender.pending, atSend]
            exact List.mem_append_right _ List.mem_cons_self
          exact msgsnd_nil (fits_of_pair stream isSent) senderBlocked
        next failed => exact exchange.senderHere failed
        next finished =>
          apply exchange.not_all stream
          rw [Sender.pending, finished] at account
          simpa using account

variable {file : List UInt8}

/-- The two processes that pass the messages of a file. -/
theorem stopsAtMarker (noExit : exitMessage ∉ ordinaryTexts file) :
    StopsAtMarker (processes limit (sentMessages file)) (fun s => s.receiver.received)
      (fun s => s.receiver.pc.HasLeft) file := by
  have stream := stream_sentMessages noExit
  have phase (s : State) (reachable : Reachable (processes limit (sentMessages file)).system s) :
      Phase (sentMessages file) s :=
    phase_of_reachable stream reachable
  have stops (s : State) (phase : Phase (sentMessages file) s) : s.receiver.pc.HasLeft ↔
      s.receiver.received.map Message.pair = (sentMessages file).map Message.pair := by
    cases phase with
    | exchange inQueue exchange =>
        constructor
        · intro left
          rcases exchange.receiverHere with here | here
          · rw [here] at left
            cases left
          · rw [here] at left
            cases left
        · intro all
          exact absurd all (exchange.not_all stream)
    | closing _ left all => exact ⟨fun _ => all, fun _ => left⟩
  constructor
  · refine ⟨measure (startState (sentMessages file)), ?_⟩
    intro sides s trace
    exact Nat.le_trans (Nat.le_add_right _ _) (lowers.length_le trace)
  · intro s reachable
    cases phase s reachable with
    | exchange inQueue exchange =>
        have account := exchange.account
        rw [List.append_assoc] at account
        exact ⟨_, account⟩
    | closing _ _ all => exact ⟨[], (List.append_nil _).trans all⟩
  · intro s reachable
    exact stops s (phase s reachable)
  · intro s reachable stuck
    cases phase s reachable with
    | exchange inQueue exchange => exact absurd stuck (exchange.not_stuck stream)
    | closing _ left _ => exact left
  · intro s reachable left
    exact printed_of_all noExit ((stops s (phase s reachable)).mp left)

/-- The messages of a file go through the queue exactly when none of its lines spells the
exit message. -/
theorem stopsAtMarker_iff :
    StopsAtMarker (processes limit (sentMessages file)) (fun s => s.receiver.received)
      (fun s => s.receiver.pc.HasLeft) file ↔ exitMessage ∉ ordinaryTexts file := by
  constructor
  · intro stops
    exact stops.noExit lowers fun _ reachable => seesExitLast_of_reachable reachable
  · exact stopsAtMarker

end NckuOs.Ipc.MessageQueue
