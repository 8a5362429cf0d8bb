import NckuOs.Lib.Interleaving
import NckuOs.Ipc.Lines

/-!
# The end of the stream

What either mechanism is to do with the messages of a file, and what its two processes
have to guarantee for that.  The receiver tells the end marker by its text, so that it
leaves its loop at the first message with that text.
-/

namespace NckuOs.Ipc

open NckuOs.Interleaving
open NckuOs.Transition

/-- What `main` of the receiver prints of the messages that it has received. -/
def printed (received : List Message) : List (List UInt8) :=
  (received.filter fun message => !message.isExit).map Message.text

/-- The messages of a file go through: every run is finite; the messages received are
those sent, up to a point; the receiver leaves its loop exactly when it has received the
end marker, which is the last; a run does not end before that; and the receiver then has
printed every message of type 1. -/
structure StopsAtMarker {σ : Type} (processes : Pair σ) (received : σ → List Message)
    (left : σ → Prop) (file : List UInt8) : Prop where
  finite : ∃ bound, ∀ sides state, Trace processes.system sides state → sides.length ≤ bound
  inOrder : ∀ state, Reachable processes.system state →
    (received state).map Message.pair <+: (sentMessages file).map Message.pair
  stops : ∀ state, Reachable processes.system state →
    (left state ↔ (received state).map Message.pair = (sentMessages file).map Message.pair)
  ends : ∀ state, Reachable processes.system state → processes.Stuck state → left state
  prints : ∀ state, Reachable processes.system state → left state → printed (received state) =
    ((sentMessages file).filter fun message => message.mType = 1).map Message.text

/-- A receiver that has left its loop without all of the messages. -/
theorem not_stopsAtMarker {σ : Type} {processes : Pair σ} {received : σ → List Message}
    {left : σ → Prop} {file : List UInt8} {state : σ}
    (reachable : Reachable processes.system state) (hasLeft : left state)
    (differs : (received state).map Message.pair ≠ (sentMessages file).map Message.pair) :
    ¬StopsAtMarker processes received left file := by
  intro through
  exact differs ((through.stops state reachable).mp hasLeft)

/-! ## What is printed -/

/-- The messages of type 1 are the ordinary ones. -/
theorem ordinary_sent (file : List UInt8) :
    ((sentMessages file).filter fun message => message.mType = 1).map Message.text =
      ordinaryTexts file := by
  have ordinary : ((ordinaryTexts file).map (Message.ofText 1)).filter
      (fun message => message.mType = 1) = (ordinaryTexts file).map (Message.ofText 1) := by
    rw [List.filter_eq_self]
    intro message isMem
    rcases List.mem_map.mp isMem with ⟨text, _, rfl⟩
    rfl
  have marker : [endMarker].filter (fun message => message.mType = 1) = [] := rfl
  rw [sentMessages_eq, List.filter_append, ordinary, marker, List.append_nil]
  have texts := texts_sentMessages file
  rw [sentMessages_eq, List.map_append] at texts
  exact (List.append_inj' texts rfl).1

/-- Printing looks at the texts only. -/
theorem printed_eq (received : List Message) :
    printed received = (received.map Message.text).filter fun text => text ≠ exitMessage := by
  induction received with
  | nil => rfl
  | cons message rest ih =>
      unfold printed at ih ⊢
      by_cases isExit : message.text = exitMessage
      · rw [List.map_cons, List.filter_cons_of_neg (by simpa [Message.isExit] using isExit),
          List.filter_cons_of_neg (by simpa using isExit), ih]
      · rw [List.map_cons, List.filter_cons_of_pos (by simpa [Message.isExit] using isExit),
          List.filter_cons_of_pos (by simpa using isExit), List.map_cons, ih]

theorem map_text_of_map_pair {messages messages' : List Message}
    (same : messages.map Message.pair = messages'.map Message.pair) :
    messages.map Message.text = messages'.map Message.text := by
  have texts := congrArg (List.map Prod.snd) same
  rw [List.map_map, List.map_map] at texts
  exact texts

/-- With no line that spells the exit message, all ordinary ones are printed. -/
theorem printed_of_all {file : List UInt8} (noExit : exitMessage ∉ ordinaryTexts file)
    {received : List Message}
    (all : received.map Message.pair = (sentMessages file).map Message.pair) :
    printed received =
      ((sentMessages file).filter fun message => message.mType = 1).map Message.text := by
  rw [ordinary_sent, printed_eq, map_text_of_map_pair all, texts_sentMessages,
    List.filter_append]
  have ordinary : (ordinaryTexts file).filter (fun text => text ≠ exitMessage) =
      ordinaryTexts file := by
    rw [List.filter_eq_self]
    intro text isMem
    rw [decide_eq_true_eq]
    rintro rfl
    exact noExit isMem
  have marker : [exitMessage].filter (fun text => text ≠ exitMessage) = [] := by
    rw [List.filter_cons_of_neg (by simp), List.filter_nil]
  rw [ordinary, marker, List.append_nil]

/-! ## Nothing behind the exit message -/

/-- A receiver in its loop has not received the exit message, and no receiver has received
anything behind it. -/
structure SeesExitLast (looping : Prop) (received : List Message) : Prop where
  none : looping → ∀ message ∈ received, message.text ≠ exitMessage
  front : ∀ message ∈ received.dropLast, message.text ≠ exitMessage

namespace SeesExitLast

variable {looping looping' : Prop} {received : List Message}

theorem start : SeesExitLast looping [] where
  none _ _ isMem := by cases isMem
  front _ isMem := by cases isMem

theorem mono (sees : SeesExitLast looping received) (only : looping' → looping) :
    SeesExitLast looping' received where
  none still := sees.none (only still)
  front := sees.front

/-- One more message, with which the loop goes on or not. -/
theorem snoc (sees : SeesExitLast looping received) (inLoop : looping) {message : Message}
    (goesOn : looping' → message.isExit = false) :
    SeesExitLast looping' (received ++ [message]) where
  none still other isMem := by
    rcases List.mem_append.mp isMem with old | isNew
    · exact sees.none inLoop other old
    · rw [List.mem_singleton.mp isNew]
      intro isExit
      have exits := isExit_iff.mpr isExit
      rw [goesOn still] at exits
      cases exits
  front other isMem := by
    rw [List.dropLast_concat] at isMem
    exact sees.none inLoop other isMem

end SeesExitLast

/-- When the messages of a file go through, none of its lines spells the exit message: the
receiver could not have received what is sent behind it. -/
theorem StopsAtMarker.noExit {σ : Type} {processes : Pair σ} {received : σ → List Message}
    {left looping : σ → Prop} {file : List UInt8} {measure : σ → Nat}
    (lowers : processes.Lowers measure)
    (sees : ∀ state, Reachable processes.system state →
      SeesExitLast (looping state) (received state))
    (stops : StopsAtMarker processes received left file) :
    exitMessage ∉ ordinaryTexts file := by
  intro isMem
  have started : Reachable processes.system processes.start := .start rfl
  rcases lowers.exists_stuck started with ⟨last, reachable, stuck⟩
  have all := (stops.stops last reachable).mp (stops.ends last reachable stuck)
  have texts := map_text_of_map_pair all
  rw [texts_sentMessages] at texts
  have front : (received last).dropLast.map Message.text = ordinaryTexts file := by
    rw [List.map_dropLast, texts, List.dropLast_concat]
  rw [← front] at isMem
  rcases List.mem_map.mp isMem with ⟨message, inFront, isExit⟩
  exact (sees last reachable).front message inFront isExit

end NckuOs.Ipc
