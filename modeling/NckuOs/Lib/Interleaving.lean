import NckuOs.Lib.Transition

/-!
# Two processes over one state

Each process is a partial function on the shared state: the state after its next
step, or nothing when it is blocked or has ended.  A run lets either of them move
at every step.
-/

namespace NckuOs.Interleaving

open NckuOs.Transition

universe u

/-- Which of the two processes moves. -/
inductive Side
  | left
  | right
  deriving DecidableEq, Repr

/-- Two processes and the state they start in. -/
structure Pair (σ : Type u) where
  start : σ
  left : σ → Option σ
  right : σ → Option σ

namespace Pair

variable {σ : Type u} (pair : Pair σ)

/-- One step of one of the processes. -/
def move : Side → σ → Option σ
  | .left => pair.left
  | .right => pair.right

/-- Every interleaving of the two. -/
def system : System σ Side where
  init state := state = pair.start
  step state side next := pair.move side state = some next

/-- Neither process can move. -/
def Stuck (state : σ) : Prop :=
  pair.left state = none ∧ pair.right state = none

variable {pair}

theorem stuck_iff {state : σ} :
    pair.Stuck state ↔ ∀ side next, ¬pair.system.step state side next := by
  constructor
  · rintro ⟨left, right⟩ side next moved
    cases side with
    | left => exact absurd (left.symm.trans moved) (Option.some_ne_none next).symm
    | right => exact absurd (right.symm.trans moved) (Option.some_ne_none next).symm
  · intro noStep
    constructor
    · rw [Option.eq_none_iff_forall_not_mem]
      exact fun next moved => noStep .left next moved
    · rw [Option.eq_none_iff_forall_not_mem]
      exact fun next moved => noStep .right next moved

/-- What both processes preserve holds in every reachable state. -/
theorem invariant {P : σ → Prop} (start : P pair.start)
    (left : ∀ state next, P state → pair.left state = some next → P next)
    (right : ∀ state next, P state → pair.right state = some next → P next)
    {state : σ} (reachable : Reachable pair.system state) : P state := by
  apply reachable.invariant (P := P)
  · rintro _ rfl
    exact start
  · intro state side next holds moved
    cases side with
    | left => exact left state next holds moved
    | right => exact right state next holds moved

section Measure

/-- A number that every step lowers. -/
def Lowers (pair : Pair σ) (measure : σ → Nat) : Prop :=
  ∀ side state next, pair.move side state = some next → measure next < measure state

variable {measure : σ → Nat}

/-- A run is no longer than the measure of its start. -/
theorem Lowers.length_le (lowers : pair.Lowers measure) {sides : List Side} {state : σ}
    (trace : Trace pair.system sides state) :
    sides.length + measure state ≤ measure pair.start := by
  induction trace with
  | start initial =>
      cases initial
      exact Nat.le_of_eq (Nat.zero_add _)
  | @snoc sides state side next _ moved ih =>
      have lower := lowers side state next moved
      calc
        (sides ++ [side]).length + measure next = sides.length + (measure next + 1) := by
          rw [List.length_append, List.length_singleton, Nat.add_assoc, Nat.add_comm 1]
        _ ≤ sides.length + measure state := Nat.add_le_add_left lower _
        _ ≤ measure pair.start := ih

/-- Every run goes on to an end. -/
theorem Lowers.exists_stuck (lowers : pair.Lowers measure) {state : σ}
    (reachable : Reachable pair.system state) :
    ∃ last, Reachable pair.system last ∧ pair.Stuck last := by
  induction bound : measure state using Nat.strongRecOn generalizing state with
  | ind _ ih =>
      by_cases stuck : pair.Stuck state
      · exact ⟨state, reachable, stuck⟩
      · have moves : ∃ side next, pair.system.step state side next := by
          by_contra noStep
          apply stuck
          apply stuck_iff.mpr
          intro side next step
          exact noStep ⟨side, next, step⟩
        rcases moves with ⟨side, next, step⟩
        have lower : measure next < measure state := lowers side state next step
        rw [bound] at lower
        exact ih (measure next) lower (reachable.snoc step) rfl

end Measure

/-- Let the processes move in the given order; a process that cannot is passed
over. -/
def follow (pair : Pair σ) : List Side → σ → σ
  | [], state => state
  | side :: rest, state => pair.follow rest ((pair.move side state).getD state)

theorem reachable_follow (schedule : List Side) {state : σ}
    (reachable : Reachable pair.system state) :
    Reachable pair.system (pair.follow schedule state) := by
  induction schedule generalizing state with
  | nil => exact reachable
  | cons side rest ih =>
      apply ih
      cases moved : pair.move side state with
      | none => exact reachable
      | some next =>
          have step : pair.system.step state side next := moved
          exact reachable.snoc step

end Pair

end NckuOs.Interleaving
