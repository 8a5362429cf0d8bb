import NckuOs.Lib.Progress

/-!
# Refining a machine

A machine answers one call after another.  A system refines it when every label stands
for a call with the answer to it, and a view of the state moves as the machine does.
What the system answers over a whole run is then a matter of the calls alone.
-/

namespace NckuOs.Transition

universe u v w

/-- States, and what each does with a call: its reply and its next state. -/
structure Machine (α : Type u) (ι : Type v) (ρ : Type w) where
  start : α
  step : α → ι → ρ × α

variable {α : Type u} {ι : Type v} {ρ : Type w}

namespace Machine

variable (machine : Machine α ι ρ)

/-- The replies to a list of calls, and the state at the end. -/
def run (state : α) : List ι → List ρ × α
  | [] => ([], state)
  | call :: calls =>
      let first := machine.step state call
      let rest := run first.2 calls
      (first.1 :: rest.1, rest.2)

theorem run_snoc (state : α) (calls : List ι) (call : ι) :
    machine.run state (calls ++ [call]) =
      ((machine.run state calls).1 ++ [(machine.step (machine.run state calls).2 call).1],
        (machine.step (machine.run state calls).2 call).2) := by
  induction calls generalizing state with
  | nil => rfl
  | cons first calls ih => simp only [List.cons_append, run, ih]

end Machine

variable {σ : Type*} {ε : Type*}

/-- Going on from a state begins there. -/
theorem Trace.here {sys : System σ ε} {state : σ} : Trace (sys.resume state) [] state :=
  .start rfl

/-- Every step from a reachable state is the machine's step. -/
structure Refines (sys : System σ ε) (machine : Machine α ι ρ) (call : ε → ι) (reply : ε → ρ)
    (view : σ → α) : Prop where
  start : ∀ state, sys.init state → view state = machine.start
  step : ∀ state event next, Reachable sys state → sys.step state event next →
    machine.step (view state) (call event) = (reply event, view next)

namespace Refines

variable {sys : System σ ε} {machine : Machine α ι ρ} {call : ε → ι} {reply : ε → ρ}
  {view : σ → α}

/-- A run that goes on from a reachable state is the machine's run from its view. -/
theorem resume (refines : Refines sys machine call reply view) {state : σ}
    (reachable : Reachable sys state) {events : List ε} {last : σ}
    (trace : Trace (sys.resume state) events last) :
    Reachable sys last ∧
      machine.run (view state) (events.map call) = (events.map reply, view last) := by
  induction trace with
  | start initial =>
      have same := (initial : _ = state)
      rw [same]
      exact ⟨reachable, rfl⟩
  | @snoc events middle event next _ step ih =>
      rcases ih with ⟨here, soFar⟩
      constructor
      · exact here.snoc step
      · rw [List.map_append, List.map_append, List.map_singleton, List.map_singleton,
          machine.run_snoc, soFar, refines.step middle event next here step]

/-- A whole run is the machine's run. -/
theorem run (refines : Refines sys machine call reply view) {events : List ε} {state : σ}
    (trace : Trace sys events state) :
    machine.run machine.start (events.map call) = (events.map reply, view state) := by
  induction trace with
  | start initial =>
      rw [refines.start _ initial]
      rfl
  | @snoc events middle event next earlier step ih =>
      rw [List.map_append, List.map_append, List.map_singleton, List.map_singleton,
        machine.run_snoc, ih, refines.step middle event next ⟨events, earlier⟩ step]

/-- States with one view give the same replies to the same calls. -/
theorem indistinguishable (refines : Refines sys machine call reply view) {left right : σ}
    (leftReachable : Reachable sys left) (rightReachable : Reachable sys right)
    (sameView : view left = view right) {events events' : List ε} {left' right' : σ}
    (leftRun : Trace (sys.resume left) events left')
    (rightRun : Trace (sys.resume right) events' right')
    (sameCalls : events.map call = events'.map call) :
    events.map reply = events'.map reply ∧ view left' = view right' := by
  have first := (refines.resume leftReachable leftRun).2
  have second := (refines.resume rightReachable rightRun).2
  rw [sameView, sameCalls, second, Prod.mk.injEq] at first
  exact ⟨first.1.symm, first.2.symm⟩

end Refines

end NckuOs.Transition
