import Mathlib.Data.List.Basic

/-!
# Labelled transition systems and their traces

A system is a set of initial states together with a labelled step relation.  A
trace records every label from an initial state on, oldest first, so that a
property of a run may speak of its past as well as of its last state.  The two
induction rules below are the only place where a run is taken apart.
-/

namespace NckuOs.Transition

universe u v w

/-- Initial states and labelled steps. -/
structure System (σ : Type u) (ε : Type v) where
  init : σ → Prop
  step : σ → ε → σ → Prop

variable {σ : Type u} {ε : Type v} {ω : Type w}

/-- `Trace sys events state`: the labels `events`, oldest first, lead from an
initial state to `state`. -/
inductive Trace (sys : System σ ε) : List ε → σ → Prop
  | start {state : σ} : sys.init state → Trace sys [] state
  | snoc {events : List ε} {state : σ} {event : ε} {next : σ} :
      Trace sys events state → sys.step state event next →
      Trace sys (events ++ [event]) next

/-- Some trace ends in `state`. -/
def Reachable (sys : System σ ε) (state : σ) : Prop :=
  ∃ events, Trace sys events state

/-- A property of the past and the present that holds at the start and
survives every step holds after every trace. -/
theorem Trace.invariant {sys : System σ ε} {P : List ε → σ → Prop}
    (base : ∀ state, sys.init state → P [] state)
    (step : ∀ events state event next, Trace sys events state → P events state →
      sys.step state event next → P (events ++ [event]) next)
    {events : List ε} {state : σ} (trace : Trace sys events state) : P events state := by
  induction trace with
  | start initial => exact base _ initial
  | snoc earlier last ih => exact step _ _ _ _ earlier ih last

/-- The state-only form of `Trace.invariant`. -/
theorem Reachable.invariant {sys : System σ ε} {P : σ → Prop}
    (base : ∀ state, sys.init state → P state)
    (step : ∀ state event next, P state → sys.step state event next → P next)
    {state : σ} (reachable : Reachable sys state) : P state := by
  obtain ⟨events, trace⟩ := reachable
  exact trace.invariant (P := fun _ state => P state) base
    fun _ _ _ _ _ holds stepped => step _ _ _ holds stepped

theorem Reachable.start {sys : System σ ε} {state : σ} (initial : sys.init state) :
    Reachable sys state :=
  ⟨[], .start initial⟩

theorem Reachable.snoc {sys : System σ ε} {state next : σ} {event : ε}
    (reachable : Reachable sys state) (step : sys.step state event next) :
    Reachable sys next := by
  obtain ⟨events, trace⟩ := reachable
  exact ⟨events ++ [event], trace.snoc step⟩

/-- Steps that a function takes one after another extend a run. -/
theorem Reachable.foldlM {sys : System σ ε} {next : σ → ε → Option σ}
    (steps : ∀ state event state', next state event = some state' → sys.step state event state')
    (events : List ε) {state last : σ} (reachable : Reachable sys state)
    (runs : events.foldlM next state = some last) : Reachable sys last := by
  induction events generalizing state with
  | nil =>
      cases runs
      exact reachable
  | cons event events ih =>
      rw [List.foldlM_cons, Option.bind_eq_bind, Option.bind_eq_some_iff] at runs
      rcases runs with ⟨middle, first, others⟩
      exact ih (reachable.snoc (steps state event middle first)) others

/-- Where every step lowers a number, a run is no longer than that number at its start. -/
theorem Trace.length_le {sys : System σ ε} {measure : σ → Nat} {bound : Nat}
    (start : ∀ state, sys.init state → measure state ≤ bound)
    (lowers : ∀ state event next, sys.step state event next → measure next < measure state)
    {events : List ε} {state : σ} (trace : Trace sys events state) :
    events.length + measure state ≤ bound := by
  induction trace with
  | start initial =>
      rw [List.length_nil, Nat.zero_add]
      exact start _ initial
  | snoc _ last ih =>
      have lower := lowers _ _ _ last
      rw [List.length_append, List.length_singleton]
      omega

/-! ## What a run shows -/

/-- A run ends in `state`, and `seen` is what its steps have shown to an observer, oldest
first; `view` says what a step shows. -/
inductive Seen (sys : System σ ε) (view : σ → σ → List ω) : List ω → σ → Prop
  | start {state : σ} : sys.init state → Seen sys view [] state
  | snoc {seen : List ω} {state : σ} {event : ε} {next : σ} :
      Seen sys view seen state → sys.step state event next →
      Seen sys view (seen ++ view state next) next

/-- An observed run is a run. -/
theorem Seen.reachable {sys : System σ ε} {view : σ → σ → List ω} {seen : List ω} {state : σ}
    (run : Seen sys view seen state) : Reachable sys state := by
  induction run with
  | start initial => exact .start initial
  | snoc _ last ih => exact ih.snoc last

/-- Every run shows something to an observer. -/
theorem Reachable.seen {sys : System σ ε} {state : σ} (reachable : Reachable sys state)
    (view : σ → σ → List ω) : ∃ seen, Seen sys view seen state := by
  apply reachable.invariant (P := fun state => ∃ seen, Seen sys view seen state)
  · exact fun state initial => ⟨[], .start initial⟩
  · rintro state event next ⟨seen, run⟩ stepped
    exact ⟨_, run.snoc stepped⟩

/-- A property of what has been seen and of the present, like `Trace.invariant`. -/
theorem Seen.invariant {sys : System σ ε} {view : σ → σ → List ω} {P : List ω → σ → Prop}
    (base : ∀ state, sys.init state → P [] state)
    (step : ∀ seen state event next, P seen state → sys.step state event next →
      P (seen ++ view state next) next)
    {seen : List ω} {state : σ} (run : Seen sys view seen state) : P seen state := by
  induction run with
  | start initial => exact base _ initial
  | snoc _ last ih => exact step _ _ _ _ ih last

/-! ## Restricted runs -/

/-- The runs of `sys` all of whose steps meet `allowed`, a condition on the
state before the step and the step's label. -/
def System.restrict (sys : System σ ε) (allowed : σ → ε → Prop) : System σ ε where
  init := sys.init
  step state event next := sys.step state event next ∧ allowed state event

/-- A restricted run is a run. -/
theorem Trace.of_restrict {sys : System σ ε} {allowed : σ → ε → Prop}
    {events : List ε} {state : σ} (trace : Trace (sys.restrict allowed) events state) :
    Trace sys events state := by
  induction trace with
  | start initial => exact .start initial
  | snoc _ last ih => exact ih.snoc last.1

theorem Reachable.of_restrict {sys : System σ ε} {allowed : σ → ε → Prop} {state : σ}
    (reachable : Reachable (sys.restrict allowed) state) : Reachable sys state := by
  obtain ⟨events, trace⟩ := reachable
  exact ⟨events, trace.of_restrict⟩

/-- A condition that every step meets restricts nothing. -/
theorem Reachable.restrict {sys : System σ ε} {allowed : σ → ε → Prop}
    (always : ∀ state event, allowed state event) {state : σ} (reachable : Reachable sys state) :
    Reachable (sys.restrict allowed) state :=
  reachable.invariant (fun _ initial => .start initial)
    fun state event _ earlier step => earlier.snoc ⟨step, always state event⟩

end NckuOs.Transition
