import Mathlib.Data.List.Basic
import NckuOs.Lib.Transition

/-!
# What a party of a run is going to do

A label names the party that takes the step.  A party brings a condition about when
it can go on until the condition holds, and a bounded number of its own steps is
enough for that, whatever the other parties do in between.
-/

namespace NckuOs.Transition

universe u v

variable {σ : Type u} {ε : Type v}

/-- The runs of `sys` that go on from `state`. -/
def System.resume (sys : System σ ε) (state : σ) : System σ ε where
  init := (· = state)
  step := sys.step

variable [DecidableEq ε]

/-- Party `event` is going to make `P` true: in every run that goes on from `state`, the
condition holds once the party has taken `turns` steps, and before that the
party can move unless the condition holds already. -/
def BringsAbout (sys : System σ ε) (state : σ) (event : ε) (P : σ → Prop) : Prop :=
  ∃ turns, ∀ past state', Trace (sys.resume state) past state' →
    P state' ∨ past.count event < turns ∧ ∃ next, sys.step state' event next

variable {sys : System σ ε} {event : ε} {P : σ → Prop}

/-- What holds stays, the party's own steps lower a rank, and nobody else's raise it. -/
structure Descends (sys : System σ ε) (event : ε) (P J : σ → Prop) (rank : σ → Nat) : Prop where
  keeps : ∀ state other next, J state → sys.step state other next → J next
  lasts : ∀ state other next, J state → P state → sys.step state other next → P next
  enabled : ∀ state, J state → ¬P state → ∃ next, sys.step state event next
  own : ∀ state next, J state → ¬P state → sys.step state event next →
    P next ∨ rank next < rank state
  others : ∀ state other next, J state → ¬P state → other ≠ event →
    sys.step state other next → P next ∨ rank next ≤ rank state

/-- Until the condition holds, the party's steps so far fit below the rank at the start. -/
theorem Descends.bound {J : σ → Prop} {rank : σ → Nat}
    (descends : Descends sys event P J rank) {state : σ} (holds : J state)
    {past : List ε} {state' : σ} (trace : Trace (sys.resume state) past state') :
    J state' ∧ (P state' ∨ past.count event + rank state' ≤ rank state) := by
  refine trace.invariant
    (P := fun past state' => J state' ∧ (P state' ∨ past.count event + rank state' ≤ rank state))
    ?_ ?_
  · rintro _ rfl
    constructor
    · exact holds
    · exact .inr (Nat.le_of_eq (Nat.zero_add _))
  · rintro past middle other next - ⟨here, sofar⟩ step
    constructor
    · exact descends.keeps _ _ _ here step
    · by_cases already : P middle
      · exact .inl (descends.lasts _ _ _ here already step)
      have below := sofar.resolve_left already
      by_cases same : other = event
      · subst same
        rw [List.count_append, List.count_singleton_self]
        refine (descends.own _ _ here already step).imp_right fun lower => ?_
        omega
      · have uncounted : [other].count event = 0 :=
          List.count_eq_zero_of_not_mem (by simpa using Ne.symm same)
        rw [List.count_append, uncounted]
        refine (descends.others _ _ _ here already same step).imp_right fun lower => ?_
        omega

theorem Descends.bringsAbout {J : σ → Prop} {rank : σ → Nat}
    (descends : Descends sys event P J rank) {state : σ} (holds : J state) :
    BringsAbout sys state event P := by
  refine ⟨rank state + 1, fun past state' trace => ?_⟩
  have bound := descends.bound holds trace
  by_cases already : P state'
  · exact .inl already
  · right
    have below := bound.2.resolve_left already
    constructor
    · omega
    · exact descends.enabled _ bound.1 already

/-- A party whose steps change nothing brings nothing about that does not hold yet. -/
theorem not_bringsAbout_of_self {state : σ} (self : sys.step state event state)
    (notYet : ¬P state) : ¬BringsAbout sys state event P := by
  rintro ⟨turns, brings⟩
  have stays : ∀ n, Trace (sys.resume state) (List.replicate n event) state := by
    intro n
    induction n with
    | zero => exact .start rfl
    | succ n ih =>
        rw [List.replicate_succ']
        exact ih.snoc self
  rcases brings _ _ (stays turns) with holds | ⟨fewer, -⟩
  · exact notYet holds
  · rw [List.count_replicate_self] at fewer
    exact Nat.lt_irrefl turns fewer

end NckuOs.Transition
