import NckuOs.Lib.Progress

/-!
# Two systems that look the same

A view takes the states of one system to those of a coarser one.  A step either leaves the
view alone or is a step of the coarser system, and every step of the coarser system can be
followed by a run.  What can be reached, and whether an end can still be reached, is then the
same for both.
-/

namespace NckuOs.Transition

variable {σ ε α ζ : Type*} {sys : System σ ε} {abs : System α ζ} {view : σ → α}

theorem Trace.one {state next : σ} {event : ε} (step : sys.step state event next) :
    Trace (sys.resume state) [event] next := by
  have start : Trace (sys.resume state) [] state := .start rfl
  exact start.snoc step

theorem Trace.append {state middle last : σ} {events events' : List ε}
    (first : Trace (sys.resume state) events middle)
    (second : Trace (sys.resume middle) events' last) :
    Trace (sys.resume state) (events ++ events') last := by
  induction second with
  | start initial =>
      have same : _ = middle := initial
      rw [List.append_nil, same]
      exact first
  | snoc _ step ih =>
      rw [← List.append_assoc]
      exact ih.snoc step

theorem Reachable.resume {state last : σ} {events : List ε} (reachable : Reachable sys state)
    (trace : Trace (sys.resume state) events last) : Reachable sys last := by
  induction trace with
  | start initial =>
      have same : _ = state := initial
      rw [same]
      exact reachable
  | snoc _ step ih => exact ih.snoc step

/-- The two systems cannot be told apart through the view. -/
structure LooksLike (sys : System σ ε) (abs : System α ζ) (view : σ → α) : Prop where
  start : ∀ state, sys.init state → abs.init (view state)
  starts : ∀ abstract, abs.init abstract → ∃ state, sys.init state ∧ view state = abstract
  step : ∀ state event next, Reachable sys state → sys.step state event next →
    view next = view state ∨ ∃ label, abs.step (view state) label (view next)
  follows : ∀ state label abstract, Reachable sys state → abs.step (view state) label abstract →
    ∃ events next, Trace (sys.resume state) events next ∧ view next = abstract

namespace LooksLike

variable (looks : LooksLike sys abs view)
include looks

theorem reachable_view {state : σ} (reachable : Reachable sys state) :
    Reachable abs (view state) := by
  rcases reachable with ⟨events, trace⟩
  induction trace with
  | start initial => exact .start (looks.start _ initial)
  | @snoc events state event next earlier step ih =>
      rcases looks.step state event next ⟨events, earlier⟩ step with same | ⟨label, moved⟩
      · rw [same]
        exact ih
      · exact ih.snoc moved

/-- A run of the finer system is one of the coarser. -/
theorem views {state last : σ} {events : List ε} (reachable : Reachable sys state)
    (trace : Trace (sys.resume state) events last) :
    ∃ labels, Trace (abs.resume (view state)) labels (view last) := by
  induction trace with
  | start initial =>
      have same : _ = state := initial
      rw [same]
      exact ⟨[], .start rfl⟩
  | @snoc events middle event next earlier step ih =>
      rcases ih with ⟨labels, run⟩
      rcases looks.step middle event next (reachable.resume earlier) step with
        same | ⟨label, moved⟩
      · rw [same]
        exact ⟨labels, run⟩
      · exact ⟨labels ++ [label], run.snoc moved⟩

/-- A run of the coarser system can be followed from every state with that view. -/
theorem follows_run {state : σ} {labels : List ζ} {abstract : α} (reachable : Reachable sys state)
    (run : Trace (abs.resume (view state)) labels abstract) :
    ∃ events last, Trace (sys.resume state) events last ∧ view last = abstract := by
  induction run with
  | start initial => exact ⟨[], state, .start rfl, initial.symm⟩
  | snoc _ step ih =>
      rcases ih with ⟨events, middle, trace, rfl⟩
      rcases looks.follows middle _ _ (reachable.resume trace) step with
        ⟨events', last, further, same⟩
      exact ⟨events ++ events', last, trace.append further, same⟩

theorem reachable_iff (abstract : α) :
    Reachable abs abstract ↔ ∃ state, Reachable sys state ∧ view state = abstract := by
  constructor
  · rintro ⟨labels, run⟩
    induction run with
    | start initial =>
        rcases looks.starts _ initial with ⟨state, starting, same⟩
        exact ⟨state, .start starting, same⟩
    | snoc _ step ih =>
        rcases ih with ⟨state, reachable, rfl⟩
        rcases looks.follows state _ _ reachable step with ⟨events, next, trace, same⟩
        exact ⟨next, reachable.resume trace, same⟩
  · rintro ⟨state, reachable, rfl⟩
    exact looks.reachable_view reachable

/-- Where some step of the coarser system always lowers a number, an end can be reached. -/
theorem can_reach {measure : α → Nat} {P : α → Prop}
    (lowers : ∀ state, Reachable sys state → ¬P (view state) →
      ∃ label next, abs.step (view state) label next ∧ measure next < measure (view state))
    {state : σ} (reachable : Reachable sys state) :
    ∃ events last, Trace (sys.resume state) events last ∧ P (view last) := by
  induction size : measure (view state) using Nat.strongRecOn generalizing state with
  | ind size ih =>
      by_cases done : P (view state)
      · exact ⟨[], state, .start rfl, done⟩
      · rcases lowers state reachable done with ⟨label, next, step, lower⟩
        rcases looks.follows state label next reachable step with ⟨events, middle, trace, rfl⟩
        rcases ih _ (size ▸ lower) (reachable.resume trace) rfl with
          ⟨events', last, further, ends⟩
        exact ⟨events ++ events', last, trace.append further, ends⟩

end LooksLike

end NckuOs.Transition
