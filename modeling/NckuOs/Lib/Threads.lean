import Mathlib.Algebra.BigOperators.Group.Finset.Piecewise
import Mathlib.Algebra.GroupWithZero.Nat
import Mathlib.Algebra.Order.BigOperators.Group.Finset
import NckuOs.Lib.Transition

/-!
# Threads over a shared state

A family of threads, each with a state of its own beside the one that they share.
A run lets any thread that can move take its next step.  What all threads together
account for is a sum over the family, and a step changes one summand.
-/

namespace NckuOs.Threads

open NckuOs.Transition

universe u v w

/-- The literals `0` and `1` name the threads of a family of two. -/
instance neZero_two : NeZero 2 := ⟨two_ne_zero⟩

/-- The shared state and the state of every thread. -/
structure Config (ι : Type u) (σ : Type v) (τ : Type w) where
  shared : σ
  thread : ι → τ

/-- Where the threads start and what each of them does next; a thread that is
blocked or has ended has no step. -/
structure Program (ι : Type u) (σ : Type v) (τ : Type w) where
  start : Config ι σ τ → Prop
  step : ι → σ → τ → Option (σ × τ)

variable {ι : Type u} {σ : Type v} {τ : Type w} [DecidableEq ι]

namespace Config

/-- The configuration after a step of thread `i`. -/
def after (config : Config ι σ τ) (i : ι) (next : σ × τ) : Config ι σ τ where
  shared := next.1
  thread := Function.update config.thread i next.2

@[simp]
theorem after_shared (config : Config ι σ τ) (i : ι) (next : σ × τ) :
    (config.after i next).shared = next.1 :=
  rfl

@[simp]
theorem after_self (config : Config ι σ τ) (i : ι) (next : σ × τ) :
    (config.after i next).thread i = next.2 := by
  simp [after]

theorem after_of_ne {config : Config ι σ τ} {i j : ι} {next : σ × τ} (ne : j ≠ i) :
    (config.after i next).thread j = config.thread j := by
  simp [after, ne]

/-- A step that changes nothing. -/
theorem after_same (config : Config ι σ τ) (i : ι) :
    config.after i (config.shared, config.thread i) = config := by
  simp only [after, Function.update_eq_self]

/-- A property of every thread: the one that moved, and the others. -/
theorem forall_after {P : ι → τ → Prop} {config : Config ι σ τ} {i : ι} {next : σ × τ}
    (moved : P i next.2) (others : ∀ j, j ≠ i → P j (config.thread j)) (j : ι) :
    P j ((config.after i next).thread j) := by
  by_cases same : j = i
  · subst same
    rw [after_self]
    exact moved
  · rw [after_of_ne same]
    exact others j same

/-- What the step does not change of the thread that moved is the same for all. -/
theorem view_after {β : Sort*} (view : τ → β) {config : Config ι σ τ} {i : ι} {next : σ × τ}
    (same : view next.2 = view (config.thread i)) (j : ι) :
    view ((config.after i next).thread j) = view (config.thread j) := by
  by_cases isOwn : j = i
  · subst isOwn
    rw [after_self]
    exact same
  · rw [after_of_ne isOwn]

/-- A step exchanges one summand. -/
theorem sum_after {M : Type*} [AddCommMonoid M] [Fintype ι] (weight : τ → M)
    (config : Config ι σ τ) (i : ι) (s' : σ) (t' : τ) :
    (∑ j, weight ((config.after i (s', t')).thread j)) + weight (config.thread i) =
      (∑ j, weight (config.thread j)) + weight t' := by
  have rest : ∑ j ∈ Finset.univ.erase i, weight ((config.after i (s', t')).thread j) =
      ∑ j ∈ Finset.univ.erase i, weight (config.thread j) := by
    apply Finset.sum_congr rfl
    intro j isMem
    rw [after_of_ne (Finset.ne_of_mem_erase isMem)]
  rw [← Finset.sum_erase_add _ _ (Finset.mem_univ i), rest, after_self,
    ← Finset.sum_erase_add _ (fun j => weight (config.thread j)) (Finset.mem_univ i)]
  exact add_right_comm _ _ _

end Config

omit [DecidableEq ι] in
/-- Two members of a family that weighs at most one are the same. -/
theorem eq_of_sum_le_one [Fintype ι] {weight : ι → Nat} (total : ∑ j, weight j ≤ 1) {i j : ι}
    (first : 0 < weight i) (second : 0 < weight j) : i = j := by
  classical
  by_contra ne
  have pair : ∑ k ∈ {i, j}, weight k ≤ ∑ k, weight k :=
    Finset.sum_le_sum_of_subset (Finset.subset_univ _)
  rw [Finset.sum_pair ne] at pair
  omega

namespace Program

variable (program : Program ι σ τ)

/-- Every interleaving of the threads. -/
def system : System (Config ι σ τ) ι where
  init := program.start
  step config i config' := ∃ next, program.step i config.shared (config.thread i) = some next ∧
    config' = config.after i next

/-- Let the threads move in the given order. -/
def run : List ι → Config ι σ τ → Option (Config ι σ τ)
  | [], config => some config
  | i :: rest, config =>
      (program.step i config.shared (config.thread i)).bind fun next =>
        run rest (config.after i next)

variable {program}

/-- A schedule that the threads can follow extends a run. -/
theorem trace_run {past : List ι} (schedule : List ι) {config config' : Config ι σ τ}
    (trace : Trace program.system past config)
    (runs : program.run schedule config = some config') :
    Trace program.system (past ++ schedule) config' := by
  induction schedule generalizing past config with
  | nil =>
      cases runs
      rw [List.append_nil]
      exact trace
  | cons i rest ih =>
      simp only [run, Option.bind_eq_some_iff] at runs
      rcases runs with ⟨next, moved, runs⟩
      have extended := ih (trace.snoc ⟨next, moved, rfl⟩) runs
      rw [List.append_assoc, List.singleton_append] at extended
      exact extended

/-- The same with a condition that every step has to meet. -/
def runIf (program : Program ι σ τ) (allowed : Config ι σ τ → ι → Prop)
    [∀ config i, Decidable (allowed config i)] : List ι → Config ι σ τ → Option (Config ι σ τ)
  | [], config => some config
  | i :: rest, config =>
      if allowed config i then
        (program.step i config.shared (config.thread i)).bind fun next =>
          runIf program allowed rest (config.after i next)
      else none

theorem reachable_runIf {allowed : Config ι σ τ → ι → Prop}
    [∀ config i, Decidable (allowed config i)] (schedule : List ι)
    {config config' : Config ι σ τ}
    (reachable : Reachable (program.system.restrict allowed) config)
    (runs : program.runIf allowed schedule config = some config') :
    Reachable (program.system.restrict allowed) config' := by
  induction schedule generalizing config with
  | nil =>
      cases runs
      exact reachable
  | cons i rest ih =>
      by_cases allows : allowed config i
      · simp only [runIf, if_pos allows, Option.bind_eq_some_iff] at runs
        rcases runs with ⟨next, moved, runs⟩
        exact ih (reachable.snoc ⟨⟨next, moved, rfl⟩, allows⟩) runs
      · rw [runIf, if_neg allows] at runs
        cases runs

end Program

end NckuOs.Threads
