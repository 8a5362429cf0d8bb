import Mathlib.Data.List.Chain
import Mathlib.Data.List.Range
import Mathlib.Algebra.BigOperators.Group.List.Basic
import Mathlib.Algebra.Ring.Nat

/-!
# Run-length encoded lists of numbers

A run stands for the consecutive numbers `start, start + 1, …`; a list of runs
stands for the concatenation of what its runs stand for.  Indexing and appending
work on the runs and are shown to be indexing and appending on the list.
-/

namespace NckuOs.RunLength

/-- The numbers `start, …, start + len - 1`. -/
structure Run where
  start : Nat
  len : Nat
deriving DecidableEq, Repr

/-- The list that a sequence of runs stands for. -/
def expand (runs : List Run) : List Nat :=
  runs.flatMap fun run => List.range' run.start run.len

@[simp]
theorem expand_nil : expand [] = [] :=
  rfl

@[simp]
theorem expand_cons (run : Run) (runs : List Run) :
    expand (run :: runs) = List.range' run.start run.len ++ expand runs :=
  rfl

@[simp]
theorem expand_append (left right : List Run) :
    expand (left ++ right) = expand left ++ expand right := by
  simp [expand]

theorem length_expand (runs : List Run) :
    (expand runs).length = (runs.map Run.len).sum := by
  induction runs with
  | nil => rfl
  | cons run runs ih => simp [ih]

/-- Runs that are not empty are no more than the numbers they stand for. -/
theorem length_le_length_expand {runs : List Run} (nonempty : ∀ run ∈ runs, 0 < run.len) :
    runs.length ≤ (expand runs).length := by
  induction runs with
  | nil => simp
  | cons run runs ih =>
      have positive := nonempty run List.mem_cons_self
      have rest := ih fun other isMem => nonempty other (List.mem_cons_of_mem run isMem)
      simp only [List.length_cons, expand_cons, List.length_append, List.length_range']
      omega

theorem mem_expand_iff {runs : List Run} {b : Nat} :
    b ∈ expand runs ↔ ∃ run ∈ runs, run.start ≤ b ∧ b < run.start + run.len := by
  simp [expand, List.mem_range'_1]

/-! ## Indexing -/

/-- Walk the runs, subtracting the lengths passed. -/
def locate : List Run → Nat → Option Nat
  | [], _ => none
  | run :: rest, i => if i < run.len then some (run.start + i) else locate rest (i - run.len)

/-- Walking the runs is indexing the list. -/
theorem locate_eq_getElem? (runs : List Run) (i : Nat) : locate runs i = (expand runs)[i]? := by
  induction runs generalizing i with
  | nil => simp [locate]
  | cons run rest ih =>
      by_cases inside : i < run.len
      · have bound : i < (List.range' run.start run.len).length := by simpa using inside
        simp [locate, inside, List.getElem?_append_left bound]
      · have bound : (List.range' run.start run.len).length ≤ i := by simpa using inside
        simp [locate, inside, ih, List.getElem?_append_right bound]

/-! ## Appending -/

/-- Append `b`: lengthen the last run when `b` continues it, else start a run. -/
def push : List Run → Nat → List Run
  | [], b => [⟨b, 1⟩]
  | [run], b => if run.start + run.len = b then [⟨run.start, run.len + 1⟩] else [run, ⟨b, 1⟩]
  | run :: next :: rest, b => run :: push (next :: rest) b

theorem push_concat (runs : List Run) (run : Run) (b : Nat) :
    push (runs ++ [run]) b =
      if run.start + run.len = b then runs ++ [⟨run.start, run.len + 1⟩]
      else runs ++ [run, ⟨b, 1⟩] := by
  induction runs with
  | nil => simp [push]
  | cons first rest ih =>
      cases rest with
      | nil =>
          simp only [List.nil_append] at ih
          simp only [List.cons_append, List.nil_append, push]
          split <;> rfl
      | cons second rest =>
          simp only [List.cons_append, push] at ih ⊢
          rw [ih]
          split <;> rfl

/-- Lengthening the last run appends the number behind it. -/
theorem expand_lengthen (front : List Run) (last : Run) :
    expand (front ++ [⟨last.start, last.len + 1⟩]) =
      expand (front ++ [last]) ++ [last.start + last.len] := by
  simp [List.range'_concat]

/-- Appending to the runs is appending to the list. -/
theorem expand_push (runs : List Run) (b : Nat) : expand (push runs b) = expand runs ++ [b] := by
  rcases List.eq_nil_or_concat runs with rfl | ⟨front, last, rfl⟩
  · rfl
  · rw [List.concat_eq_append, push_concat]
    by_cases continues : last.start + last.len = b
    · subst b
      rw [if_pos rfl]
      exact expand_lengthen front last
    · simp [continues]

theorem push_nonempty {runs : List Run} {b : Nat} (nonempty : ∀ run ∈ runs, 0 < run.len) :
    ∀ run ∈ push runs b, 0 < run.len := by
  rcases List.eq_nil_or_concat runs with rfl | ⟨front, last, rfl⟩
  · simp [push]
  · rw [List.concat_eq_append] at nonempty ⊢
    rw [push_concat]
    intro run isMem
    split at isMem
    · rcases List.mem_append.mp isMem with inFront | isLast
      · exact nonempty run (List.mem_append_left _ inFront)
      · simp only [List.mem_singleton] at isLast
        subst run
        exact Nat.succ_pos _
    · rw [List.append_cons, List.mem_append] at isMem
      rcases isMem with old | isNew
      · exact nonempty run old
      · simp only [List.mem_singleton] at isNew
        subst run
        exact Nat.one_pos

/-! ## Runs that cannot be joined -/

/-- No run begins where the one in front of it stops. -/
def Apart (stop : Run → Nat) (runs : List Run) : Prop :=
  runs.IsChain fun run next => stop run ≠ next.start

namespace Apart

variable {stop : Run → Nat} {runs front : List Run} {run : Run}

theorem nil : Apart stop [] :=
  List.IsChain.nil

/-- A run that begins elsewhere can be put at the end. -/
theorem concat (apart : Apart stop runs)
    (elsewhere : ∀ last, runs.getLast? = some last → stop last ≠ run.start) :
    Apart stop (runs ++ [run]) := by
  apply List.IsChain.append apart (.singleton run)
  intro last isLast next isFirst
  cases isFirst
  exact elsewhere last isLast

/-- The length of the last run does not matter. -/
theorem lengthen (apart : Apart stop (front ++ [run])) (len : Nat) :
    Apart stop (front ++ [⟨run.start, len⟩]) := by
  rcases List.isChain_append.mp apart with ⟨frontApart, _, between⟩
  apply concat frontApart
  intro last isLast
  exact between last isLast run rfl

end Apart

end NckuOs.RunLength
