import Mathlib.Algebra.BigOperators.Intervals
import NckuOs.Lib.Threads

/-!
# Loop nests that accumulate a matrix product

Three nested loops add the products `x i k * y k j` to the cells `z i j`.  A nest
runs over a part of the rows and of the inner index, so that several of them can share
the work.  What a nest has added so far is a function of its position, and a step
changes the matrix by exactly what it changes there.
-/

namespace NckuOs.LoopNest

open NckuOs.Threads
open NckuOs.Transition

universe u

/-- A matrix, unbounded. -/
abbrev Mat (R : Type u) := Nat → Nat → R

/-- The bounds of the three loops. -/
structure Bounds where
  rowFrom : Nat
  rowTo : Nat
  cols : Nat
  kFrom : Nat
  kTo : Nat
  deriving DecidableEq, Repr

/-- The loop variables, at the next test of one of the loops. -/
structure Nest where
  bounds : Bounds
  i : Nat
  j : Nat
  k : Nat
  deriving DecidableEq, Repr

variable {R : Type u}

/-- Add to one cell. -/
def addTo [Add R] (z : Mat R) (i j : Nat) (term : R) : Mat R := fun i' j' =>
  if i' = i ∧ j' = j then z i' j' + term else z i' j'

namespace Bounds

/-- A nest before its first test. -/
def start (bounds : Bounds) : Nest :=
  ⟨bounds, bounds.rowFrom, 0, bounds.kFrom⟩

/-- The cells of a nest. -/
def Covers (bounds : Bounds) (i j : Nat) : Prop :=
  bounds.rowFrom ≤ i ∧ i < bounds.rowTo ∧ j < bounds.cols

instance (bounds : Bounds) (i j : Nat) : Decidable (bounds.Covers i j) :=
  inferInstanceAs (Decidable (_ ∧ _))

/-- What a nest adds to a cell from its first to its last step. -/
def total [CommRing R] (bounds : Bounds) (x y : Mat R) (i j : Nat) : R :=
  if bounds.Covers i j then ∑ k ∈ Finset.Ico bounds.kFrom bounds.kTo, x i k * y k j else 0

end Bounds

namespace Nest

/-- One test of a loop, with the accumulation behind it if it is the innermost one
that goes on. -/
def step [Add R] [Mul R] (x y z : Mat R) (n : Nest) : Option (Mat R × Nest) :=
  if n.i < n.bounds.rowTo then
    if n.j < n.bounds.cols then
      if n.k < n.bounds.kTo then
        some (addTo z n.i n.j (x n.i n.k * y n.k n.j), ⟨n.bounds, n.i, n.j, n.k + 1⟩)
      else some (z, ⟨n.bounds, n.i, n.j + 1, n.bounds.kFrom⟩)
    else some (z, ⟨n.bounds, n.i + 1, 0, n.bounds.kFrom⟩)
  else none

/-- The ranges of the loop variables. -/
structure Wf (n : Nest) : Prop where
  row : n.bounds.rowFrom ≤ n.i
  low : n.bounds.kFrom ≤ n.k
  high : n.k ≤ n.bounds.kTo ∨ n.k = n.bounds.kFrom

/-- How far the inner index of a cell has come. -/
def reached (n : Nest) (i j : Nat) : Nat :=
  if i < n.i ∨ (i = n.i ∧ j < n.j) then n.bounds.kTo
  else if i = n.i ∧ j = n.j then n.k
  else n.bounds.kFrom

/-- What the nest has added to a cell. -/
def added [CommRing R] (x y : Mat R) (n : Nest) (i j : Nat) : R :=
  if n.bounds.Covers i j then ∑ k ∈ Finset.Ico n.bounds.kFrom (n.reached i j), x i k * y k j
  else 0

theorem wf_start (bounds : Bounds) : bounds.start.Wf where
  row := Nat.le_refl _
  low := Nat.le_refl _
  high := .inr rfl

variable [CommRing R] {x y : Mat R}

/-- At first nothing has been added. -/
theorem added_start (bounds : Bounds) (i j : Nat) : bounds.start.added x y i j = 0 := by
  by_cases covers : bounds.Covers i j
  · have none : bounds.start.reached i j = bounds.kFrom := by
      have notBefore : ¬(i < bounds.rowFrom ∨ (i = bounds.rowFrom ∧ j < 0)) := by
        have low := covers.1
        omega
      exact (if_neg notBefore).trans (ite_self _)
    have sameBounds : bounds.start.bounds = bounds := rfl
    rw [added, none, sameBounds, if_pos covers, Finset.Ico_self, Finset.sum_empty]
  · exact if_neg covers

/-- After the last row everything has been added. -/
theorem added_done {n : Nest} (done : ¬n.i < n.bounds.rowTo) (i j : Nat) :
    n.added x y i j = n.bounds.total x y i j := by
  by_cases covers : n.bounds.Covers i j
  · have all : n.reached i j = n.bounds.kTo := by
      have before : i < n.i ∨ (i = n.i ∧ j < n.j) := by
        have high := covers.2.1
        omega
      exact if_pos before
    rw [added, Bounds.total, all]
  · rw [added, Bounds.total, if_neg covers, if_neg covers]

/-- A nest ends behind its last row. -/
theorem step_eq_none_iff {z : Mat R} {n : Nest} :
    n.step x y z = none ↔ ¬n.i < n.bounds.rowTo := by
  constructor
  · intro ended inside
    simp only [step, if_pos inside] at ended
    split at ended
    · split at ended
      · cases ended
      · cases ended
    · cases ended
  · intro done
    exact if_neg done

omit [CommRing R] in
/-- The three kinds of steps. -/
theorem step_cases [Add R] [Mul R] {z z' : Mat R} {n n' : Nest}
    (moved : n.step x y z = some (z', n')) :
    n.i < n.bounds.rowTo ∧
      ((n.j < n.bounds.cols ∧ n.k < n.bounds.kTo ∧
          z' = addTo z n.i n.j (x n.i n.k * y n.k n.j) ∧ n' = ⟨n.bounds, n.i, n.j, n.k + 1⟩) ∨
        (n.j < n.bounds.cols ∧ ¬n.k < n.bounds.kTo ∧ z' = z ∧
          n' = ⟨n.bounds, n.i, n.j + 1, n.bounds.kFrom⟩) ∨
        (¬n.j < n.bounds.cols ∧ z' = z ∧ n' = ⟨n.bounds, n.i + 1, 0, n.bounds.kFrom⟩)) := by
  by_cases row : n.i < n.bounds.rowTo
  · refine ⟨row, ?_⟩
    by_cases col : n.j < n.bounds.cols
    · by_cases inner : n.k < n.bounds.kTo
      · simp only [step, if_pos row, if_pos col, if_pos inner] at moved
        rcases Prod.mk.inj (Option.some.inj moved) with ⟨rfl, rfl⟩
        exact .inl ⟨col, inner, rfl, rfl⟩
      · simp only [step, if_pos row, if_pos col, if_neg inner] at moved
        rcases Prod.mk.inj (Option.some.inj moved) with ⟨rfl, rfl⟩
        exact .inr (.inl ⟨col, inner, rfl, rfl⟩)
    · simp only [step, if_pos row, if_neg col] at moved
      rcases Prod.mk.inj (Option.some.inj moved) with ⟨rfl, rfl⟩
      exact .inr (.inr ⟨col, rfl, rfl⟩)
  · rw [step, if_neg row] at moved
    cases moved

/-- What is left of the three loops. -/
def remaining (n : Nest) : Nat × Nat × Nat :=
  (n.bounds.rowTo - n.i, n.bounds.cols - n.j, n.bounds.kTo - n.k)

omit [CommRing R] in
/-- Every step brings a nest nearer to its end. -/
theorem step_remaining [Add R] [Mul R] {z z' : Mat R} {n n' : Nest}
    (moved : n.step x y z = some (z', n')) :
    Prod.Lex (· < ·) (Prod.Lex (· < ·) (· < ·)) n'.remaining n.remaining := by
  rcases step_cases moved with
    ⟨row, ⟨_, inner, _, rfl⟩ | ⟨col, _, _, rfl⟩ | ⟨_, _, rfl⟩⟩
  · exact .right _ (.right _ (Nat.sub_succ_lt_self _ _ inner))
  · exact .right _ (.left _ _ (Nat.sub_succ_lt_self _ _ col))
  · exact .left _ _ (Nat.sub_succ_lt_self _ _ row)

omit [CommRing R] in
theorem step_wf [Add R] [Mul R] {z z' : Mat R} {n n' : Nest} (wf : n.Wf)
    (moved : n.step x y z = some (z', n')) : n'.Wf ∧ n'.bounds = n.bounds := by
  rcases wf with ⟨row, low, high⟩
  rcases (step_cases moved).2 with ⟨_, inner, _, rfl⟩ | ⟨_, _, _, rfl⟩ | ⟨_, _, rfl⟩
  · exact ⟨⟨row, Nat.le_succ_of_le low, .inl inner⟩, rfl⟩
  · exact ⟨⟨row, Nat.le_refl _, .inr rfl⟩, rfl⟩
  · exact ⟨⟨Nat.le_succ_of_le row, Nat.le_refl _, .inr rfl⟩, rfl⟩

/-- An accumulation. -/
theorem added_inner {z : Mat R} {n : Nest} (wf : n.Wf) (row : n.i < n.bounds.rowTo)
    (col : n.j < n.bounds.cols) (i j : Nat) :
    addTo z n.i n.j (x n.i n.k * y n.k n.j) i j + n.added x y i j =
      z i j + Nest.added x y ⟨n.bounds, n.i, n.j, n.k + 1⟩ i j := by
  by_cases here : i = n.i ∧ j = n.j
  · rcases here with ⟨rfl, rfl⟩
    have covers : n.bounds.Covers n.i n.j := ⟨wf.row, row, col⟩
    have notBefore : ¬(n.i < n.i ∨ (n.i = n.i ∧ n.j < n.j)) := by simp
    have now : n.reached n.i n.j = n.k :=
      (if_neg notBefore).trans (if_pos ⟨rfl, rfl⟩)
    have next : Nest.reached ⟨n.bounds, n.i, n.j, n.k + 1⟩ n.i n.j = n.k + 1 :=
      (if_neg notBefore).trans (if_pos ⟨rfl, rfl⟩)
    rw [added, added, now, next, if_pos covers, if_pos covers,
      Finset.sum_Ico_succ_top wf.low, addTo, if_pos ⟨rfl, rfl⟩]
    rw [add_assoc, add_comm (x n.i n.k * y n.k n.j)]
  · have same : Nest.reached ⟨n.bounds, n.i, n.j, n.k + 1⟩ i j = n.reached i j := by
      simp only [reached, if_neg here]
    rw [added, added, same, addTo, if_neg here]

/-- Behind the last round of an inner loop. -/
theorem added_col {n : Nest} (wf : n.Wf) (inner : ¬n.k < n.bounds.kTo) (i j : Nat) :
    Nest.added x y ⟨n.bounds, n.i, n.j + 1, n.bounds.kFrom⟩ i j = n.added x y i j := by
  have same : Finset.Ico n.bounds.kFrom
      (Nest.reached ⟨n.bounds, n.i, n.j + 1, n.bounds.kFrom⟩ i j) =
        Finset.Ico n.bounds.kFrom (n.reached i j) := by
    have high := wf.high
    ext k
    simp only [Finset.mem_Ico, reached]
    split_ifs <;> omega
  rw [added, added, same]

/-- Behind the last column. -/
theorem added_row {n : Nest} (col : ¬n.j < n.bounds.cols) (i j : Nat) :
    Nest.added x y ⟨n.bounds, n.i + 1, 0, n.bounds.kFrom⟩ i j = n.added x y i j := by
  by_cases covers : n.bounds.Covers i j
  · have same : Nest.reached ⟨n.bounds, n.i + 1, 0, n.bounds.kFrom⟩ i j = n.reached i j := by
      have inside := covers.2.2
      simp only [reached]
      split_ifs <;> omega
    rw [added, added, same]
  · rw [added, added, if_neg covers, if_neg covers]

/-- What a step changes is what the nest has added more. -/
theorem step_added {z z' : Mat R} {n n' : Nest} (wf : n.Wf)
    (moved : n.step x y z = some (z', n')) (i j : Nat) :
    z' i j + n.added x y i j = z i j + n'.added x y i j := by
  rcases step_cases moved with
    ⟨row, ⟨col, _, rfl, rfl⟩ | ⟨_, inner, rfl, rfl⟩ | ⟨col, rfl, rfl⟩⟩
  · exact added_inner wf row col i j
  · rw [added_col wf inner]
  · rw [added_row col]

end Nest

/-! ## Several nests over one matrix -/

section Family

variable {ι : Type u} [DecidableEq ι]

/-- The nests start together; every step of a loop is atomic. -/
def program [Add R] [Mul R] (x y z₀ : Mat R) (bounds : ι → Bounds) : Program ι (Mat R) Nest where
  start config := config = ⟨z₀, fun t => (bounds t).start⟩
  step _ := Nest.step x y

variable [Fintype ι] [CommRing R] {x y z₀ : Mat R} {bounds : ι → Bounds}

/-- In every interleaving each cell holds what it held at first and what the nests
have added. -/
theorem cells_of_reachable {config : Config ι (Mat R) Nest}
    (reachable : Reachable (program x y z₀ bounds).system config) :
    (∀ t, (config.thread t).Wf ∧ (config.thread t).bounds = bounds t) ∧
      ∀ i j, config.shared i j = z₀ i j + ∑ t, (config.thread t).added x y i j := by
  apply reachable.invariant
  · rintro _ rfl
    constructor
    · intro t
      exact ⟨Nest.wf_start _, rfl⟩
    · intro i j
      simp only [Nest.added_start, Finset.sum_const_zero, add_zero]
  · rintro config t _ ⟨wf, cells⟩ ⟨⟨z', n'⟩, moved, rfl⟩
    have here := Nest.step_wf (wf t).1 moved
    constructor
    · exact Config.forall_after (P := fun t (n : Nest) => n.Wf ∧ n.bounds = bounds t)
        ⟨here.1, here.2.trans (wf t).2⟩ fun u _ => wf u
    · intro i j
      have changed := Nest.step_added (wf t).1 moved i j
      have exchanged := Config.sum_after (fun n => n.added x y i j) config t z' n'
      rw [cells, add_assoc] at changed
      rw [Config.after_shared]
      apply add_right_cancel (b := (config.thread t).added x y i j)
      rw [changed, add_assoc, exchanged]

/-- When all nests have ended, every cell has grown by what all of them add. -/
theorem cells_of_done {config : Config ι (Mat R) Nest}
    (reachable : Reachable (program x y z₀ bounds).system config)
    (done : ∀ t, (config.thread t).step x y config.shared = none) (i j : Nat) :
    config.shared i j = z₀ i j + ∑ t, (bounds t).total x y i j := by
  rcases cells_of_reachable reachable with ⟨wf, cells⟩
  rw [cells]
  congr 1
  apply Finset.sum_congr rfl
  intro t _
  rw [Nest.added_done (Nest.step_eq_none_iff.mp (done t)), (wf t).2]

end Family

end NckuOs.LoopNest
