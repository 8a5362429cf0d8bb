import Mathlib.Algebra.BigOperators.Fin
import Mathlib.Data.BitVec
import NckuOs.Lib.LoopNest

/-!
# `2_1.c` and `2_2.c`: a matrix product with one thread and with two

The two threads of `2_2.c` run over all cells; one takes the first half of the inner
index and one the second.  The spin lock around the accumulation makes it one step.
-/

namespace NckuOs.Matrix

open NckuOs.LoopNest
open NckuOs.Threads
open NckuOs.Transition

/-- An `int`. -/
abbrev Word := BitVec 32

/-- `res` in `thread` of `2_1.c` after so many rounds of the inner loop. -/
def res (x y : Mat Word) (i j : Nat) : Nat → Word
  | 0 => 0
  | k + 1 => res x y i j k + x i k * y k j

/-- The loops of `thread1` and `thread2`; `n` is `matrix_row_y`. -/
def bounds (rows cols n : Nat) : Fin 2 → Bounds
  | 0 => ⟨0, rows, cols, 0, n / 2⟩
  | 1 => ⟨0, rows, cols, n / 2, n⟩

/-- The two threads of `2_2.c`. -/
def threads (rows cols n : Nat) (x y z₀ : Mat Word) : Program (Fin 2) (Mat Word) Nest :=
  program x y z₀ (bounds rows cols n)

theorem res_eq_sum (x y : Mat Word) (i j n : Nat) :
    res x y i j n = ∑ k ∈ Finset.Ico 0 n, x i k * y k j := by
  induction n with
  | zero => rfl
  | succ n ih => rw [res, ih, Finset.sum_Ico_succ_top (Nat.zero_le n)]

/-- Both halves together are the whole sum. -/
theorem total_halves {rows cols n i j : Nat} (x y : Mat Word) (row : i < rows) (col : j < cols) :
    ∑ t, (bounds rows cols n t).total x y i j = res x y i j n := by
  have first : (bounds rows cols n 0).Covers i j := ⟨Nat.zero_le i, row, col⟩
  have second : (bounds rows cols n 1).Covers i j := ⟨Nat.zero_le i, row, col⟩
  have halves := Finset.sum_Ico_consecutive (fun k => x i k * y k j) (Nat.zero_le (n / 2))
    (Nat.div_le_self n 2)
  rw [Fin.sum_univ_two, Bounds.total, Bounds.total, if_pos first, if_pos second, res_eq_sum]
  exact halves

/-- The threads have ended when both are behind their last row. -/
theorem threads_done {rows cols n : Nat} {x y z₀ : Mat Word}
    {config : Config (Fin 2) (Mat Word) Nest}
    (ended : ∀ t, ¬(config.thread t).i < (config.thread t).bounds.rowTo) (t : Fin 2) :
    (threads rows cols n x y z₀).step t config.shared (config.thread t) = none :=
  Nest.step_eq_none_iff.mpr (ended t)

/-- The product is shared between the threads: when both have ended, in whatever order
they have moved, every cell has grown by the `res` of the single thread, and every value
of the inner index belongs to one of them. -/
theorem two_threads_accumulate {rows cols n : Nat} {x y z₀ : Mat Word}
    {config : Config (Fin 2) (Mat Word) Nest}
    (reachable : Reachable (threads rows cols n x y z₀).system config)
    (done : ∀ t, (threads rows cols n x y z₀).step t config.shared (config.thread t) = none) :
    (∀ i < rows, ∀ j < cols, config.shared i j = z₀ i j + res x y i j n) ∧
      ∀ k < n, ∃! t, (bounds rows cols n t).kFrom ≤ k ∧ k < (bounds rows cols n t).kTo := by
  constructor
  · intro i row j col
    rw [cells_of_done reachable done, total_halves x y row col]
  · intro k below
    by_cases first : k < n / 2
    · refine ⟨0, ⟨Nat.zero_le k, first⟩, ?_⟩
      intro t inHalf
      match t, inHalf with
      | 0, _ => rfl
      | 1, inHalf => exact absurd first (Nat.not_lt_of_le inHalf.1)
    · refine ⟨1, ⟨Nat.le_of_not_lt first, below⟩, ?_⟩
      intro t inHalf
      match t, inHalf with
      | 0, inHalf => exact absurd inHalf.2 first
      | 1, _ => rfl

/-- The product of the matrices `(3 4 6)` and `(5 5 5)`, on top of 7. -/
def threeProducts : Program (Fin 2) (Mat Word) Nest :=
  threads 1 1 3 (fun _ k => if k = 2 then 6 else if k = 1 then 4 else 3) (fun _ _ => 5) fun _ _ => 7

def threeProductsStart : Config (Fin 2) (Mat Word) Nest :=
  ⟨fun _ _ => 7, fun t => (bounds 1 1 3 t).start⟩

/-- The second thread adds its two products around that of the first. -/
def threeProductsEnd : Config (Fin 2) (Mat Word) Nest :=
  (threeProducts.run [1, 0, 1, 0, 1, 0, 1] threeProductsStart).getD threeProductsStart

theorem two_threads_accumulate_threeProducts : threeProductsEnd.shared 0 0 = 72 := by
  have started : Trace threeProducts.system [] threeProductsStart := .start rfl
  have runs : (threeProducts.run [1, 0, 1, 0, 1, 0, 1] threeProductsStart).isSome := by
    decide +kernel
  have reachable : Reachable threeProducts.system threeProductsEnd := by
    rcases Option.isSome_iff_exists.mp runs with ⟨config, ends⟩
    rw [threeProductsEnd, ends]
    exact ⟨_, Program.trace_run _ started ends⟩
  have ended : ∀ t, ¬(threeProductsEnd.thread t).i < (threeProductsEnd.thread t).bounds.rowTo := by
    decide +kernel
  have result :=
    (two_threads_accumulate reachable (threads_done ended)).1 0 (by decide) 0 (by decide)
  rw [result]
  decide +kernel

end NckuOs.Matrix
