import Mathlib.Data.List.Range
import Mathlib.Logic.Function.Basic

/-!
# Bitmaps

Bit arrays used as allocation maps: a set bit is a taken resource.  The file
relates the linear scan for a clear bit to the number of clear bits, which is
what a free counter kept beside the map has to count.
-/

namespace NckuOs.Bitmap

/-- A bit for every index. -/
abbrev Bits := Nat → Bool

/-- `set_bit(i, bits)`. -/
def setBit (bits : Bits) (i : Nat) : Bits :=
  Function.update bits i true

/-- `clear_bit(i, bits)`. -/
def clearBit (bits : Bits) (i : Nat) : Bits :=
  Function.update bits i false

@[simp]
theorem setBit_self (bits : Bits) (i : Nat) : setBit bits i i = true := by
  simp [setBit]

theorem setBit_of_ne {bits : Bits} {i j : Nat} (ne : j ≠ i) : setBit bits i j = bits j := by
  simp [setBit, ne]

@[simp]
theorem clearBit_self (bits : Bits) (i : Nat) : clearBit bits i i = false := by
  simp [clearBit]

theorem clearBit_of_ne {bits : Bits} {i j : Nat} (ne : j ≠ i) :
    clearBit bits i j = bits j := by
  simp [clearBit, ne]

theorem setBit_eq_true_iff {bits : Bits} {i j : Nat} :
    setBit bits i j = true ↔ j = i ∨ bits j = true := by
  by_cases equal : j = i
  · simp [equal]
  · simp [setBit_of_ne equal, equal]

/-- Taking a free bit and giving it back restores the map. -/
theorem clearBit_setBit {bits : Bits} {i : Nat} (free : bits i = false) :
    clearBit (setBit bits i) i = bits := by
  funext j
  by_cases equal : j = i
  · simp [equal, free]
  · rw [clearBit_of_ne equal, setBit_of_ne equal]

/-! ## Scanning for a clear bit -/

/-- The loop `for (i = lo; i < n; i++) if (!test_bit(i, bits)) …`: the first
clear bit from `lo` on, below `n`. -/
def firstClear (bits : Bits) (lo n : Nat) : Option Nat :=
  (List.range' lo (n - lo)).find? fun i => !bits i

/-- The bit that the scan finds, with all bits before it set. -/
theorem firstClear_eq_some_iff {bits : Bits} {lo n i : Nat} :
    firstClear bits lo n = some i ↔
      lo ≤ i ∧ i < n ∧ bits i = false ∧ ∀ j, lo ≤ j → j < i → bits j = true := by
  simp only [firstClear, List.find?_range'_eq_some, List.mem_range'_1, Bool.not_eq_true',
    Bool.not_not]
  constructor
  · rintro ⟨clear, ⟨low, high⟩, before⟩
    exact ⟨low, by omega, clear, before⟩
  · rintro ⟨low, high, clear, before⟩
    exact ⟨clear, ⟨low, by omega⟩, before⟩

theorem firstClear_spec {bits : Bits} {lo n i : Nat} (found : firstClear bits lo n = some i) :
    lo ≤ i ∧ i < n ∧ bits i = false := by
  rcases firstClear_eq_some_iff.mp found with ⟨low, high, clear, _⟩
  exact ⟨low, high, clear⟩

theorem firstClear_eq_none_iff {bits : Bits} {lo n : Nat} :
    firstClear bits lo n = none ↔ ∀ i, lo ≤ i → i < n → bits i = true := by
  simp only [firstClear, List.find?_eq_none, List.mem_range'_1, Bool.not_eq_true',
    Bool.not_eq_false]
  constructor
  · intro full i low high
    exact full i ⟨low, by omega⟩
  · intro full i inRange
    exact full i inRange.1 (by omega)

/-! ## Counting clear bits -/

/-- How many of the first `n` bits are clear. -/
def countClear (bits : Bits) (n : Nat) : Nat :=
  (List.range n).countP fun i => !bits i

theorem countClear_succ (bits : Bits) (n : Nat) :
    countClear bits (n + 1) = countClear bits n + if bits n then 0 else 1 := by
  unfold countClear
  rw [List.range_succ, List.countP_append, List.countP_singleton]
  cases bits n <;> rfl

theorem countClear_le (bits : Bits) (n : Nat) : countClear bits n ≤ n := by
  simpa [countClear] using List.countP_le_length (p := fun i => !bits i) (l := List.range n)

theorem countClear_congr {bits bits' : Bits} {n : Nat} (same : ∀ i < n, bits' i = bits i) :
    countClear bits' n = countClear bits n := by
  unfold countClear
  refine List.countP_congr fun i isMem => ?_
  rw [same i (List.mem_range.mp isMem)]

/-- Setting a clear bit takes one off the count. -/
theorem countClear_setBit {bits : Bits} {n i : Nat} (below : i < n) (free : bits i = false) :
    countClear (setBit bits i) n + 1 = countClear bits n := by
  induction n with
  | zero => omega
  | succ n ih =>
      rw [countClear_succ, countClear_succ]
      by_cases last : i = n
      · subst i
        have same : countClear (setBit bits n) n = countClear bits n :=
          countClear_congr fun j low => setBit_of_ne (by omega)
        simp [same, free]
      · have earlier := ih (by omega)
        rw [setBit_of_ne (Ne.symm last)]
        omega

theorem countClear_eq_zero_iff {bits : Bits} {n : Nat} :
    countClear bits n = 0 ↔ ∀ i < n, bits i = true := by
  simp [countClear, List.countP_eq_zero]

/-- The scan from zero fails exactly when the counter is zero. -/
theorem firstClear_eq_none_iff_countClear {bits : Bits} {n : Nat} :
    firstClear bits 0 n = none ↔ countClear bits n = 0 := by
  rw [firstClear_eq_none_iff, countClear_eq_zero_iff]
  simp

/-! ## Maps that fill up from below -/

/-- The taken indices are those from `lo` up to `n`. -/
def FilledFrom (lo n : Nat) (bits : Bits) : Prop :=
  lo ≤ n ∧ ∀ i, bits i = true ↔ lo ≤ i ∧ i < n

namespace FilledFrom

variable {lo n m : Nat} {bits : Bits}

theorem clear (filled : FilledFrom lo n bits) : bits n = false := by
  by_contra taken
  rw [Bool.not_eq_false, filled.2] at taken
  exact Nat.lt_irrefl n taken.2

/-- An index that the scan finds is the end of the taken ones. -/
theorem eq_of_firstClear (filled : FilledFrom lo n bits) {i : Nat}
    (found : firstClear bits lo m = some i) : i = n := by
  rcases firstClear_eq_some_iff.mp found with ⟨low, _, clear, before⟩
  apply Nat.le_antisymm
  · by_contra beyond
    have taken := before n filled.1 (Nat.lt_of_not_le beyond)
    rw [filled.clear] at taken
    cases taken
  · by_contra short
    have taken := (filled.2 i).mpr ⟨low, Nat.lt_of_not_le short⟩
    rw [clear] at taken
    cases taken

/-- Taking the next index. -/
theorem setBit (filled : FilledFrom lo n bits) : FilledFrom lo (n + 1) (setBit bits n) := by
  refine ⟨Nat.le_succ_of_le filled.1, ?_⟩
  intro i
  have low := filled.1
  rw [setBit_eq_true_iff, filled.2]
  omega

/-- How many indices below `m` are clear. -/
theorem countClear_eq (filled : FilledFrom lo n bits) (inside : n ≤ m) :
    countClear bits m + n = m + lo := by
  have low := filled.1
  have counted (k : Nat) : countClear bits k = if k ≤ lo then k else lo + (k - n) := by
    induction k with
    | zero => simp [countClear]
    | succ k ih =>
        have taken := filled.2 k
        rw [countClear_succ, ih]
        cases bit : bits k with
        | true =>
            rw [bit] at taken
            have between := taken.mp rfl
            simp only [if_true]
            split <;> split <;> omega
        | false =>
            rw [bit] at taken
            have outside : ¬(lo ≤ k ∧ k < n) := fun between => by cases taken.mpr between
            simp only [Bool.false_eq_true, if_false]
            split <;> split <;> omega
  rw [counted m]
  split <;> omega

end FilledFrom

end NckuOs.Bitmap
