import Mathlib.Data.Nat.Digits.Defs
import Mathlib.Data.Nat.Log

/-!
# Decimal numbers

The bytes that the conversions `%d` and `%llu` of the `printf` family print.
-/

namespace NckuOs.Decimal

/-- The bytes of ASCII characters. -/
def ascii (text : List Char) : List UInt8 :=
  text.map fun c => UInt8.ofNat c.toNat

/-- `%llu`. -/
def natDigits (n : Nat) : List UInt8 :=
  ascii (Nat.toDigits 10 n)

/-- `%d`. -/
def intDigits : Int → List UInt8
  | .ofNat n => natDigits n
  | .negSucc n => ascii ['-'] ++ natDigits (n + 1)

example : intDigits (-120) = [45, 49, 50, 48] := by decide

/-- A byte that is a digit or the sign. -/
def IsDigit (c : UInt8) : Prop :=
  45 ≤ c.toNat ∧ c.toNat ≤ 57

theorem isDigit_of_mem_natDigits {n : Nat} {c : UInt8} (isMem : c ∈ natDigits n) : IsDigit c := by
  rcases List.mem_map.mp isMem with ⟨digit, inDigits, rfl⟩
  have isDigit := Nat.isDigit_of_mem_toDigits (by decide) (by decide) inDigits
  simp only [Char.isDigit, Bool.and_eq_true, decide_eq_true_eq, ge_iff_le,
    UInt32.le_iff_toNat_le] at isDigit
  rcases isDigit with ⟨low, high⟩
  have isByte : digit.toNat < 256 := Nat.lt_of_le_of_lt high (by decide)
  have value : (UInt8.ofNat digit.toNat).toNat = digit.toNat := by
    rw [UInt8.toNat_ofNat', Nat.mod_eq_of_lt isByte]
  rw [IsDigit, value]
  exact ⟨Nat.le_trans (by decide) low, high⟩

theorem length_natDigits_le {n k : Nat} (positive : 0 < k) (bound : n < 10 ^ k) :
    (natDigits n).length ≤ k := by
  rw [natDigits, ascii, List.length_map]
  exact (Nat.length_toDigits_le_iff (by decide) positive).mpr bound

theorem isDigit_of_mem_intDigits {z : Int} {c : UInt8} (isMem : c ∈ intDigits z) : IsDigit c := by
  cases z with
  | ofNat n => exact isDigit_of_mem_natDigits isMem
  | negSucc n =>
      rcases List.mem_append.mp isMem with isSign | isMem
      · rcases List.mem_singleton.mp isSign with rfl
        exact ⟨by decide, by decide⟩
      · exact isDigit_of_mem_natDigits isMem

theorem length_intDigits_le {z : Int} {k : Nat} (positive : 0 < k) (bound : z.natAbs < 10 ^ k) :
    (intDigits z).length ≤ k + 1 := by
  cases z with
  | ofNat n => exact Nat.le_succ_of_le (length_natDigits_le positive bound)
  | negSucc n =>
      have digits := length_natDigits_le positive bound
      rw [Int.natAbs_negSucc, Nat.succ_eq_add_one] at digits
      rw [intDigits, List.length_append]
      have sign : (ascii ['-']).length = 1 := rfl
      omega

/-! ## Widths -/

/-- The number of characters of a number, with its sign. -/
def width : Int → Nat
  | .ofNat n => Nat.log 10 n + 1
  | .negSucc n => Nat.log 10 (n + 1) + 2

theorem width_pos (z : Int) : 0 < width z := by
  cases z with
  | ofNat n => exact Nat.succ_pos _
  | negSucc n => exact Nat.succ_pos _

theorem length_natDigits (n : Nat) : (natDigits n).length = Nat.log 10 n + 1 := by
  rw [natDigits, ascii, List.length_map]
  apply Nat.le_antisymm
  · rw [Nat.length_toDigits_le_iff (by decide) (Nat.succ_pos _)]
    exact Nat.lt_pow_succ_log_self (by decide) n
  · by_contra shorter
    have few : (Nat.toDigits 10 n).length ≤ Nat.log 10 n :=
      Nat.le_of_lt_succ (Nat.lt_of_not_le shorter)
    have some : 0 < Nat.log 10 n := Nat.lt_of_lt_of_le Nat.length_toDigits_pos few
    have below := (Nat.length_toDigits_le_iff (by decide) some).mp few
    have nonzero : n ≠ 0 := by
      rintro rfl
      cases some
    exact Nat.not_le_of_lt below (Nat.pow_log_le_self 10 nonzero)

theorem length_intDigits (z : Int) : (intDigits z).length = width z := by
  cases z with
  | ofNat n => exact length_natDigits n
  | negSucc n =>
      rw [intDigits, List.length_append, length_natDigits, Nat.add_comm]
      rfl

end NckuOs.Decimal
