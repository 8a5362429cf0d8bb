import Mathlib.Data.List.Basic
import Mathlib.Tactic.NormNum
import Mathlib.Tactic.Tauto

/-!
# Byte-addressed memory

A flat memory of bytes with the few access patterns of C code: writing a run of
bytes, little-endian 32-bit words, and NUL-terminated strings.  Every store is
the one operation `store`, so a frame fact about `store` is a frame fact about
all of them.
-/

namespace NckuOs.ByteMemory

/-- A memory is a byte for every address. -/
abbrev Mem := Nat → UInt8

/-- Write the bytes `bytes 0, …, bytes (n - 1)` at address `p`. -/
def store (mem : Mem) (p n : Nat) (bytes : Nat → UInt8) : Mem := fun a =>
  if p ≤ a ∧ a < p + n then bytes (a - p) else mem a

theorem store_of_mem {mem : Mem} {p n a : Nat} {bytes : Nat → UInt8}
    (low : p ≤ a) (high : a < p + n) : store mem p n bytes a = bytes (a - p) := by
  simp [store, low, high]

theorem store_of_not_mem {mem : Mem} {p n a : Nat} {bytes : Nat → UInt8}
    (outside : a < p ∨ p + n ≤ a) : store mem p n bytes a = mem a := by
  have notMem : ¬(p ≤ a ∧ a < p + n) := by omega
  simp [store, notMem]

@[simp]
theorem store_zero (mem : Mem) (p : Nat) (bytes : Nat → UInt8) :
    store mem p 0 bytes = mem := by
  funext a
  exact store_of_not_mem (by omega)

/-- Only the first `n` bytes matter. -/
theorem store_congr {mem : Mem} {p n : Nat} {bytes bytes' : Nat → UInt8}
    (same : ∀ i < n, bytes' i = bytes i) : store mem p n bytes' = store mem p n bytes := by
  funext a
  by_cases inside : p ≤ a ∧ a < p + n
  · rw [store_of_mem inside.1 inside.2, store_of_mem inside.1 inside.2]
    exact same (a - p) (by omega)
  · rw [store_of_not_mem (by omega), store_of_not_mem (by omega)]

/-- Writing a run piece by piece is writing it at once. -/
theorem store_store_adjacent (mem : Mem) (p n m : Nat) (bytes : Nat → UInt8) :
    store (store mem p n bytes) (p + n) m (fun i => bytes (n + i)) = store mem p (n + m) bytes := by
  funext a
  by_cases second : p + n ≤ a ∧ a < p + n + m
  · rw [store_of_mem second.1 second.2, store_of_mem (by omega) (by omega)]
    congr 1
    omega
  · rw [store_of_not_mem (by omega)]
    by_cases first : p ≤ a ∧ a < p + n
    · rw [store_of_mem first.1 first.2, store_of_mem first.1 (by omega)]
    · rw [store_of_not_mem (by omega), store_of_not_mem (by omega)]

/-- Two memories agree on the addresses `[p, p + n)`. -/
def Agree (mem mem' : Mem) (p n : Nat) : Prop :=
  ∀ a, p ≤ a → a < p + n → mem' a = mem a

namespace Agree

theorem refl (mem : Mem) (p n : Nat) : Agree mem mem p n :=
  fun _ _ _ => rfl

theorem trans {first second third : Mem} {p n : Nat} (left : Agree first second p n)
    (right : Agree second third p n) : Agree first third p n :=
  fun a low high => (right a low high).trans (left a low high)

theorem mono {mem mem' : Mem} {p n q k : Nat} (agree : Agree mem mem' p n)
    (low : p ≤ q) (high : q + k ≤ p + n) : Agree mem mem' q k :=
  fun a qLow qHigh => agree a (by omega) (by omega)

/-- A store is invisible outside the bytes it writes. -/
theorem store {mem : Mem} {p n q k : Nat} {bytes : Nat → UInt8}
    (disjoint : q + k ≤ p ∨ p + n ≤ q) :
    Agree mem (ByteMemory.store mem p n bytes) q k :=
  fun _ low high => store_of_not_mem (by omega)

end Agree

/-! ## Little-endian words -/

/-- The 32-bit word at address `p`. -/
def load32 (mem : Mem) (p : Nat) : Nat :=
  (mem p).toNat + 2 ^ 8 * (mem (p + 1)).toNat + 2 ^ 16 * (mem (p + 2)).toNat +
    2 ^ 24 * (mem (p + 3)).toNat

theorem load32_lt (mem : Mem) (p : Nat) : load32 mem p < 2 ^ 32 := by
  have first := UInt8.toNat_lt (mem p)
  have second := UInt8.toNat_lt (mem (p + 1))
  have third := UInt8.toNat_lt (mem (p + 2))
  have fourth := UInt8.toNat_lt (mem (p + 3))
  unfold load32
  omega

/-- The `i`-th byte of a word. -/
def byteOf (word i : Nat) : UInt8 :=
  UInt8.ofNat (word / 2 ^ (8 * i))

/-- Write a 32-bit word at address `p`. -/
def store32 (mem : Mem) (p word : Nat) : Mem :=
  store mem p 4 (byteOf word)

theorem load32_congr {mem mem' : Mem} {p : Nat} (agree : Agree mem mem' p 4) :
    load32 mem' p = load32 mem p := by
  simp only [load32]
  rw [agree p (by omega) (by omega), agree (p + 1) (by omega) (by omega),
    agree (p + 2) (by omega) (by omega), agree (p + 3) (by omega) (by omega)]

theorem load32_store_of_disjoint {mem : Mem} {p n q : Nat} {bytes : Nat → UInt8}
    (disjoint : q + 4 ≤ p ∨ p + n ≤ q) : load32 (store mem p n bytes) q = load32 mem q :=
  load32_congr (Agree.store disjoint)

theorem load32_store32_of_disjoint {mem : Mem} {p q word : Nat}
    (disjoint : q + 4 ≤ p ∨ p + 4 ≤ q) : load32 (store32 mem p word) q = load32 mem q :=
  load32_store_of_disjoint disjoint

/-- A stored word is read back, up to its 32 bits. -/
theorem load32_store32 (mem : Mem) (p word : Nat) :
    load32 (store32 mem p word) p = word % 2 ^ 32 := by
  simp only [load32, store32]
  rw [store_of_mem (by omega) (by omega), store_of_mem (by omega) (by omega),
    store_of_mem (by omega) (by omega), store_of_mem (by omega) (by omega)]
  simp only [byteOf, UInt8.toNat_ofNat', Nat.sub_self, Nat.add_sub_cancel_left, Nat.mul_zero,
    Nat.pow_zero, Nat.div_one]
  omega

/-- Four zero bytes are the word zero. -/
theorem load32_eq_zero {mem : Mem} {p : Nat} (zero : ∀ a, p ≤ a → a < p + 4 → mem a = 0) :
    load32 mem p = 0 := by
  simp only [load32]
  rw [zero p (by omega) (by omega), zero (p + 1) (by omega) (by omega),
    zero (p + 2) (by omega) (by omega), zero (p + 3) (by omega) (by omega)]
  rfl

/-! ## NUL-terminated strings -/

/-- The bytes at `p` up to, not including, the first NUL; at most `limit` of
them. -/
def cstr (mem : Mem) (p : Nat) : Nat → List UInt8
  | 0 => []
  | limit + 1 => if mem p = 0 then [] else mem p :: cstr mem (p + 1) limit

/-- `strncmp(p, name, |name|) == 0`: both strings agree on their first `|name|`
characters or end together before. -/
def strncmpEq (mem : Mem) (p : Nat) : List UInt8 → Bool
  | [] => true
  | c :: rest => mem p = c && (c = 0 || strncmpEq mem (p + 1) rest)

theorem zero_not_mem_cstr (mem : Mem) (p limit : Nat) : 0 ∉ cstr mem p limit := by
  induction limit generalizing p with
  | zero => simp [cstr]
  | succ limit ih =>
      unfold cstr
      by_cases nul : mem p = 0
      · simp [nul]
      · simp only [nul, if_false, List.mem_cons, not_or]
        exact ⟨fun zero => nul zero.symm, ih (p + 1)⟩

theorem length_cstr_le (mem : Mem) (p limit : Nat) : (cstr mem p limit).length ≤ limit := by
  induction limit generalizing p with
  | zero => exact Nat.le_refl 0
  | succ limit ih =>
      unfold cstr
      split
      · exact Nat.zero_le _
      · exact Nat.succ_le_succ (ih (p + 1))

/-- A string ends at the first NUL at the latest. -/
theorem length_cstr_le_of_nul {mem : Mem} {p k : Nat} (limit : Nat) (nul : mem (p + k) = 0) :
    (cstr mem p limit).length ≤ k := by
  induction limit generalizing p k with
  | zero => exact Nat.zero_le k
  | succ limit ih =>
      unfold cstr
      by_cases first : mem p = 0
      · rw [if_pos first]
        exact Nat.zero_le k
      · rw [if_neg first, List.length_cons]
        cases k with
        | zero => exact absurd nul first
        | succ k =>
            apply Nat.succ_le_succ
            apply ih
            rw [Nat.add_assoc, Nat.add_comm 1 k]
            exact nul

/-- A string that ends within the limit is determined by its own bytes and the
NUL after them. -/
theorem cstr_eq_of_nul {mem : Mem} {p limit : Nat} {name : List UInt8}
    (noNul : 0 ∉ name) (room : name.length < limit)
    (bytes : ∀ i < name.length, mem (p + i) = name.getD i 0)
    (nul : mem (p + name.length) = 0) : cstr mem p limit = name := by
  induction name generalizing p limit with
  | nil =>
      cases limit with
      | zero => rfl
      | succ limit => simpa [cstr] using nul
  | cons c rest ih =>
      cases limit with
      | zero => simp at room
      | succ limit =>
          have first : mem p = c := bytes 0 (Nat.succ_pos _)
          have nonzero : ¬mem p = 0 := fun zero => noNul (by simp [← first, zero])
          have tail : cstr mem (p + 1) limit = rest := by
            refine ih (fun isMem => noNul (List.mem_cons_of_mem c isMem)) (by simpa using room)
              (fun i below => ?_) ?_
            · rw [Nat.add_assoc, Nat.add_comm 1 i]
              exact bytes (i + 1) (Nat.succ_lt_succ below)
            · rw [Nat.add_assoc, Nat.add_comm 1]
              exact nul
          rw [cstr, if_neg nonzero, tail, first]

/-- The bytes that `cstr` reads, and the NUL that stops it. -/
theorem cstr_bytes {mem : Mem} {p limit : Nat} (ends : (cstr mem p limit).length < limit) :
    (∀ i < (cstr mem p limit).length, mem (p + i) = (cstr mem p limit).getD i 0) ∧
      mem (p + (cstr mem p limit).length) = 0 := by
  induction limit generalizing p with
  | zero => simp at ends
  | succ limit ih =>
      by_cases nul : mem p = 0
      · simp [cstr, nul]
      · have unfolded : cstr mem p (limit + 1) = mem p :: cstr mem (p + 1) limit := by
          simp [cstr, nul]
        have shorter : (cstr mem (p + 1) limit).length < limit := by
          simpa [unfolded] using ends
        obtain ⟨bytes, stop⟩ := ih shorter
        constructor
        · intro i below
          cases i with
          | zero => simp [unfolded]
          | succ i =>
              have inner : i < (cstr mem (p + 1) limit).length := by
                simpa [unfolded] using below
              rw [unfolded, List.getD_cons_succ, ← bytes i inner, Nat.add_assoc, Nat.add_comm 1 i]
        · rw [unfolded, List.length_cons, ← stop, Nat.add_assoc, Nat.add_comm 1]

/-- A string is unchanged when its bytes and its NUL are. -/
theorem cstr_congr {mem mem' : Mem} {p limit : Nat}
    (ends : (cstr mem p limit).length < limit)
    (agree : Agree mem mem' p ((cstr mem p limit).length + 1)) :
    cstr mem' p limit = cstr mem p limit := by
  obtain ⟨bytes, stop⟩ := cstr_bytes ends
  refine cstr_eq_of_nul (zero_not_mem_cstr mem p limit) ends (fun i below => ?_) ?_
  · rw [agree (p + i) (by omega) (by omega)]
    exact bytes i below
  · rw [agree _ (by omega) (by omega)]
    exact stop

/-- Comparing lengths first makes `strncmp` an equality test against a
NUL-terminated string. -/
theorem strncmpEq_iff_cstr {mem : Mem} {p limit : Nat} {name : List UInt8}
    (noNul : 0 ∉ name) (ends : (cstr mem p limit).length < limit) :
    ((cstr mem p limit).length = name.length ∧ strncmpEq mem p name = true) ↔
      cstr mem p limit = name := by
  induction name generalizing p limit with
  | nil => simp [strncmpEq]
  | cons c rest ih =>
      cases limit with
      | zero => simp at ends
      | succ limit =>
          have cNonzero : c ≠ 0 := fun zero => noNul (by simp [zero])
          by_cases nul : mem p = 0
          · simp [cstr, nul]
          · have shorter : (cstr mem (p + 1) limit).length < limit := by
              simpa [cstr, nul] using ends
            have tail := ih (fun isMem => noNul (List.mem_cons_of_mem c isMem)) shorter
            simp only [cstr, nul, if_false, List.length_cons, Nat.add_right_cancel_iff,
              strncmpEq, Bool.and_eq_true, decide_eq_true_eq, Bool.or_eq_true, cNonzero,
              false_or, List.cons.injEq]
            rw [← tail]
            tauto

end NckuOs.ByteMemory
