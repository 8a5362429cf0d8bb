import NckuOs.Osfs.Invariant

/-!
# Extent tables as block lists

What the extent functions of `file.c` do to a table, seen through the block map:
lookup indexes it, the total is its length, appending appends.  Each function
that changes the state is a `FileStep` and keeps the invariant.
-/

set_option maxRecDepth 4000

namespace NckuOs.Osfs

open NckuOs.Bitmap
open NckuOs.ByteMemory
open NckuOs.RunLength

/-! ## Loops over the extents -/

/-- The lookup loop walks the runs, with a 32-bit sum at the end. -/
theorem lookupBlockLoop_eq_locate (exts : List Run) (idx : Nat) :
    lookupBlockLoop exts idx =
      match (locate exts idx).map u32 with
      | some block => .ok block
      | none => .error .ENOENT := by
  induction exts generalizing idx with
  | nil => rfl
  | cons extent rest ih =>
      by_cases inside : idx < extent.len
      · simp only [lookupBlockLoop, locate, inside, if_true, Option.map_some]
      · simp only [lookupBlockLoop, locate, inside, if_false]
        exact ih (idx - extent.len)

/-- Without 32-bit overflow it finds the number in the run. -/
theorem lookupBlockLoop_eq {exts : List Run} {idx : Nat}
    (small : ∀ extent ∈ exts, extent.start + extent.len ≤ 2 ^ 32) :
    lookupBlockLoop exts idx =
      match (expand exts)[idx]? with
      | some block => .ok block
      | none => .error .ENOENT := by
  rw [lookupBlockLoop_eq_locate, locate_eq_getElem?]
  cases found : (expand exts)[idx]? with
  | none => rfl
  | some block =>
      rcases mem_expand_iff.mp (List.mem_of_getElem? found) with ⟨extent, isMem, _, below⟩
      have noWrap : u32 block = block := u32_of_lt (below.trans_le (small extent isMem))
      rw [Option.map_some, noWrap]

/-- The total of the lengths, modulo 32 bits. -/
theorem foldl_total_eq (exts : List Run) (total : Nat) (small : total < 2 ^ 32) :
    exts.foldl (fun total extent => u32 (total + extent.len)) total =
      u32 (total + (exts.map Run.len).sum) := by
  induction exts generalizing total with
  | nil => simp [u32_of_lt small]
  | cons extent rest ih =>
      rw [List.foldl_cons, ih _ (u32_lt _)]
      simp only [u32, List.map_cons, List.sum_cons]
      omega

/-! ## Stores into a table -/

theorem loadExtents_succ (mem : Mem) (hdr n : Nat) :
    loadExtents mem hdr (n + 1) = loadExtents mem hdr n ++ [extentAt mem hdr n] := by
  simp [loadExtents, List.range_succ]

/-- A store behind the first `n` extents leaves them alone. -/
theorem loadExtents_store_of_disjoint {mem : Mem} {hdr n p k : Nat} {bytes : Nat → UInt8}
    (disjoint : p + k ≤ hdr + 8 ∨ extentAddr hdr n ≤ p) :
    loadExtents (store mem p k bytes) hdr n = loadExtents mem hdr n := by
  apply loadExtents_congr
  intro i below
  apply Agree.store
  rw [extentAddr_eq] at *
  rcases disjoint with before | behind
  · right
    omega
  · left
    omega

/-- Lengthening the last extent. -/
theorem loadExtents_grow {mem : Mem} {hdr n len : Nat} (small : len < 2 ^ 32) :
    loadExtents (store32 mem (extentAddr hdr n + 4) len) hdr (n + 1) =
      loadExtents mem hdr n ++ [⟨(extentAt mem hdr n).start, len⟩] := by
  rw [loadExtents_succ, store32, loadExtents_store_of_disjoint (.inr (by omega)), ← store32]
  simp only [extentAt, load32_store32, Nat.mod_eq_of_lt small]
  rw [load32_store32_of_disjoint (by omega)]

/-- The three stores that start a new extent. -/
def startExtent (mem : Mem) (hdr n block : Nat) : Mem :=
  let started := store32 mem (extentAddr hdr n) block
  let measured := store32 started (extentAddr hdr n + 4) 1
  store32 measured (hdr + 4) (u32Inc n)

theorem loadExtents_startExtent {mem : Mem} {hdr n block : Nat} (small : block < 2 ^ 32) :
    loadExtents (startExtent mem hdr n block) hdr (n + 1) =
      loadExtents mem hdr n ++ [⟨block, 1⟩] := by
  have addr := extentAddr_eq hdr n
  have start : load32 (startExtent mem hdr n block) (extentAddr hdr n) = block := by
    simp only [startExtent]
    rw [load32_store32_of_disjoint (by omega), load32_store32_of_disjoint (by omega),
      load32_store32, Nat.mod_eq_of_lt small]
  have len : load32 (startExtent mem hdr n block) (extentAddr hdr n + 4) = 1 := by
    simp only [startExtent]
    rw [load32_store32_of_disjoint (by omega), load32_store32]
    rfl
  have front : loadExtents (startExtent mem hdr n block) hdr n = loadExtents mem hdr n := by
    simp only [startExtent, store32]
    rw [loadExtents_store_of_disjoint (.inl (by omega)),
      loadExtents_store_of_disjoint (.inr (by omega)),
      loadExtents_store_of_disjoint (.inr (by omega))]
  rw [loadExtents_succ, front, extentAt, start, len]

theorem hdrMagic_startExtent (mem : Mem) (hdr n block : Nat) :
    hdrMagic (startExtent mem hdr n block) hdr = hdrMagic mem hdr := by
  have addr := extentAddr_eq hdr n
  simp only [hdrMagic, startExtent]
  rw [load32_store32_of_disjoint (by omega), load32_store32_of_disjoint (by omega),
    load32_store32_of_disjoint (by omega)]

theorem hdrCount_startExtent (mem : Mem) (hdr n block : Nat) :
    hdrCount (startExtent mem hdr n block) hdr = u32Inc n := by
  simp only [hdrCount, startExtent]
  rw [load32_store32]
  exact Nat.mod_eq_of_lt (u32_lt _)

/-- Starting an extent writes inside the table block only. -/
theorem sameBlock_startExtent {mem : Mem} {table n block other : Nat} (room : n < osfsMaxExtents)
    (ne : other ≠ table) :
    SameBlock mem (startExtent mem (table * 1024) n block) other := by
  rw [osfsMaxExtents_eq] at room
  have addr := extentAddr_eq (table * 1024) n
  have started : SameBlock mem (store32 mem (extentAddr (table * 1024) n) block) other :=
    SameBlock.store (8 + 8 * n) (by omega) (by omega) ne
  refine started.trans (SameBlock.trans ?_ (SameBlock.store 4 rfl (by omega) ne))
  exact SameBlock.store (12 + 8 * n) (by omega) (by omega) ne

/-! ## The reset -/

theorem hdrMagic_reset (mem : Mem) (hdr : Nat) :
    hdrMagic (osfsExtentResetHeader mem hdr) hdr = osfsExtentMagic := by
  simp only [hdrMagic, osfsExtentResetHeader]
  rw [load32_store32_of_disjoint (by omega), load32_store32]
  rfl

theorem hdrCount_reset (mem : Mem) (hdr : Nat) :
    hdrCount (osfsExtentResetHeader mem hdr) hdr = 0 := by
  simp only [hdrCount, osfsExtentResetHeader]
  rw [load32_store32]
  rfl

theorem sameBlock_reset {mem : Mem} {table other : Nat} (ne : other ≠ table) :
    SameBlock mem (osfsExtentResetHeader mem (table * 1024)) other := by
  have atStart : table * 1024 = table * 1024 + 0 := rfl
  have cleared : SameBlock mem (store mem (table * 1024) blockSize fun _ => 0) other :=
    SameBlock.store 0 atStart (Nat.le_refl _) ne
  refine cleared.trans (SameBlock.trans ?_ (SameBlock.store 4 rfl (by omega) ne))
  exact SameBlock.store 0 atStart (by omega) ne

end NckuOs.Osfs
