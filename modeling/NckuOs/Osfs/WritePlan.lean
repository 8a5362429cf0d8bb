import NckuOs.Osfs.File

/-!
# How far a write gets

A write moves chunk by chunk and stops at the first chunk it cannot finish:
there is no block left for it, or the user buffer faults inside it.  Where that
is depends on four things only, the number of blocks the file can come to have,
the offset, the length and the buffer, and this file says how, without the loop.
-/

namespace NckuOs.Osfs

/-- The offset in the file that a position addresses.  The block index is cut to
32 bits, so this is `pos` up to `2 ^ 42` and wraps there. -/
def filePos (pos : Nat) : Nat :=
  logicalBlock pos * 1024 + blockOffset pos

theorem filePos_eq (pos : Nat) : filePos pos = pos % 2 ^ 42 := by
  unfold filePos logicalBlock blockOffset u32 blockSize
  omega

theorem filePos_of_lt {pos : Nat} (small : pos < 2 ^ 42) : filePos pos = pos := by
  rw [filePos_eq, Nat.mod_eq_of_lt small]

theorem filePos_add {pos n : Nat} (small : filePos pos + n < 2 ^ 42) :
    filePos (pos + n) = filePos pos + n := by
  rw [filePos_eq] at small
  rw [filePos_eq, filePos_eq]
  omega

theorem filePos_div (pos : Nat) : filePos pos / 1024 = logicalBlock pos := by
  have inBlock : blockOffset pos < 1024 := Nat.mod_lt pos (by decide)
  unfold filePos
  omega

theorem filePos_mod (pos : Nat) : filePos pos % 1024 = blockOffset pos := by
  have inBlock : blockOffset pos < 1024 := Nat.mod_lt pos (by decide)
  unfold filePos
  omega

theorem chunkSize_eq (remaining pos : Nat) :
    chunkSize remaining pos = min remaining (1024 - pos % 1024) :=
  rfl

theorem chunkSize_filePos (remaining pos : Nat) :
    chunkSize remaining (filePos pos) = chunkSize remaining pos := by
  rw [chunkSize_eq, chunkSize_eq, filePos_mod]
  rfl

/-- The rest of a buffer. -/
def UserBuf.shift (buf : UserBuf) (n : Nat) : UserBuf where
  byte i := buf.byte (n + i)
  reach i := buf.reach (n + i)

theorem UserBuf.shift_zero (buf : UserBuf) : buf.shift 0 = buf := by
  simp [UserBuf.shift]

theorem UserBuf.shift_shift (buf : UserBuf) (n m : Nat) :
    (buf.shift n).shift m = buf.shift (n + m) := by
  simp [UserBuf.shift, Nat.add_assoc]

/-- A chunk of a write to `[q, q + len)` starts `j` bytes in. -/
def ChunkStart (q len j : Nat) : Prop :=
  j < len ∧ (j = 0 ∨ (q + j) % 1024 = 0)

/-- The chunk that starts `j` bytes in cannot be finished by a file that can
come to have `room` blocks. -/
def Stops (room q len : Nat) (buf : UserBuf) (j : Nat) : Prop :=
  room ≤ (q + j) / 1024 ∨ buf.reach j < chunkSize (len - j) (q + j)

instance (q len j : Nat) : Decidable (ChunkStart q len j) :=
  inferInstanceAs (Decidable (_ ∧ _))

instance (room q len : Nat) (buf : UserBuf) (j : Nat) : Decidable (Stops room q len buf j) :=
  inferInstanceAs (Decidable (_ ∨ _))

/-- Every chunk can be finished. -/
def Passes (room q len : Nat) (buf : UserBuf) : Prop :=
  ∀ j, ChunkStart q len j → ¬Stops room q len buf j

/-- The chunk that starts `j` bytes in is the first that cannot be finished. -/
structure StopsAt (room q len : Nat) (buf : UserBuf) (j : Nat) : Prop where
  start : ChunkStart q len j
  stops : Stops room q len buf j
  first : ∀ i < j, ChunkStart q len i → ¬Stops room q len buf i

/-- The error of a write that stops `j` bytes in. -/
def stopErrno (room q j : Nat) : Errno :=
  if room ≤ (q + j) / 1024 then .ENOSPC else .EFAULT

/-- How many bytes a write that stops `j` bytes in has stored by then: the chunk
that faults is stored too, padded with zeros. -/
def storedLen (room q len j : Nat) : Nat :=
  if room ≤ (q + j) / 1024 then j else j + chunkSize (len - j) (q + j)

/-- The bytes it has stored. -/
def storedByte (buf : UserBuf) (j i : Nat) : UInt8 :=
  if i < j + buf.reach j then buf.byte i else 0

theorem StopsAt.unique {room q len : Nat} {buf : UserBuf} {j k : Nat}
    (atJ : StopsAt room q len buf j) (atK : StopsAt room q len buf k) : j = k := by
  rcases Nat.lt_trichotomy j k with before | equal | after
  · exact absurd atJ.stops (atK.first j before atJ.start)
  · exact equal
  · exact absurd atK.stops (atJ.first k after atK.start)

theorem StopsAt.not_passes {room q len : Nat} {buf : UserBuf} {j : Nat}
    (stopsAt : StopsAt room q len buf j) : ¬Passes room q len buf :=
  fun passes => passes j stopsAt.start stopsAt.stops

/-! ## The first chunk and the rest -/

section FirstChunk

variable {room q len : Nat} {buf : UserBuf}

theorem chunkStart_zero (positive : 0 < len) : ChunkStart q len 0 :=
  ⟨positive, .inl rfl⟩

/-- The next chunk starts where the first one ends. -/
theorem ChunkStart.zero_or_le {j : Nat} (start : ChunkStart q len j) :
    j = 0 ∨ chunkSize len q ≤ j := by
  obtain ⟨_, first | aligned⟩ := start
  · exact .inl first
  · rw [chunkSize_eq]
    omega

theorem chunkStart_add_iff {j : Nat} (positive : 0 < len) :
    ChunkStart q len (chunkSize len q + j) ↔
      ChunkStart (q + chunkSize len q) (len - chunkSize len q) j := by
  have moved : 0 < chunkSize len q := chunkSize_pos positive
  unfold ChunkStart
  rw [chunkSize_eq] at *
  omega

theorem stops_add_iff {j n : Nat} :
    Stops room q len buf (n + j) ↔ Stops room (q + n) (len - n) (buf.shift n) j := by
  unfold Stops
  rw [Nat.add_assoc, Nat.sub_sub]
  rfl

theorem passes_zero : Passes room q 0 buf := by
  intro j start
  exact absurd start.1 (Nat.not_lt_zero j)

/-- A write passes when its first chunk does and the rest does. -/
theorem passes_of_rest (positive : 0 < len) (first : ¬Stops room q len buf 0)
    (rest : Passes room (q + chunkSize len q) (len - chunkSize len q)
      (buf.shift (chunkSize len q))) : Passes room q len buf := by
  intro j start
  rcases start.zero_or_le with rfl | behind
  · exact first
  · obtain ⟨k, rfl⟩ := Nat.exists_eq_add_of_le behind
    rw [stops_add_iff]
    exact rest k ((chunkStart_add_iff positive).mp start)

theorem stopsAt_zero (positive : 0 < len) (stops : Stops room q len buf 0) :
    StopsAt room q len buf 0 where
  start := chunkStart_zero positive
  stops := stops
  first i before := absurd before (Nat.not_lt_zero i)

/-- Where the rest stops, the whole write does. -/
theorem stopsAt_of_rest {j : Nat} (positive : 0 < len) (first : ¬Stops room q len buf 0)
    (rest : StopsAt room (q + chunkSize len q) (len - chunkSize len q)
      (buf.shift (chunkSize len q)) j) : StopsAt room q len buf (chunkSize len q + j) where
  start := (chunkStart_add_iff positive).mpr rest.start
  stops := stops_add_iff.mpr rest.stops
  first i before start := by
    rcases start.zero_or_le with rfl | behind
    · exact first
    · obtain ⟨k, rfl⟩ := Nat.exists_eq_add_of_le behind
      rw [stops_add_iff]
      exact rest.first k (by omega) ((chunkStart_add_iff positive).mp start)

theorem stopErrno_add {n j : Nat} : stopErrno room (q + n) j = stopErrno room q (n + j) := by
  simp only [stopErrno, Nat.add_assoc]

theorem storedLen_add {n j : Nat} :
    n + storedLen room (q + n) (len - n) j = storedLen room q len (n + j) := by
  simp only [storedLen, Nat.add_assoc, Nat.sub_sub]
  split <;> omega

theorem storedByte_shift {n j i : Nat} :
    storedByte (buf.shift n) j i = storedByte buf (n + j) (n + i) := by
  have bound : i < j + buf.reach (n + j) ↔ n + i < n + j + buf.reach (n + j) := by omega
  simp only [storedByte, UserBuf.shift, bound]

theorem storedByte_of_lt {j i : Nat} (before : i < j) : storedByte buf j i = buf.byte i :=
  if_pos (by omega)

end FirstChunk

/-- A range that passes lies within the blocks that are there. -/
theorem Passes.end_le {room q len : Nat} {buf : UserBuf} (passes : Passes room q len buf)
    (positive : 0 < len) : q + len ≤ room * 1024 := by
  by_contra beyond
  -- The chunk of the last byte starts at its block, or is the first one.
  have lastStart : ∃ j, ChunkStart q len j ∧ (q + j) / 1024 = (q + len - 1) / 1024 := by
    by_cases first : (q + len - 1) / 1024 * 1024 ≤ q
    · exact ⟨0, chunkStart_zero positive, by omega⟩
    · refine ⟨(q + len - 1) / 1024 * 1024 - q, ⟨?_, .inr ?_⟩, ?_⟩ <;> omega
  obtain ⟨j, start, block⟩ := lastStart
  apply passes j start
  left
  omega

theorem UserBuf.Valid.mono {buf : UserBuf} {len n : Nat} (valid : buf.Valid len) (le : n ≤ len) :
    buf.Valid n :=
  fun off k inside => valid off k (Nat.le_trans inside le)

/-- A readable buffer and enough blocks let every write pass. -/
theorem passes_of_valid {room q len : Nat} {buf : UserBuf} (valid : buf.Valid len)
    (enough : q + len ≤ room * 1024) : Passes room q len buf := by
  rintro j start (noRoom | faults)
  · have inside := start.1
    omega
  · have whole := chunkSize_le (len - j) (q + j)
    have inside := start.1
    exact absurd (valid j (chunkSize (len - j) (q + j)) (by omega)) (by omega)

end NckuOs.Osfs
