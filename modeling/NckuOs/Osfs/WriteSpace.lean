import NckuOs.Osfs.FileContract

/-!
# When a write finds room

A write starts at most one block behind the mapped blocks of its file, and then takes
exactly the blocks that its range needs.  Whether it starts there is decided by a block
index of 32 bits.
-/

namespace NckuOs.Osfs

variable {sb : SbInfo} {f len pos : Nat} {buf : UserBuf}

/-! ## Behind the next block -/

/-- A write that is turned down and leaves the file as it was. -/
structure WriteRefused (sb : SbInfo) (f : Nat) (r : IoResult) : Prop where
  ret : r.ret = .error .EINVAL
  size : (r.sb.inodeTable f).iSize = (sb.inodeTable f).iSize
  map : blockMap r.sb f = blockMap sb f
  bytes : (fileView r.sb f).bytes = (fileView sb f).bytes

/-- A step that maps no more blocks keeps the block map. -/
theorem Progress.blockMap_eq {sb' : SbInfo} {view : FileView} (progress : Progress sb sb' f view)
    (same : view.blocks = (fileView sb f).blocks) : blockMap sb' f = blockMap sb f := by
  obtain ⟨new, step⟩ := progress.step
  have lengths : (blockMap sb' f).length = (blockMap sb f).length :=
    (congrArg FileView.blocks progress.view_eq).trans same
  rw [step.map_eq, List.length_append] at lengths
  have none : new = [] := List.eq_nil_of_length_eq_zero (Nat.add_eq_left.mp lengths)
  rw [step.map_eq, none, List.append_nil]

/-- A write is refused exactly when the index of its first block is behind the next block
of the file after it was cut to 32 bits. -/
theorem gap_refused_iff (reachable : OsfsReachable sb) (named : f ∈ fileInos sb)
    (positive : 0 < len) :
    WriteRefused sb f (osfsWrite sb (openInode sb f) buf len pos) ↔
      (blockMap sb f).length < pos / blockSize % 2 ^ 32 := by
  have index : filePos pos / 1024 = pos / blockSize % 2 ^ 32 := filePos_div pos
  have result := osfsWrite_result (inv_of_reachable reachable) named buf len pos
  generalize osfsWrite sb (openInode sb f) buf len pos = r at result ⊢
  rw [← index]
  cases result with
  | gap _ behind progress =>
      constructor
      · intro _
        exact behind
      · intro _
        exact
          { ret := rfl
            size := congrArg FileView.size progress.view_eq
            map := progress.blockMap_eq rfl
            bytes := congrArg FileView.bytes progress.view_eq }
  | done within =>
      constructor
      · intro refused
        cases refused.ret
      · intro behind
        rcases within with none | inFile
        · exact absurd none (Nat.ne_of_gt positive)
        · exact absurd behind (Nat.not_lt.mpr inFile)
  | stopped within =>
      constructor
      · intro refused
        have errno : stopErrno _ _ _ = Errno.EINVAL := Except.error.inj refused.ret
        unfold stopErrno at errno
        split at errno
        · cases errno
        · cases errno
      · intro behind
        exact absurd behind (Nat.not_lt.mpr within)

/-- Two blocks behind the end of an empty file. -/
theorem gap_refused_oneFile :
    WriteRefused oneFile 2 (osfsWrite oneFile (openInode oneFile 2) (constBuf 7) 1 2048) := by
  have index : (blockMap oneFile 2).length < 2048 / blockSize % 2 ^ 32 := by decide +kernel
  exact (gap_refused_iff oneFile_reachable oneFile_named (by decide)).mpr index

/-- At 4 TiB the index is 0 again, and the byte goes to the beginning of the file. -/
theorem far_write_wraps :
    ¬∀ sb, OsfsReachable sb → ∀ f ∈ fileInos sb, ∀ buf len pos, 0 < len →
      pos + len < loffLimit → (blockMap sb f).length < pos / blockSize →
      WriteRefused sb f (osfsWrite sb (openInode sb f) buf len pos) := by
  intro refuses
  have beyond : (blockMap oneFile 2).length < 2 ^ 42 / blockSize := by decide +kernel
  have refused := refuses oneFile oneFile_reachable 2 oneFile_named (constBuf 7) 1 (2 ^ 42)
    (by decide) (by decide) beyond
  have wrote : (osfsWrite oneFile (openInode oneFile 2) (constBuf 7) 1 (2 ^ 42)).ret = .ok 1 := by
    decide +kernel
  have failed := wrote.symm.trans refused.ret
  cases failed

/-! ## Up to the next block -/

/-- How many blocks a write has to add to a file of `blocks` blocks. -/
def blocksNeeded (blocks len pos : Nat) : Nat :=
  (pos + len + (blockSize - 1)) / blockSize - blocks

/-- A finished write has added what its range needs. -/
theorem blocksNeeded_spec (positive : 0 < len) (blocks : Nat) :
    max blocks (blocksTo pos len) = blocks + blocksNeeded blocks len pos := by
  have nonzero : len ≠ 0 := Nat.ne_of_gt positive
  unfold blocksTo blocksNeeded blockSize
  rw [if_neg nonzero]
  omega

theorem needed_le_iff (blocks free : Nat) :
    blocksNeeded blocks len pos ≤ free ↔ pos + len ≤ (blocks + free) * 1024 := by
  unfold blocksNeeded blockSize
  omega

/-- What is known of a file's table after any call on it: the block count covers the
table and the mapped blocks, and the table is far from full. -/
structure TableInBounds (sb : SbInfo) (f : Nat) : Prop where
  blocks : (sb.inodeTable f).iBlocks = 1 + (blockMap sb f).length
  extents : hdrCount sb.dataBlocks (osfsGetExtentHeader sb f) < osfsMaxExtents

theorem Ready.tableInBounds (ready : Ready sb f) : TableInBounds sb f where
  blocks := ready.ok.blocks
  extents := Nat.lt_trans ready.hdrCount_lt (by decide)

/-- A write that has run out of blocks has taken the last one. -/
theorem free_eq_zero_of_stopped {sb' : SbInfo} {j : Nat}
    (start : ChunkStart pos len j) (within : pos / 1024 ≤ (fileView sb f).blocks)
    (noRoom : room sb f ≤ (pos + j) / 1024)
    (progress : Progress sb sb' f
      ((fileView sb f).store pos (storedLen (room sb f) pos len j) (storedByte buf j))) :
    sb'.nrFreeBlocks = 0 := by
  have stored : storedLen (room sb f) pos len j = j := if_pos noRoom
  have free := progress.free
  have aligned := start.2
  rw [stored] at progress
  have blocks : (fileView sb' f).blocks = max (fileView sb f).blocks (blocksTo pos j) := by
    rw [progress.view_eq]
    rfl
  rw [blocks] at free
  unfold room at noRoom
  unfold blocksTo at free
  split at free <;> omega

/-- A write that starts at most at the next block of its file succeeds exactly when the
free blocks suffice, and takes what it needs.  When it fails no block is left, so that it
is never the number of extents that it fails for. -/
theorem write_takes_needed (reachable : OsfsReachable sb) (named : f ∈ fileInos sb)
    (positive : 0 < len) (inFile : pos / blockSize ≤ (blockMap sb f).length)
    (valid : buf.Valid len) :
    let need := blocksNeeded (blockMap sb f).length len pos
    let r := osfsWrite sb (openInode sb f) buf len pos
    (need ≤ sb.nrFreeBlocks →
      r.ret = .ok len ∧ r.sb.nrFreeBlocks + need = sb.nrFreeBlocks ∧
        (r.sb.inodeTable f).iBlocks = (sb.inodeTable f).iBlocks + need) ∧
    (sb.nrFreeBlocks < need → r.ret = .error .ENOSPC ∧ r.sb.nrFreeBlocks = 0) ∧
    (sb.inodeTable f).iBlocks = 1 + (blockMap sb f).length ∧ TableInBounds r.sb f := by
  intro need r
  have inv := inv_of_reachable reachable
  have short := inv.length_blockMap_lt named
  have noWrap : filePos pos = pos := by
    apply filePos_of_lt
    unfold blockSize at inFile
    unfold dataBlockCount at short
    omega
  have fits : need ≤ sb.nrFreeBlocks ↔ pos + len ≤ room sb f * 1024 :=
    needed_le_iff (blockMap sb f).length sb.nrFreeBlocks
  have result : WriteResult sb f buf len pos r := osfsWrite_result inv named buf len pos
  have before := (inv.fileOk named).blocks
  generalize r = r' at result ⊢
  cases result with
  | gap _ behind =>
      rw [noWrap] at behind
      exact absurd behind (Nat.not_lt.mpr inFile)
  | @done sb' _ passes progress =>
      rw [noWrap] at passes progress
      have enough := fits.mpr (passes.end_le positive)
      have blocks : (fileView sb' f).blocks = (fileView sb f).blocks + need := by
        rw [progress.view_eq]
        exact blocksNeeded_spec positive _
      have after := progress.ready.ok.blocks
      have free := progress.free
      have grown : (blockMap sb' f).length = (blockMap sb f).length + need := blocks
      refine ⟨fun _ => ⟨rfl, ?_, ?_⟩, ?_, before, progress.ready.tableInBounds⟩
      · change sb'.nrFreeBlocks + need = sb.nrFreeBlocks
        omega
      · change (sb'.inodeTable f).iBlocks = (sb.inodeTable f).iBlocks + need
        rw [after, before, grown, Nat.add_assoc]
      · intro few
        exact absurd enough (Nat.not_le.mpr few)
  | @stopped sb' j within stopsAt progress =>
      rw [noWrap] at within stopsAt progress
      have few : ¬need ≤ sb.nrFreeBlocks := by
        intro enough
        exact stopsAt.not_passes (passes_of_valid valid (fits.mp enough))
      have noRoom : room sb f ≤ (pos + j) / 1024 := by
        rcases stopsAt.stops with noRoom | faults
        · exact noRoom
        · have whole := chunkSize_le (len - j) (pos + j)
          have inside := stopsAt.start.1
          exact absurd (valid j (chunkSize (len - j) (pos + j)) (by omega)) (Nat.not_le.mpr faults)
      have errno : stopErrno (room sb f) (filePos pos) j = .ENOSPC := by
        rw [noWrap]
        exact if_pos noRoom
      refine ⟨fun enough => absurd enough few, fun _ => ⟨?_, ?_⟩, before,
        progress.ready.tableInBounds⟩
      · exact congrArg Except.error errno
      · exact free_eq_zero_of_stopped stopsAt.start within noRoom progress

/-- Three blocks for a file that has none. -/
theorem write_takes_needed_oneFile :
    (osfsWrite oneFile (openInode oneFile 2) (constBuf 7) 2049 0).ret = .ok 2049 := by
  have inFile : 0 / blockSize ≤ (blockMap oneFile 2).length := Nat.zero_le _
  have valid : (constBuf 7).Valid 2049 := constBuf_valid (by decide)
  have enough : blocksNeeded (blockMap oneFile 2).length 2049 0 ≤ oneFile.nrFreeBlocks := by
    decide +kernel
  exact ((write_takes_needed oneFile_reachable oneFile_named (by decide) inFile valid).1 enough).1

end NckuOs.Osfs
