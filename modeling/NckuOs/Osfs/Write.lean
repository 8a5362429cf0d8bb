import NckuOs.Osfs.Content
import NckuOs.Osfs.WritePlan

/-!
# Writing a file

The write loop refines one abstract store: whatever chunks and extents it goes
through, a write to `[q, q + len)` that passes leaves the view of the file with
the whole range stored, and one that stops leaves it with the part stored that
`WritePlan` says.
-/

set_option maxRecDepth 4000

namespace NckuOs.Osfs

open NckuOs.Bitmap
open NckuOs.ByteMemory
open NckuOs.RunLength

/-- The number of blocks that a file can come to have. -/
def room (sb : SbInfo) (f : Nat) : Nat :=
  (fileView sb f).blocks + sb.nrFreeBlocks

theorem Progress.room_eq {sb sb' : SbInfo} {f : Nat} {view : FileView}
    (progress : Progress sb sb' f view) : room sb' f = room sb f := by
  have free := progress.free
  unfold room
  omega

theorem Progress.hdr_eq {sb sb' : SbInfo} {f : Nat} {view : FileView}
    (progress : Progress sb sb' f view) :
    osfsGetExtentHeader sb' f = osfsGetExtentHeader sb f := by
  obtain ⟨new, step⟩ := progress.step
  rw [osfsGetExtentHeader, osfsGetExtentHeader, step.iBlock_eq]

/-- A ready file is some progress from itself. -/
theorem Ready.progress {sb : SbInfo} {f : Nat} (ready : Ready sb f) :
    Progress sb sb f (fileView sb f) where
  ready := ready
  step := ⟨[], (Ensured.of_valid ready).step⟩
  free := rfl
  view_eq := rfl

/-- A coarse bound, enough to keep file offsets far from wrapping. -/
theorem Ready.room_lt {sb : SbInfo} {f : Nat} (ready : Ready sb f) : room sb f < 40 := by
  have short : (fileView sb f).blocks < 20 := ready.inv.length_blockMap_lt ready.named
  have free : sb.nrFreeBlocks ≤ 20 := by
    rw [ready.inv.freeBlocks]
    exact countClear_le sb.blockBitmap dataBlockCount
  unfold room
  omega

/-! ## The block of a chunk -/

section WriteBlock

variable {sb : SbInfo} {f logical : Nat}

theorem writeBlock_gap (ready : Ready sb f) (beyond : (fileView sb f).blocks < logical) :
    writeBlock sb f (osfsGetExtentHeader sb f) logical (fileView sb f).blocks =
      .error .EINVAL sb := by
  have unmapped := ready.lookup_of_ge (Nat.le_of_lt beyond)
  simp only [writeBlock, unmapped, gt_iff_lt, beyond, if_true]

theorem writeBlock_full (ready : Ready sb f) (next : (fileView sb f).blocks = logical)
    (full : sb.nrFreeBlocks = 0) :
    writeBlock sb f (osfsGetExtentHeader sb f) logical (fileView sb f).blocks =
      .error .ENOSPC sb := by
  have unmapped := ready.lookup_of_ge (Nat.le_of_eq next)
  have within : ¬logical > (fileView sb f).blocks := by omega
  rcases osfsExtentAppendBlock_cases ready with ⟨block, sb', _, _, appended, spec⟩ | ⟨_, failed⟩
  · have free := spec.free
    omega
  · simp only [writeBlock, unmapped, within, if_false, failed]

/-- A chunk gets its block when that is mapped, or next and available. -/
theorem writeBlock_ok (ready : Ready sb f) (within : logical ≤ (fileView sb f).blocks)
    (available : logical < room sb f) :
    ∃ sb', writeBlock sb f (osfsGetExtentHeader sb f) logical (fileView sb f).blocks =
        .ok ((blockMap sb' f).getD logical 0, (fileView sb' f).blocks) sb' ∧
      logical < (blockMap sb' f).length ∧
      Progress sb sb' f
        { fileView sb f with blocks := max (fileView sb f).blocks (logical + 1) } := by
  rcases Nat.lt_or_eq_of_le within with mapped | next
  · refine ⟨sb, ?_, mapped, ?_⟩
    · have found := ready.lookup_of_lt mapped
      simp only [writeBlock, found]
    · have same : max (fileView sb f).blocks (logical + 1) = (fileView sb f).blocks := by omega
      rw [same]
      exact ready.progress
  · have unmapped := ready.lookup_of_ge (Nat.le_of_eq next.symm)
    have noGap : ¬logical > (fileView sb f).blocks := by omega
    rcases osfsExtentAppendBlock_cases ready with
      ⟨block, sb', inArea, clear, appended, spec⟩ | ⟨full, _⟩
    · have progress := spec.progress ready inArea clear
      have blocks : (fileView sb' f).blocks = (fileView sb f).blocks + 1 := by
        rw [progress.view_eq]
      have mapped : logical < (blockMap sb' f).length := by
        change logical < (fileView sb' f).blocks
        omega
      have count : u32Inc (fileView sb f).blocks = (fileView sb' f).blocks := by
        have short := ready.inv.length_blockMap_lt ready.named
        rw [blocks]
        apply u32_of_lt
        change (fileView sb f).blocks < 20 at short
        omega
      refine ⟨sb', ?_, mapped, ?_⟩
      · have found := progress.ready.lookup_of_lt mapped
        rw [progress.hdr_eq] at found
        simp only [writeBlock, unmapped, noGap, if_false, appended, found, count]
      · have max_eq : max (fileView sb f).blocks (logical + 1) = (fileView sb f).blocks + 1 := by
          omega
        rw [max_eq]
        exact progress
    · unfold room at available
      omega

end WriteBlock

/-! ## The loop -/

/-- What a write of `len` bytes of `buf` at offset `q` can come to. -/
inductive WriteOutcome (sb : SbInfo) (f q len : Nat) (buf : UserBuf) (final : Nat × Nat) :
    Outcome (Nat × Nat) → Prop
  | gap (positive : 0 < len) (beyond : (fileView sb f).blocks < q / 1024) :
      WriteOutcome sb f q len buf final (.error .EINVAL sb)
  | done {sb' : SbInfo} (within : len = 0 ∨ q / 1024 ≤ (fileView sb f).blocks)
      (passes : Passes (room sb f) q len buf)
      (progress : Progress sb sb' f ((fileView sb f).store q len buf.byte)) :
      WriteOutcome sb f q len buf final (.ok final sb')
  | stopped {sb' : SbInfo} {j : Nat} (within : q / 1024 ≤ (fileView sb f).blocks)
      (stopsAt : StopsAt (room sb f) q len buf j)
      (progress : Progress sb sb' f
        ((fileView sb f).store q (storedLen (room sb f) q len j) (storedByte buf j))) :
      WriteOutcome sb f q len buf final (.error (stopErrno (room sb f) q j) sb')

section FirstChunk

variable {sb sb' : SbInfo} {f q len : Nat} {buf : UserBuf}

/-- A file in which a chunk was stored has room for the next chunk to start. -/
theorem div_le_blocks_of_store {view : FileView} {n : Nat} (positive : 0 < n) :
    (q + n) / 1024 ≤ (view.store q n buf.byte).blocks := by
  have nonzero : n ≠ 0 := by omega
  simp only [FileView.store, blocksTo, if_neg nonzero]
  omega

/-- A finished first chunk followed by an outcome for the rest is an outcome for
the whole. -/
theorem WriteOutcome.of_rest {final : Nat × Nat} {r : Outcome (Nat × Nat)} (positive : 0 < len)
    (within : q / 1024 ≤ (fileView sb f).blocks) (first : ¬Stops (room sb f) q len buf 0)
    (progress : Progress sb sb' f ((fileView sb f).store q (chunkSize len q) buf.byte))
    (rest : WriteOutcome sb' f (q + chunkSize len q) (len - chunkSize len q)
      (buf.shift (chunkSize len q)) final r) : WriteOutcome sb f q len buf final r := by
  have moved : 0 < chunkSize len q := chunkSize_pos positive
  have inside : chunkSize len q ≤ len := chunkSize_le len q
  cases rest with
  | gap _ beyond =>
      rw [progress.view_eq] at beyond
      exact absurd (div_le_blocks_of_store moved) (Nat.not_le.mpr beyond)
  | done _ passes restProgress =>
      rw [progress.room_eq] at passes
      refine .done (.inr within) (passes_of_rest positive first passes) ?_
      have whole := progress.trans restProgress
      rw [progress.view_eq] at whole
      have stored := FileView.store_store (fileView sb f) q (chunkSize len q)
        (len - chunkSize len q) buf.byte
      rw [Nat.add_sub_cancel' inside] at stored
      rw [← stored]
      exact whole
  | @stopped _ j _ stopsAt restProgress =>
      rw [progress.room_eq] at stopsAt restProgress ⊢
      rw [stopErrno_add]
      refine .stopped within (stopsAt_of_rest positive first stopsAt) ?_
      have whole := progress.trans restProgress
      rw [progress.view_eq] at whole
      have firstBytes : (fileView sb f).store q (chunkSize len q) buf.byte =
          (fileView sb f).store q (chunkSize len q) (storedByte buf (chunkSize len q + j)) := by
        apply FileView.store_congr
        intro i below
        exact (storedByte_of_lt (by omega)).symm
      have restBytes : storedByte (buf.shift (chunkSize len q)) j =
          fun i => storedByte buf (chunkSize len q + j) (chunkSize len q + i) := by
        funext i
        exact storedByte_shift
      rw [firstBytes, restBytes, FileView.store_store, storedLen_add] at whole
      exact whole

end FirstChunk

section Chunk

variable {sb sb' : SbInfo} {f pos chunk : Nat} (buf : UserBuf) (done : Nat)

/-- The bytes a chunk leaves in the file. -/
def chunkByte (buf : UserBuf) (done chunk i : Nat) : UInt8 :=
  if i < buf.copied done chunk then buf.byte (done + i) else 0

/-- Copying a chunk into its block stores it at its offset in the file. -/
theorem chunk_progress
    (progress : Progress sb sb' f
      { fileView sb f with blocks := max (fileView sb f).blocks (logicalBlock pos + 1) })
    (mapped : logicalBlock pos < (blockMap sb' f).length) (positive : 0 < chunk)
    (inside : blockOffset pos + chunk ≤ 1024) :
    Progress sb
      (sb'.setData (copyFromUser sb'.dataBlocks
        (chunkAddr ((blockMap sb' f).getD (logicalBlock pos) 0) pos) buf done chunk).2) f
      ((fileView sb f).store (filePos pos) chunk (chunkByte buf done chunk)) := by
  have inArea : (blockMap sb' f).getD (logicalBlock pos) 0 < dataBlockCount :=
    progress.ready.inv.blockMap_lt progress.ready.named (getD_mem_blockMap mapped)
  have stored := storeChunk_progress (chunkByte buf done chunk) progress.ready mapped inside
  have view_eq : (fileView sb' f).store (logicalBlock pos * 1024 + blockOffset pos) chunk
      (chunkByte buf done chunk) =
        (fileView sb f).store (filePos pos) chunk (chunkByte buf done chunk) := by
    have nonzero : chunk ≠ 0 := by omega
    have last : (filePos pos + chunk - 1) / 1024 = logicalBlock pos := by
      unfold filePos
      omega
    rw [progress.view_eq, ← filePos]
    simp only [FileView.store, blocksTo, if_neg nonzero, last, max_assoc, max_self]
  rw [view_eq] at stored
  rw [chunkAddr, blockAddr_of_lt inArea]
  exact progress.trans stored

end Chunk

section Loop

variable {sb : SbInfo} {f : Nat} {buf : UserBuf} {remaining pos done : Nat}

/-- A chunk for which no block is left stops the write before it stores
anything. -/
theorem stopped_full {final : Nat × Nat} (ready : Ready sb f) (positive : 0 < remaining)
    (within : logicalBlock pos ≤ (fileView sb f).blocks)
    (noRoom : room sb f ≤ logicalBlock pos) :
    WriteOutcome sb f (filePos pos) remaining (buf.shift done) final (.error .ENOSPC sb) := by
  have atStart : room sb f ≤ (filePos pos + 0) / 1024 := by
    rw [Nat.add_zero, filePos_div]
    exact noRoom
  have errno : stopErrno (room sb f) (filePos pos) 0 = .ENOSPC := if_pos atStart
  have nothing : storedLen (room sb f) (filePos pos) remaining 0 = 0 := if_pos atStart
  rw [← errno]
  apply WriteOutcome.stopped (by rw [filePos_div]; exact within)
    (stopsAt_zero positive (.inl atStart))
  rw [nothing, FileView.store_zero]
  exact ready.progress

/-- A chunk that faults stops the write after it stored the chunk. -/
theorem stopped_fault {sb' : SbInfo} {final : Nat × Nat} (positive : 0 < remaining)
    (within : logicalBlock pos ≤ (fileView sb f).blocks)
    (available : logicalBlock pos < room sb f)
    (faults : buf.copied done (chunkSize remaining pos) ≠ chunkSize remaining pos)
    (progress : Progress sb sb' f ((fileView sb f).store (filePos pos) (chunkSize remaining pos)
      (chunkByte buf done (chunkSize remaining pos)))) :
    WriteOutcome sb f (filePos pos) remaining (buf.shift done) final (.error .EFAULT sb') := by
  have atStart : ¬room sb f ≤ (filePos pos + 0) / 1024 := by
    rw [Nat.add_zero, filePos_div]
    exact Nat.not_le.mpr available
  have errno : stopErrno (room sb f) (filePos pos) 0 = .EFAULT := if_neg atStart
  have short : buf.reach done < chunkSize remaining pos := by
    unfold UserBuf.copied at faults
    omega
  have stops : Stops (room sb f) (filePos pos) remaining (buf.shift done) 0 := by
    right
    rw [Nat.sub_zero, Nat.add_zero, chunkSize_filePos]
    exact short
  have stored : storedLen (room sb f) (filePos pos) remaining 0 = chunkSize remaining pos := by
    rw [storedLen, if_neg atStart, Nat.zero_add, Nat.sub_zero, Nat.add_zero, chunkSize_filePos]
  have bytes : storedByte (buf.shift done) 0 = chunkByte buf done (chunkSize remaining pos) := by
    funext i
    have copied : buf.copied done (chunkSize remaining pos) = buf.reach done :=
      Nat.min_eq_right (Nat.le_of_lt short)
    simp only [storedByte, chunkByte, UserBuf.shift, Nat.add_zero, Nat.zero_add, copied]
  rw [← errno]
  apply WriteOutcome.stopped (by rw [filePos_div]; exact within) (stopsAt_zero positive stops)
  rw [stored, bytes]
  exact progress

/-- A chunk with a block and readable bytes does not stop the write. -/
theorem not_stops_of_copied {blocks : Nat} (available : logicalBlock pos < blocks)
    (whole : buf.copied done (chunkSize remaining pos) = chunkSize remaining pos) :
    ¬Stops blocks (filePos pos) remaining (buf.shift done) 0 := by
  rintro (noRoom | faults)
  · rw [Nat.add_zero, filePos_div] at noRoom
    omega
  · rw [Nat.sub_zero, Nat.add_zero, chunkSize_filePos] at faults
    have short : buf.reach done < chunkSize remaining pos := faults
    unfold UserBuf.copied at whole
    omega

/-- One finished chunk, with what the loop does on the rest of the range. -/
theorem WriteOutcome.of_chunk {sb1 : SbInfo} {r : Outcome (Nat × Nat)} (ready : Ready sb f)
    (positive : 0 < remaining) (within : logicalBlock pos ≤ (fileView sb f).blocks)
    (available : logicalBlock pos < room sb f)
    (whole : buf.copied done (chunkSize remaining pos) = chunkSize remaining pos)
    (progress : Progress sb sb1 f ((fileView sb f).store (filePos pos) (chunkSize remaining pos)
      (chunkByte buf done (chunkSize remaining pos))))
    (rest : WriteOutcome sb1 f (filePos (pos + chunkSize remaining pos))
      (remaining - chunkSize remaining pos) (buf.shift (done + chunkSize remaining pos))
      (done + chunkSize remaining pos + (remaining - chunkSize remaining pos),
        pos + chunkSize remaining pos + (remaining - chunkSize remaining pos)) r) :
    WriteOutcome sb f (filePos pos) remaining (buf.shift done)
      (done + remaining, pos + remaining) r := by
  have shorter : chunkSize remaining pos ≤ remaining := chunkSize_le remaining pos
  have few := ready.room_lt
  have noWrap : filePos (pos + chunkSize remaining pos) =
      filePos pos + chunkSize remaining pos := by
    apply filePos_add
    have block := filePos_div pos
    have chunkLe : chunkSize remaining pos ≤ 1024 - pos % 1024 := Nat.min_le_right _ _
    omega
  have bytes : (fileView sb f).store (filePos pos) (chunkSize remaining pos)
      (chunkByte buf done (chunkSize remaining pos)) =
        (fileView sb f).store (filePos pos) (chunkSize remaining pos) (buf.shift done).byte := by
    apply FileView.store_congr
    intro i below
    simp only [chunkByte, whole, below, if_true, UserBuf.shift]
  rw [bytes, ← chunkSize_filePos] at progress
  rw [noWrap, Nat.add_assoc, Nat.add_assoc, Nat.add_sub_cancel' shorter, ← UserBuf.shift_shift,
    ← chunkSize_filePos] at rest
  apply WriteOutcome.of_rest positive _ (not_stops_of_copied available whole) progress rest
  rw [filePos_div]
  exact within

/-- The write loop comes to what `WritePlan` says. -/
theorem doWriteLoop_outcome (ready : Ready sb f) (buf : UserBuf) (remaining pos done : Nat) :
    WriteOutcome sb f (filePos pos) remaining (buf.shift done) (done + remaining, pos + remaining)
      (doWriteLoop sb f (osfsGetExtentHeader sb f) buf remaining pos done
        (fileView sb f).blocks) := by
  induction remaining using Nat.strong_induction_on generalizing sb pos done with
  | _ remaining ih =>
      rw [doWriteLoop]
      by_cases positive : 0 < remaining
      · rw [dif_pos positive]
        by_cases beyond : (fileView sb f).blocks < logicalBlock pos
        · rw [writeBlock_gap ready beyond]
          exact .gap positive (by rw [filePos_div]; exact beyond)
        · have within : logicalBlock pos ≤ (fileView sb f).blocks := Nat.not_lt.mp beyond
          by_cases noRoom : room sb f ≤ logicalBlock pos
          · have full : sb.nrFreeBlocks = 0 := by
              unfold room at noRoom
              omega
            have next : (fileView sb f).blocks = logicalBlock pos := by
              unfold room at noRoom
              omega
            rw [writeBlock_full ready next full]
            exact stopped_full ready positive within noRoom
          · have available : logicalBlock pos < room sb f := Nat.not_le.mp noRoom
            have chunkEq := chunkSize_filePos remaining pos
            have inBlock : blockOffset pos < 1024 := Nat.mod_lt pos (by decide)
            have moved : 0 < chunkSize remaining pos := chunkSize_pos positive
            have shorter : chunkSize remaining pos ≤ remaining := chunkSize_le remaining pos
            have inside : blockOffset pos + chunkSize remaining pos ≤ 1024 := by
              simp only [chunkSize, blockSize]
              omega
            obtain ⟨sb', found, mapped, progress⟩ := writeBlock_ok ready within available
            have chunked := chunk_progress buf done progress mapped moved inside
            rw [found]
            by_cases whole : buf.copied done (chunkSize remaining pos) = chunkSize remaining pos
            · have finished : ¬(copyFromUser sb'.dataBlocks
                  (chunkAddr ((blockMap sb' f).getD (logicalBlock pos) 0) pos) buf done
                  (chunkSize remaining pos)).1 ≠ 0 := by
                simp only [copyFromUser, whole, Nat.sub_self, ne_eq, not_true_eq_false,
                  not_false_eq_true]
              have blocks : (fileView sb' f).blocks = (fileView (sb'.setData
                  (copyFromUser sb'.dataBlocks
                    (chunkAddr ((blockMap sb' f).getD (logicalBlock pos) 0) pos) buf done
                    (chunkSize remaining pos)).2) f).blocks := by
                rw [chunked.view_eq, progress.view_eq]
                have nonzero : chunkSize remaining pos ≠ 0 := by omega
                have last : (filePos pos + chunkSize remaining pos - 1) / 1024 =
                    logicalBlock pos := by
                  unfold filePos
                  omega
                simp only [FileView.store, blocksTo, if_neg nonzero, last]
              simp only [if_neg finished]
              rw [← chunked.hdr_eq, blocks]
              apply WriteOutcome.of_chunk ready positive within available whole chunked
              exact ih (remaining - chunkSize remaining pos) (by omega) chunked.ready
                (pos + chunkSize remaining pos) (done + chunkSize remaining pos)
            · have faulted : (copyFromUser sb'.dataBlocks
                  (chunkAddr ((blockMap sb' f).getD (logicalBlock pos) 0) pos) buf done
                  (chunkSize remaining pos)).1 ≠ 0 := by
                have atMost := buf.copied_le done (chunkSize remaining pos)
                simp only [copyFromUser]
                omega
              simp only [if_pos faulted]
              exact stopped_fault positive within available whole chunked
      · have none : remaining = 0 := by omega
        subst none
        rw [dif_neg positive]
        refine .done (.inl rfl) passes_zero ?_
        rw [FileView.store_zero]
        exact ready.progress

end Loop

/-! ## `osfs_write` -/

/-- What `osfs_write` can come to.  A failed write returns before `*ppos` and
`i_size` are set, and keeps whatever it has stored. -/
inductive WriteResult (sb : SbInfo) (f : Nat) (buf : UserBuf) (len pos : Nat) : IoResult → Prop
  | gap {sb' : SbInfo} (positive : 0 < len) (beyond : (fileView sb f).blocks < filePos pos / 1024)
      (progress : Progress sb sb' f (fileView sb f)) :
      WriteResult sb f buf len pos ⟨.error .EINVAL, pos, [], sb'⟩
  | done {sb' : SbInfo} (within : len = 0 ∨ filePos pos / 1024 ≤ (fileView sb f).blocks)
      (passes : Passes (room sb f) (filePos pos) len buf)
      (progress : Progress sb sb' f
        (((fileView sb f).store (filePos pos) len buf.byte).grow (pos + len))) :
      WriteResult sb f buf len pos ⟨.ok len, pos + len, [], sb'⟩
  | stopped {sb' : SbInfo} {j : Nat} (within : filePos pos / 1024 ≤ (fileView sb f).blocks)
      (stopsAt : StopsAt (room sb f) (filePos pos) len buf j)
      (progress : Progress sb sb' f
        ((fileView sb f).store (filePos pos) (storedLen (room sb f) (filePos pos) len j)
          (storedByte buf j))) :
      WriteResult sb f buf len pos
        ⟨.error (stopErrno (room sb f) (filePos pos) j), pos, [], sb'⟩

/-- An error of the write loop is never the one that sends `osfs_write` to its
single-block path. -/
theorem stopErrno_ne_EOPNOTSUPP (room q j : Nat) : stopErrno room q j ≠ .EOPNOTSUPP := by
  unfold stopErrno
  split <;> decide

section OsfsWrite

variable {sb : SbInfo} {f : Nat}

theorem WriteResult.ne_EOPNOTSUPP {buf : UserBuf} {len pos : Nat} {r : IoResult}
    (result : WriteResult sb f buf len pos r) : r.ret ≠ .error .EOPNOTSUPP := by
  cases result with
  | gap => simp
  | done => simp
  | stopped =>
      intro unsupported
      exact stopErrno_ne_EOPNOTSUPP _ _ _ (Except.error.inj unsupported)

theorem osfsExtentDoWrite_result (inv : Inv sb) (named : f ∈ fileInos sb) (buf : UserBuf)
    (len pos : Nat) :
    WriteResult sb f buf len pos (osfsExtentDoWrite sb (openInode sb f) buf len pos) := by
  obtain ⟨sb1, ensured, spec⟩ := osfsExtentEnsureTable_spec inv named
  have first := spec.progress inv named
  have total : osfsExtentTotalBlocks sb1.dataBlocks (osfsGetExtentHeader sb1 f) =
      (fileView sb1 f).blocks := first.ready.total_eq
  have loop := doWriteLoop_outcome first.ready buf len pos 0
  rw [UserBuf.shift_zero, Nat.zero_add] at loop
  simp only [osfsExtentDoWrite, openInode, ensured, total]
  generalize doWriteLoop sb1 f (osfsGetExtentHeader sb1 f) buf len pos 0 (fileView sb1 f).blocks = r
    at loop ⊢
  cases loop with
  | gap positive beyond =>
      rw [first.view_eq] at beyond
      exact .gap positive beyond first
  | done within passes progress =>
      rw [first.view_eq] at within progress
      rw [first.room_eq] at passes
      have grown := growSize_progress (pos + len) progress.ready
      rw [progress.view_eq] at grown
      exact .done within passes ((first.trans progress).trans grown)
  | stopped within stopsAt progress =>
      rw [first.view_eq] at within progress
      rw [first.room_eq] at stopsAt progress ⊢
      exact .stopped within stopsAt (first.trans progress)

/-- A regular file never reaches the single-block path of `osfs_write`. -/
theorem osfsWrite_eq (inv : Inv sb) (named : f ∈ fileInos sb) (buf : UserBuf) (len pos : Nat) :
    osfsWrite sb (openInode sb f) buf len pos =
      osfsExtentDoWrite sb (openInode sb f) buf len pos := by
  have regular : sIsreg (openInode sb f).iMode = true := (inv.fileOk named).regular
  have supported : (osfsExtentDoWrite sb (openInode sb f) buf len pos).ret ≠
      .error .EOPNOTSUPP :=
    (osfsExtentDoWrite_result inv named buf len pos).ne_EOPNOTSUPP
  simp only [osfsWrite, regular, if_true, if_pos supported]

theorem osfsWrite_result (inv : Inv sb) (named : f ∈ fileInos sb) (buf : UserBuf)
    (len pos : Nat) :
    WriteResult sb f buf len pos (osfsWrite sb (openInode sb f) buf len pos) := by
  rw [osfsWrite_eq inv named]
  exact osfsExtentDoWrite_result inv named buf len pos

end OsfsWrite

end NckuOs.Osfs
