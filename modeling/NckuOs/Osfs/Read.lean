import NckuOs.Osfs.Write

/-!
# Reading a file

The read loop refines a slice of the view of the file.  What a read returns is a
function of the view, the buffer and the range alone, also when it fails.
-/

set_option maxRecDepth 4000

namespace NckuOs.Osfs

open NckuOs.Bitmap
open NckuOs.ByteMemory
open NckuOs.RunLength

/-- The bytes `[q, q + n)` of a file. -/
def FileView.slice (view : FileView) (q n : Nat) : List UInt8 :=
  (List.range n).map fun i => view.bytes (q + i)

theorem FileView.slice_add (view : FileView) (q n m : Nat) :
    view.slice q (n + m) = view.slice q n ++ view.slice (q + n) m := by
  simp [FileView.slice, List.range_add, List.map_map, Nat.add_assoc]

theorem FileView.slice_getElem? {view : FileView} {q n i : Nat} (below : i < n) :
    (view.slice q n)[i]? = some (view.bytes (q + i)) := by
  simp [FileView.slice, below]

/-- The error of a read that stops `j` bytes in. -/
def readErrno (blocks q j : Nat) : Errno :=
  if blocks ≤ (q + j) / 1024 then Errno.EIO else .EFAULT

/-- How many bytes a read that stops `j` bytes in has delivered by then. -/
def deliveredLen (blocks q : Nat) (buf : UserBuf) (j : Nat) : Nat :=
  if blocks ≤ (q + j) / 1024 then j else j + buf.reach j

/-- What the read loop can come to on the range `[q, q + len)`. -/
inductive ReadOutcome (view : FileView) (q len : Nat) (buf : UserBuf) (final : Nat × Nat) :
    Except Errno (Nat × Nat) × List UInt8 → Prop
  | done (passes : Passes view.blocks q len buf) :
      ReadOutcome view q len buf final (.ok final, view.slice q len)
  | stopped {j : Nat} (stopsAt : StopsAt view.blocks q len buf j) :
      ReadOutcome view q len buf final
        (.error (readErrno view.blocks q j), view.slice q (deliveredLen view.blocks q buf j))

section FirstChunk

variable {view : FileView} {q len : Nat} {buf : UserBuf} {final : Nat × Nat}

theorem readErrno_add {blocks n j : Nat} :
    readErrno blocks (q + n) j = readErrno blocks q (n + j) := by
  simp only [readErrno, Nat.add_assoc]

theorem deliveredLen_add {blocks n j : Nat} :
    n + deliveredLen blocks (q + n) (buf.shift n) j = deliveredLen blocks q buf (n + j) := by
  simp only [deliveredLen, Nat.add_assoc, UserBuf.shift]
  split <;> omega

/-- A delivered first chunk followed by an outcome for the rest is an outcome
for the whole. -/
theorem ReadOutcome.of_rest {r : Except Errno (Nat × Nat) × List UInt8} (positive : 0 < len)
    (first : ¬Stops view.blocks q len buf 0)
    (rest : ReadOutcome view (q + chunkSize len q) (len - chunkSize len q)
      (buf.shift (chunkSize len q)) final r) :
    ReadOutcome view q len buf final (r.1, view.slice q (chunkSize len q) ++ r.2) := by
  have inside : chunkSize len q ≤ len := chunkSize_le len q
  cases rest with
  | done passes =>
      rw [← FileView.slice_add, Nat.add_sub_cancel' inside]
      exact .done (passes_of_rest positive first passes)
  | stopped stopsAt =>
      rw [← FileView.slice_add, readErrno_add, deliveredLen_add]
      exact .stopped (stopsAt_of_rest positive first stopsAt)

end FirstChunk

/-! ## The loop -/

section Loop

variable {sb : SbInfo} {f : Nat}

/-- Copying out of a data block delivers a slice of the file. -/
theorem copyToUser_slice (ready : Ready sb f) (buf : UserBuf) (done : Nat) {pos chunk : Nat}
    (mapped : logicalBlock pos < (fileView sb f).blocks)
    (inside : blockOffset pos + chunk ≤ 1024) :
    (copyToUser sb.dataBlocks
        (chunkAddr ((blockMap sb f).getD (logicalBlock pos) 0) pos) buf done chunk).2 =
      (fileView sb f).slice (filePos pos) (buf.copied done chunk) := by
  have inArea : (blockMap sb f).getD (logicalBlock pos) 0 < dataBlockCount :=
    ready.inv.blockMap_lt ready.named (getD_mem_blockMap mapped)
  simp only [copyToUser, FileView.slice, chunkAddr, blockAddr_of_lt inArea]
  apply List.map_congr_left
  intro i isMem
  have below := List.mem_range.mp isMem
  have copied := buf.copied_le done chunk
  have block : (filePos pos + i) / 1024 = logicalBlock pos := by
    unfold filePos
    omega
  have offset : (filePos pos + i) % 1024 = blockOffset pos + i := by
    unfold filePos
    omega
  have isMapped : (filePos pos + i) / 1024 < (blockMap sb f).length := by
    rw [block]
    exact mapped
  rw [fileView_bytes_of_lt isMapped, fileByte, block, offset, Nat.add_assoc]

/-- The read loop comes to a slice of the view. -/
theorem doReadLoop_outcome (ready : Ready sb f) (buf : UserBuf) (remaining pos done : Nat)
    (out : List UInt8) (small : pos + remaining < 2 ^ 32) :
    ∃ r, ReadOutcome (fileView sb f) pos remaining (buf.shift done)
        (done + remaining, pos + remaining) r ∧
      doReadLoop sb.dataBlocks (osfsGetExtentHeader sb f) buf remaining pos done out =
        (r.1, out ++ r.2) := by
  induction remaining using Nat.strong_induction_on generalizing pos done out with
  | _ remaining ih =>
      rw [doReadLoop]
      have noWrap : filePos pos = pos := filePos_of_lt (by omega)
      have block : logicalBlock pos = pos / 1024 := by
        rw [← filePos_div, noWrap]
      by_cases positive : 0 < remaining
      · rw [dif_pos positive]
        by_cases mapped : logicalBlock pos < (fileView sb f).blocks
        · have inBlock : blockOffset pos < 1024 := Nat.mod_lt pos (by decide)
          have moved : 0 < chunkSize remaining pos := chunkSize_pos positive
          have shorter : chunkSize remaining pos ≤ remaining := chunkSize_le remaining pos
          have inside : blockOffset pos + chunkSize remaining pos ≤ 1024 := by
            simp only [chunkSize, blockSize]
            omega
          have delivered := copyToUser_slice ready buf done mapped inside
          rw [noWrap] at delivered
          rw [ready.lookup_of_lt mapped]
          by_cases whole : buf.copied done (chunkSize remaining pos) = chunkSize remaining pos
          · have finished : ¬(copyToUser sb.dataBlocks
                (chunkAddr ((blockMap sb f).getD (logicalBlock pos) 0) pos) buf done
                (chunkSize remaining pos)).1 ≠ 0 := by
              simp only [copyToUser, whole, Nat.sub_self, ne_eq, not_true_eq_false,
                not_false_eq_true]
            have first : ¬Stops (fileView sb f).blocks pos remaining (buf.shift done) 0 := by
              have noStop := not_stops_of_copied mapped whole
              rw [noWrap] at noStop
              exact noStop
            obtain ⟨r, rest, restEq⟩ := ih (remaining - chunkSize remaining pos) (by omega)
              (pos + chunkSize remaining pos) (done + chunkSize remaining pos)
              (out ++ (fileView sb f).slice pos (chunkSize remaining pos)) (by omega)
            rw [Nat.add_assoc, Nat.add_assoc, Nat.add_sub_cancel' shorter,
              ← UserBuf.shift_shift] at rest
            refine ⟨_, rest.of_rest positive first, ?_⟩
            rw [whole] at delivered
            simp only [if_neg finished, delivered, restEq, List.append_assoc]
          · have faulted : (copyToUser sb.dataBlocks
                (chunkAddr ((blockMap sb f).getD (logicalBlock pos) 0) pos) buf done
                (chunkSize remaining pos)).1 ≠ 0 := by
              have atMost := buf.copied_le done (chunkSize remaining pos)
              simp only [copyToUser]
              omega
            have short : buf.reach done < chunkSize remaining pos := by
              unfold UserBuf.copied at whole
              omega
            have copied : buf.copied done (chunkSize remaining pos) = buf.reach done :=
              Nat.min_eq_right (Nat.le_of_lt short)
            have stops : Stops (fileView sb f).blocks pos remaining (buf.shift done) 0 :=
              .inr short
            have atStart : ¬(fileView sb f).blocks ≤ (pos + 0) / 1024 := by
              rw [Nat.add_zero, ← block]
              exact Nat.not_le.mpr mapped
            refine ⟨_, .stopped (stopsAt_zero positive stops), ?_⟩
            rw [readErrno, deliveredLen, if_neg atStart, if_neg atStart]
            simp only [if_pos faulted, delivered, copied, UserBuf.shift, Nat.add_zero,
              Nat.zero_add]
        · have unmapped := Nat.not_lt.mp mapped
          have stops : Stops (fileView sb f).blocks pos remaining (buf.shift done) 0 := by
            left
            rw [Nat.add_zero, ← block]
            exact unmapped
          refine ⟨_, .stopped (stopsAt_zero positive stops), ?_⟩
          have atStart : (fileView sb f).blocks ≤ (pos + 0) / 1024 := by
            rw [Nat.add_zero, ← block]
            exact unmapped
          rw [ready.lookup_of_ge unmapped, readErrno, deliveredLen, if_pos atStart, if_pos atStart]
          simp [FileView.slice]
      · have none : remaining = 0 := by omega
        subst none
        rw [dif_neg positive]
        exact ⟨_, .done passes_zero, by simp [FileView.slice]⟩

end Loop

/-! ## `osfs_read` -/

/-- How many bytes a read at `pos` asks the loop for. -/
def FileView.readLen (view : FileView) (len pos : Nat) : Nat :=
  min len (view.size - pos)

/-- What a read of a file returns: the value, `*ppos` and the bytes delivered. -/
inductive ReadOutput (view : FileView) (buf : UserBuf) (len pos : Nat) :
    Except Errno Nat → Nat → List UInt8 → Prop
  | behind (atEnd : view.size ≤ pos) : ReadOutput view buf len pos (.ok 0) pos []
  | done (inFile : pos < view.size) (passes : Passes view.blocks pos (view.readLen len pos) buf) :
      ReadOutput view buf len pos (.ok (view.readLen len pos)) (pos + view.readLen len pos)
        (view.slice pos (view.readLen len pos))
  | stopped {j : Nat} (inFile : pos < view.size)
      (stopsAt : StopsAt view.blocks pos (view.readLen len pos) buf j) :
      ReadOutput view buf len pos (.error (readErrno view.blocks pos j)) pos
        (view.slice pos (deliveredLen view.blocks pos buf j))

/-- The view determines what a read returns. -/
theorem ReadOutput.unique {view : FileView} {buf : UserBuf} {len pos : Nat}
    {ret ret' : Except Errno Nat} {ppos ppos' : Nat} {out out' : List UInt8}
    (first : ReadOutput view buf len pos ret ppos out)
    (second : ReadOutput view buf len pos ret' ppos' out') :
    ret = ret' ∧ ppos = ppos' ∧ out = out' := by
  cases first with
  | behind atEnd =>
      cases second with
      | behind => exact ⟨rfl, rfl, rfl⟩
      | done inFile => exact absurd inFile (Nat.not_lt.mpr atEnd)
      | stopped inFile => exact absurd inFile (Nat.not_lt.mpr atEnd)
  | done inFile passes =>
      cases second with
      | behind atEnd => exact absurd inFile (Nat.not_lt.mpr atEnd)
      | done => exact ⟨rfl, rfl, rfl⟩
      | stopped _ stopsAt => exact absurd passes stopsAt.not_passes
  | stopped inFile stopsAt =>
      cases second with
      | behind atEnd => exact absurd inFile (Nat.not_lt.mpr atEnd)
      | done _ passes => exact absurd passes stopsAt.not_passes
      | stopped _ stopsAt' =>
          rw [stopsAt.unique stopsAt']
          exact ⟨rfl, rfl, rfl⟩

/-- A read of mapped bytes into a valid buffer delivers them all; at the end of
the file there are none. -/
theorem ReadOutput.of_valid {view : FileView} {buf : UserBuf} {len pos ppos : Nat}
    {ret : Except Errno Nat} {out : List UInt8} (output : ReadOutput view buf len pos ret ppos out)
    (valid : buf.Valid len)
    (mapped : 0 < view.readLen len pos → pos + view.readLen len pos ≤ view.blocks * 1024) :
    ret = .ok (view.readLen len pos) ∧ ppos = pos + view.readLen len pos ∧
      out = view.slice pos (view.readLen len pos) := by
  have short : view.readLen len pos ≤ len := Nat.min_le_left _ _
  apply output.unique
  by_cases inFile : pos < view.size
  · apply ReadOutput.done inFile
    rcases Nat.eq_zero_or_pos (view.readLen len pos) with none | some
    · rw [none]
      exact passes_zero
    · exact passes_of_valid (valid.mono short) (mapped some)
  · have atEnd : view.size ≤ pos := Nat.not_lt.mp inFile
    have nothing : view.readLen len pos = 0 := by
      unfold FileView.readLen
      omega
    rw [nothing]
    exact .behind atEnd

/-- What a read that succeeded says about the file. -/
theorem ReadOutput.of_ok {view : FileView} {buf : UserBuf} {len pos ppos n : Nat}
    {out : List UInt8} (output : ReadOutput view buf len pos (.ok n) ppos out) :
    n = view.readLen len pos ∧ out = view.slice pos n ∧
      (0 < n → pos + n ≤ view.blocks * 1024) := by
  cases output with
  | behind atEnd =>
      refine ⟨?_, rfl, fun positive => absurd positive (Nat.lt_irrefl 0)⟩
      unfold FileView.readLen
      omega
  | done inFile passes => exact ⟨rfl, rfl, passes.end_le⟩

/-- A read of the extents never returns the error that sends `osfs_read` to its
single-block path. -/
theorem ReadOutput.ne_EOPNOTSUPP {view : FileView} {buf : UserBuf} {len pos ppos : Nat}
    {ret : Except Errno Nat} {out : List UInt8}
    (output : ReadOutput view buf len pos ret ppos out) :
    ret ≠ .error .EOPNOTSUPP := by
  cases output with
  | behind => simp
  | done => simp
  | stopped =>
      simp only [ne_eq, Except.error.injEq, readErrno]
      split <;> decide

section OsfsRead

variable {sb : SbInfo} {f : Nat}

/-- What `osfs_read` comes to: a read of the view, which it leaves as it was. -/
structure ReadResult (sb : SbInfo) (f : Nat) (buf : UserBuf) (len pos : Nat) (r : IoResult) :
    Prop where
  inv : Inv r.sb
  step : FileStep f [] sb r.sb
  free : r.sb.nrFreeBlocks = sb.nrFreeBlocks
  view_eq : fileView r.sb f = fileView sb f
  output : ReadOutput (fileView sb f) buf len pos r.ret r.ppos r.out

/-- A read that changes nothing. -/
theorem ReadResult.of_unchanged {buf : UserBuf} {len pos ppos : Nat} {ret : Except Errno Nat}
    {out : List UInt8} (ready : Ready sb f)
    (output : ReadOutput (fileView sb f) buf len pos ret ppos out) :
    ReadResult sb f buf len pos ⟨ret, ppos, out, sb⟩ where
  inv := ready.inv
  step := (Ensured.of_valid ready).step
  free := rfl
  view_eq := rfl
  output := output

/-- A read of a file whose table block nobody has used writes the header and
finds the file empty. -/
theorem ReadResult.of_fresh {buf : UserBuf} {len pos : Nat} (inv : Inv sb)
    (named : f ∈ fileInos sb) (zero : BlockZero sb.dataBlocks (sb.inodeTable f).iBlock)
    (invalid : ¬HeaderValid sb f) (empty : (sb.inodeTable f).iSize = 0) :
    ReadResult sb f buf len pos
      ⟨.ok 0, pos, [],
        sb.setData (osfsExtentResetHeader sb.dataBlocks (osfsGetExtentHeader sb f))⟩ := by
  have reset := Ensured.of_fresh inv named zero invalid
  have progress := reset.progress inv named
  have atEnd : (fileView sb f).size ≤ pos := by
    change (sb.inodeTable f).iSize ≤ pos
    omega
  exact
    { inv := reset.ready.inv
      step := reset.step
      free := reset.free
      view_eq := progress.view_eq
      output := .behind atEnd }

theorem osfsExtentDoRead_result (inv : Inv sb) (named : f ∈ fileInos sb) (buf : UserBuf)
    (len pos : Nat) :
    ReadResult sb f buf len pos (osfsExtentDoRead sb (openInode sb f) buf len pos) := by
  have ok := inv.fileOk named
  have present : ¬((sb.inodeTable f).iBlocks = 0 ∨ (sb.inodeTable f).iBlock = 0) := by
    rintro (none | zero)
    · rw [ok.blocks] at none
      omega
    · exact inv.table_ne_zero named zero
  simp only [osfsExtentDoRead, openInode, present, if_false]
  by_cases valid : HeaderValid sb f
  · have ready : Ready sb f := ⟨inv, named, valid⟩
    simp only [valid.1, ne_eq, not_true_eq_false, if_false]
    by_cases atEnd : pos ≥ (sb.inodeTable f).iSize
    · simp only [if_pos atEnd]
      exact .of_unchanged ready (.behind atEnd)
    · have inFile : pos < (fileView sb f).size := Nat.not_le.mp atEnd
      have sizeSmall : (fileView sb f).size < 2 ^ 32 := ok.size
      have readLen : (if pos + len > (sb.inodeTable f).iSize then (sb.inodeTable f).iSize - pos
          else len) = (fileView sb f).readLen len pos := by
        change (if pos + len > (fileView sb f).size then (fileView sb f).size - pos else len) =
          (fileView sb f).readLen len pos
        unfold FileView.readLen
        split <;> omega
      have small : pos + (fileView sb f).readLen len pos < 2 ^ 32 := by
        unfold FileView.readLen
        omega
      obtain ⟨r, outcome, loop⟩ := doReadLoop_outcome ready buf
        ((fileView sb f).readLen len pos) pos 0 [] small
      rw [UserBuf.shift_zero, Nat.zero_add] at outcome
      rw [List.nil_append] at loop
      simp only [if_neg atEnd, readLen, loop]
      cases outcome with
      | done passes => exact .of_unchanged ready (.done inFile passes)
      | stopped stopsAt => exact .of_unchanged ready (.stopped inFile stopsAt)
  · rcases ok.table with holds | ⟨zero, empty⟩
    · exact absurd holds valid
    · have magic : hdrMagic sb.dataBlocks (osfsGetExtentHeader sb f) ≠ osfsExtentMagic := by
        rw [inv.hdr_eq named, hdrMagic_of_zero zero]
        decide
      simp only [if_pos magic, empty, if_true]
      exact .of_fresh inv named zero valid empty

/-- A regular file never reaches the single-block path of `osfs_read`. -/
theorem osfsRead_result (inv : Inv sb) (named : f ∈ fileInos sb) (buf : UserBuf) (len pos : Nat) :
    ReadResult sb f buf len pos (osfsRead sb (openInode sb f) buf len pos) := by
  have regular : sIsreg (openInode sb f).iMode = true := (inv.fileOk named).regular
  have result := osfsExtentDoRead_result inv named buf len pos
  have supported : (osfsExtentDoRead sb (openInode sb f) buf len pos).ret ≠
      .error .EOPNOTSUPP :=
    result.output.ne_EOPNOTSUPP
  simp only [osfsRead, regular, if_true, if_pos supported]
  exact result

end OsfsRead

end NckuOs.Osfs
