import NckuOs.Osfs.FileContract

/-!
# When a failed call leaves no trace

The write loop returns its error from wherever it is and undoes nothing, although
`osfs_extent_append_block` gives a block back that it cannot enter in the table.  A
failed write is therefore invisible only if what it had stored by then was there
already.  `osfs_create` does give back what it took, except when `new_inode` fails
after the inode number was taken.
-/

set_option maxRecDepth 4000

namespace NckuOs.Osfs

open NckuOs.Bitmap
open NckuOs.ByteMemory
open NckuOs.RunLength
open NckuOs.Transition

/-- After a write of file `f` at `pos` that came to `r`, everything the caller or
the allocator can see of the file is what it was in `sb`. -/
structure WriteUndone (sb : SbInfo) (f pos : Nat) (r : IoResult) : Prop where
  reads : ∀ buf len rpos,
    (osfsRead r.sb (openInode r.sb f) buf len rpos).ret =
        (osfsRead sb (openInode sb f) buf len rpos).ret ∧
      (osfsRead r.sb (openInode r.sb f) buf len rpos).ppos =
        (osfsRead sb (openInode sb f) buf len rpos).ppos ∧
      (osfsRead r.sb (openInode r.sb f) buf len rpos).out =
        (osfsRead sb (openInode sb f) buf len rpos).out
  size : (r.sb.inodeTable f).iSize = (sb.inodeTable f).iSize
  blocks : (r.sb.inodeTable f).iBlocks = (sb.inodeTable f).iBlocks
  map : blockMap r.sb f = blockMap sb f
  bitmap : r.sb.blockBitmap = sb.blockBitmap
  free : r.sb.nrFreeBlocks = sb.nrFreeBlocks
  ppos : r.ppos = pos

/-! ## Reads see the bytes below the size only -/

theorem slice_congr {view view' : FileView} {q n : Nat}
    (bytes : ∀ x, q ≤ x → x < q + n → view'.bytes x = view.bytes x) :
    view'.slice q n = view.slice q n := by
  apply List.map_congr_left
  intro i isMem
  have below := List.mem_range.mp isMem
  exact bytes (q + i) (by omega) (by omega)

theorem deliveredLen_le {blocks q len j : Nat} {buf : UserBuf}
    (stopsAt : StopsAt blocks q len buf j) : deliveredLen blocks q buf j ≤ len := by
  have inside := stopsAt.start.1
  unfold deliveredLen
  split
  case isTrue => omega
  case isFalse mapped =>
    rcases stopsAt.stops with unmapped | faults
    · exact absurd unmapped mapped
    · have chunk := chunkSize_le (len - j) (q + j)
      omega

theorem ReadOutput.congr {view view' : FileView} {buf : UserBuf} {len pos ppos : Nat}
    {ret : Except Errno Nat} {out : List UInt8} (size : view'.size = view.size)
    (blocks : view'.blocks = view.blocks)
    (bytes : ∀ x < view.size, view'.bytes x = view.bytes x)
    (output : ReadOutput view buf len pos ret ppos out) :
    ReadOutput view' buf len pos ret ppos out := by
  have readLen : view'.readLen len pos = view.readLen len pos := by
    unfold FileView.readLen
    rw [size]
  cases output with
  | behind atEnd => exact .behind (by rw [size]; exact atEnd)
  | done inFile passes =>
      have same : view'.slice pos (view.readLen len pos) =
          view.slice pos (view.readLen len pos) := by
        apply slice_congr
        intro x _ high
        apply bytes
        unfold FileView.readLen at high
        omega
      rw [← same, ← readLen]
      rw [← size] at inFile
      rw [← blocks, ← readLen] at passes
      exact .done inFile passes
  | @stopped j inFile stopsAt =>
      have short := deliveredLen_le stopsAt
      have same : view'.slice pos (deliveredLen view.blocks pos buf j) =
          view.slice pos (deliveredLen view.blocks pos buf j) := by
        apply slice_congr
        intro x _ high
        apply bytes
        unfold FileView.readLen at short
        omega
      rw [← same, ← blocks]
      rw [← size] at inFile
      rw [← blocks, ← readLen] at stopsAt
      exact .stopped inFile stopsAt

section FailedWrite

variable {sb : SbInfo} {f len pos : Nat} {buf : UserBuf}

/-- A change of the file that keeps its size, its number of blocks and the bytes
below its size is invisible. -/
theorem WriteUndone.of_progress {r : IoResult} {view : FileView} (inv : Inv sb)
    (named : f ∈ fileInos sb) (progress : Progress sb r.sb f view)
    (size : view.size = (fileView sb f).size) (blocks : view.blocks = (fileView sb f).blocks)
    (bytes : ∀ x < (fileView sb f).size, view.bytes x = (fileView sb f).bytes x)
    (ppos : r.ppos = pos) : WriteUndone sb f pos r := by
  obtain ⟨new, step⟩ := progress.step
  have mapLen : (blockMap r.sb f).length = (blockMap sb f).length := by
    have lengths := congrArg FileView.blocks progress.view_eq
    rw [blocks] at lengths
    exact lengths
  have noNew : new = [] := by
    apply List.eq_nil_of_length_eq_zero
    rw [step.map_eq, List.length_append] at mapLen
    omega
  subst noNew
  have ready := progress.ready
  constructor
  case reads =>
    intro rbuf rlen rpos
    have before := (osfsRead_result inv named rbuf rlen rpos).output
    have after := (osfsRead_result ready.inv ready.named rbuf rlen rpos).output
    rw [progress.view_eq] at after
    exact after.unique (before.congr size blocks bytes)
  case size =>
    have sizes := congrArg FileView.size progress.view_eq
    rw [size] at sizes
    exact sizes
  case blocks => rw [ready.ok.blocks, (inv.fileOk named).blocks, mapLen]
  case map => rw [step.map_eq, List.append_nil]
  case bitmap =>
    funext block
    rw [Bool.eq_iff_iff, step.bitmap_iff]
    simp
  case free =>
    have free := progress.free
    rw [progress.view_eq, blocks] at free
    omega
  case ppos => exact ppos

/-- One mapped byte, read by itself. -/
theorem read_one_byte (inv : Inv sb) (named : f ∈ fileInos sb) {x : Nat}
    (inFile : x < (fileView sb f).size) (mapped : x / 1024 < (fileView sb f).blocks) :
    (osfsRead sb (openInode sb f) (constBuf 0) 1 x).out = [(fileView sb f).bytes x] := by
  have output := (osfsRead_result inv named (constBuf 0) 1 x).output
  have whole : (fileView sb f).readLen 1 x = 1 := by
    unfold FileView.readLen
    omega
  have small : 1 < loffLimit := by decide
  obtain ⟨_, _, out⟩ := output.of_valid (constBuf_valid small) (by omega)
  rw [out, whole]
  rfl

/-- What the write stored before it stopped was there already. -/
def StoredUnchanged (sb : SbInfo) (f q len : Nat) (buf : UserBuf) (j : Nat) : Prop :=
  blocksTo q (storedLen (room sb f) q len j) ≤ (fileView sb f).blocks ∧
    ∀ i < storedLen (room sb f) q len j, q + i < (fileView sb f).size →
      storedByte buf j i = (fileView sb f).bytes (q + i)

/-- An undone write had stored nothing new. -/
theorem storedUnchanged_of_undone {sb' : SbInfo} {ret : Except Errno Nat} {j : Nat} (inv : Inv sb)
    (named : f ∈ fileInos sb)
    (progress : Progress sb sb' f
      ((fileView sb f).store (filePos pos) (storedLen (room sb f) (filePos pos) len j)
        (storedByte buf j)))
    (undone : WriteUndone sb f pos ⟨ret, pos, [], sb'⟩) :
    StoredUnchanged sb f (filePos pos) len buf j := by
  have short : blocksTo (filePos pos) (storedLen (room sb f) (filePos pos) len j) ≤
      (fileView sb f).blocks := by
    have blocks := congrArg FileView.blocks progress.view_eq
    have same : (fileView sb' f).blocks = (fileView sb f).blocks := congrArg List.length undone.map
    rw [same] at blocks
    have larger : blocksTo (filePos pos) (storedLen (room sb f) (filePos pos) len j) ≤
        ((fileView sb f).store (filePos pos) (storedLen (room sb f) (filePos pos) len j)
          (storedByte buf j)).blocks := Nat.le_max_right _ _
    rw [← blocks] at larger
    exact larger
  refine ⟨short, ?_⟩
  intro i below inFile
  have mapped : (filePos pos + i) / 1024 < (fileView sb f).blocks := by
    unfold blocksTo at short
    split at short <;> omega
  have size : (fileView sb' f).size = (fileView sb f).size := undone.size
  have blocks : (fileView sb' f).blocks = (fileView sb f).blocks := congrArg List.length undone.map
  have before := read_one_byte inv named inFile mapped
  have after := read_one_byte progress.ready.inv progress.ready.named
    (by rw [size]; exact inFile) (by rw [blocks]; exact mapped)
  have out := (undone.reads (constBuf 0) 1 (filePos pos + i)).2.2
  have stored : (fileView sb' f).bytes (filePos pos + i) = storedByte buf j i := by
    have inside : ((fileView sb f).store (filePos pos) (storedLen (room sb f) (filePos pos) len j)
        (storedByte buf j)).bytes (filePos pos + i) =
          storedByte buf j (filePos pos + i - filePos pos) :=
      store_of_mem (Nat.le_add_right _ _) (by omega)
    rw [progress.view_eq, inside, Nat.add_sub_cancel_left]
  have bytes : [(fileView sb' f).bytes (filePos pos + i)] =
      [(fileView sb f).bytes (filePos pos + i)] := after.symm.trans (out.trans before)
  rw [← stored]
  exact (List.cons.inj bytes).1

/-- A failed write is undone exactly when it started past the next block of the
file, or stopped before it appended a block and had stored no byte below the size
that differs from the one there. -/
theorem failed_write_undone_iff {e : Errno} (reachable : OsfsReachable sb)
    (named : f ∈ fileInos sb)
    (failed : (osfsWrite sb (openInode sb f) buf len pos).ret = .error e) :
    WriteUndone sb f pos (osfsWrite sb (openInode sb f) buf len pos) ↔
      (fileView sb f).blocks < filePos pos / 1024 ∨
        ∃ j, StopsAt (room sb f) (filePos pos) len buf j ∧
          StoredUnchanged sb f (filePos pos) len buf j := by
  have inv := inv_of_reachable reachable
  have result := osfsWrite_result inv named buf len pos
  generalize osfsWrite sb (openInode sb f) buf len pos = r at result failed ⊢
  cases result with
  | done => cases failed
  | gap _ beyond progress =>
      constructor
      · intro _
        exact .inl beyond
      · intro _
        exact .of_progress inv named progress rfl rfl (fun _ _ => rfl) rfl
  | @stopped sb' j within stopsAt progress =>
      constructor
      · intro undone
        exact .inr ⟨j, stopsAt, storedUnchanged_of_undone inv named progress undone⟩
      · rintro (beyond | ⟨k, stopsAt', short, same⟩)
        · omega
        · obtain rfl := stopsAt.unique stopsAt'
          refine .of_progress inv named progress rfl (Nat.max_eq_left short) ?_ rfl
          intro x below
          by_cases inside : filePos pos ≤ x ∧
              x < filePos pos + storedLen (room sb f) (filePos pos) len j
          · have stored : ((fileView sb f).store (filePos pos)
                (storedLen (room sb f) (filePos pos) len j) (storedByte buf j)).bytes x =
                  storedByte buf j (x - filePos pos) := store_of_mem inside.1 inside.2
            have offset : filePos pos + (x - filePos pos) = x := Nat.add_sub_cancel' inside.1
            rw [stored, same (x - filePos pos) (by omega) (by omega), offset]
          · exact store_of_not_mem (by omega)

/-- A write far behind the end of an empty file fails and is undone. -/
theorem failed_write_undone_iff_oneFile :
    WriteUndone oneFile 2 5000
      (osfsWrite oneFile (openInode oneFile 2) (constBuf 7) 1 5000) := by
  have failed : (osfsWrite oneFile (openInode oneFile 2) (constBuf 7) 1 5000).ret =
      .error .EINVAL := by
    decide +kernel
  have beyond : (fileView oneFile 2).blocks < filePos 5000 / 1024 := by
    decide +kernel
  exact (failed_write_undone_iff oneFile_reachable oneFile_named failed).mpr (.inl beyond)

/-- A write of two blocks whose buffer faults in the second one returns an error
and leaves the file with the two blocks. -/
theorem failed_write_keeps_blocks :
    ¬∀ sb, OsfsReachable sb → ∀ f ∈ fileInos sb, ∀ buf len pos e, pos + len < loffLimit →
      (osfsWrite sb (openInode sb f) buf len pos).ret = .error e →
      WriteUndone sb f pos (osfsWrite sb (openInode sb f) buf len pos) := by
  intro atomic
  have failed : (osfsWrite oneFile (openInode oneFile 2) (faultAfter 7 1024) 2048 0).ret =
      .error .EFAULT := by
    decide +kernel
  have undone := atomic oneFile oneFile_reachable 2 oneFile_named (faultAfter 7 1024) 2048 0 .EFAULT
    (by decide) failed
  have before : oneFile.nrFreeBlocks = 18 := by decide +kernel
  have after :
      (osfsWrite oneFile (openInode oneFile 2) (faultAfter 7 1024) 2048 0).sb.nrFreeBlocks =
        16 := by
    decide +kernel
  have same := undone.free
  rw [before, after] at same
  contradiction

end FailedWrite

/-! ## Creation -/

/-- After a creation that came to `sb'`, the allocation maps and counters, the
directory's entries and size, and the directory's block are what they were. -/
structure CreateUndone (sb sb' : SbInfo) : Prop where
  inodeBitmap : sb'.inodeBitmap = sb.inodeBitmap
  blockBitmap : sb'.blockBitmap = sb.blockBitmap
  nrFreeInodes : sb'.nrFreeInodes = sb.nrFreeInodes
  nrFreeBlocks : sb'.nrFreeBlocks = sb.nrFreeBlocks
  entries : dirEntries sb' = dirEntries sb
  size : (sb'.inodeTable rootInode).iSize = (sb.inodeTable rootInode).iSize
  iBlock : (sb'.inodeTable rootInode).iBlock = (sb.inodeTable rootInode).iBlock
  iBlocks : (sb'.inodeTable rootInode).iBlocks = (sb.inodeTable rootInode).iBlocks

section FailedCreate

variable {sb : SbInfo} {dentry : QStr} {mode : Nat} {cred : Cred} {newInode : Bool}

theorem CreateUndone.refl (sb : SbInfo) : CreateUndone sb sb :=
  ⟨rfl, rfl, rfl, rfl, rfl, rfl, rfl, rfl⟩

/-- Rewriting the slot of a number that is not taken shows nowhere. -/
theorem CreateUndone.of_setInode (inv : Inv sb) {ino : Nat} (slot : OsfsInode)
    (clear : sb.inodeBitmap ino = false) : CreateUndone sb (sb.setInode ino slot) := by
  have same := sameFiles_setInode inv slot clear
  have root := same.root_eq
  constructor
  case inodeBitmap => rw [SbInfo.setInode_inodeBitmap]
  case blockBitmap => rw [SbInfo.setInode_blockBitmap]
  case nrFreeInodes => rw [SbInfo.setInode_nrFreeInodes]
  case nrFreeBlocks => rw [SbInfo.setInode_nrFreeBlocks]
  case entries => exact same.dirEntries_eq
  case size => rw [root]
  case iBlock => rw [root]
  case iBlocks => rw [root]

/-- Before the directory has its block, the name space and the two maps are so
empty that nothing but `new_inode` can stop a creation. -/
theorem enters_of_fresh (inv : Inv sb) (dentry : QStr)
    (freshRoot : (sb.inodeTable rootInode).iBlocks = 0) :
    ¬InodesFull (withRootBlock sb) ∧ (withRootBlock sb).nrFreeBlocks ≠ 0 ∧
      ∀ e, ¬DirRefuses (withRootBlock sb) dentry e := by
  have enters := entersDir_withRootBlock inv
  have noEntry : dirEntries (withRootBlock sb) = [] := by
    rw [enters.dirEntries_eq, inv.dirEntries_of_fresh freshRoot]
  refine ⟨?_, ?_, ?_⟩
  · intro full
    have taken := full 2 (by decide) (by decide)
    rw [enters.inodeBitmap_eq] at taken
    exact absurd ((inv.rootFresh freshRoot).2 2 taken) (by decide)
  · have free := enters.fresh freshRoot
    unfold dataBlockCount at free
    omega
  · intro e refuses
    cases refuses with
    | full full =>
        rw [noEntry, maxDirEntries_eq] at full
        exact absurd full (by decide)
    | present isMem =>
        rw [noEntry] at isMem
        exact absurd isMem List.not_mem_nil

/-- What a creation needs before it asks for a new inode. -/
def NeverAsks (sb : SbInfo) (dentry : QStr) : Prop :=
  maxFilenameLen ≤ dentry.len ∨ InodesFull sb ∨ sb.nrFreeBlocks = 0

theorem nrFreeBlocks_ne_zero_of_fresh (inv : Inv sb)
    (freshRoot : (sb.inodeTable rootInode).iBlocks = 0) : sb.nrFreeBlocks ≠ 0 := by
  have clear := inv.clear_of_fresh freshRoot 0 (by decide)
  obtain ⟨lowered, _⟩ := u32Dec_nrFreeBlocks inv (by decide) clear
  rw [← lowered]
  exact Nat.succ_ne_zero _

/-- A failed creation is undone exactly when the kernel's `new_inode` did not
fail, or was not asked: the name was too long, or no inode number or no block was
left. -/
theorem failed_create_undone_iff {e : Errno} (reachable : OsfsReachable sb)
    (regular : sIsreg mode = true)
    (failed : createRet (osfsCreate sb rootDir dentry mode cred newInode) = .error e) :
    CreateUndone sb (resultState (osfsCreate sb rootDir dentry mode cred newInode)) ↔
      newInode = true ∨ NeverAsks sb dentry := by
  have inv := inv_of_reachable reachable
  have enters := entersDir_withRootBlock inv
  have result := osfsCreate_result inv dentry regular cred newInode
  generalize osfsCreate sb rootDir dentry mode cred newInode = r at result failed ⊢
  cases result with
  | tooLong long =>
      constructor
      · intro _
        exact .inr (.inl long)
      · intro _
        exact .refl sb
  | inDir short inner =>
      cases inner with
      | created => cases failed
      | refused exhausted =>
          have allocated : (sb.inodeTable rootInode).iBlocks ≠ 0 := by
            intro freshRoot
            obtain ⟨notFull, free, _⟩ := enters_of_fresh inv dentry freshRoot
            rcases exhausted with full | none
            · exact notFull full
            · exact free none
          rw [enters.unchanged allocated] at exhausted ⊢
          constructor
          · intro _
            exact .inr (.inr exhausted)
          · intro _
            exact .refl sb
      | rolledBack clear given reason =>
          have allocated : (sb.inodeTable rootInode).iBlocks ≠ 0 := by
            intro freshRoot
            exact (enters_of_fresh inv dentry freshRoot).2.2 _ reason
          rw [enters.unchanged allocated] at clear ⊢
          constructor
          · intro _
            exact .inl given
          · intro _
            exact .of_setInode inv _ clear
      | @lost ino low high clear free notGiven =>
          rw [enters.inodeBitmap_eq] at clear
          constructor
          · intro undone
            have kept : (takenState (withRootBlock sb) ino).inodeBitmap ino = sb.inodeBitmap ino :=
              congrFun undone.inodeBitmap ino
            rw [takenState, SbInfo.setInodeMap_inodeBitmap, setBit_self, clear] at kept
            exact absurd kept.symm Bool.false_ne_true
          · rintro (given | long | full | none)
            · rw [notGiven] at given
              exact absurd given Bool.false_ne_true
            · omega
            · rw [full _ low high] at clear
              exact absurd clear.symm Bool.false_ne_true
            · by_cases freshRoot : (sb.inodeTable rootInode).iBlocks = 0
              · exact absurd none (nrFreeBlocks_ne_zero_of_fresh inv freshRoot)
              · rw [enters.unchanged freshRoot] at free
                exact absurd none free

/-- The name of the one file again: the directory refuses it and everything that
was taken is given back. -/
theorem failed_create_undone_iff_oneFile :
    CreateUndone oneFile
      (resultState (osfsCreate oneFile rootDir nameA 0o100644 superuser true)) := by
  have failed : createRet (osfsCreate oneFile rootDir nameA 0o100644 superuser true) =
      .error .EEXIST := by
    decide +kernel
  exact (failed_create_undone_iff oneFile_reachable (by decide) failed).mpr (.inl rfl)

/-- When `new_inode` fails, the inode number that was taken for the file stays
taken. -/
theorem failed_create_loses_number :
    ¬∀ sb, OsfsReachable sb → ∀ dentry mode cred newInode e, sIsreg mode = true →
      createRet (osfsCreate sb rootDir dentry mode cred newInode) = .error e →
      CreateUndone sb (resultState (osfsCreate sb rootDir dentry mode cred newInode)) := by
  intro atomic
  have failed : createRet (osfsCreate oneFile rootDir nameB 0o100644 superuser false) =
      .error .ENOMEM := by
    decide +kernel
  have undone := atomic oneFile oneFile_reachable nameB 0o100644 superuser false .ENOMEM
    (by decide) failed
  have before : oneFile.nrFreeInodes = 18 := by decide +kernel
  have after : (resultState
      (osfsCreate oneFile rootDir nameB 0o100644 superuser false)).nrFreeInodes = 17 := by
    decide +kernel
  have same := undone.nrFreeInodes
  rw [before, after] at same
  contradiction

end FailedCreate

end NckuOs.Osfs
