import NckuOs.Osfs.Namespace

/-!
# Creating a file

`osfs_create` allocates up to two blocks and an inode number in three nested
functions.  From a state in order a call can end in few ways only: it gives up
before it takes anything, `new_inode` fails and the number taken for it is lost,
the directory refuses the name and everything is given back, or the file is
there.  Each of the four results is written out as one state here.
-/

set_option maxRecDepth 4000

namespace NckuOs.Osfs

open NckuOs.Bitmap
open NckuOs.ByteMemory
open NckuOs.RunLength

/-! ## The results -/

/-- The state once the parent directory has its first block. -/
def rootBlockState (sb : SbInfo) : SbInfo :=
  (sb.setBlockMap (setBit sb.blockBitmap 0) (u32Dec sb.nrFreeBlocks)).setInode rootInode
    { sb.inodeTable rootInode with iBlock := 0, iBlocks := 1 }

/-- The state after an inode number was taken and nothing else. -/
def takenState (sb : SbInfo) (ino : Nat) : SbInfo :=
  sb.setInodeMap (setBit sb.inodeBitmap ino) (u32Dec sb.nrFreeInodes)

/-- The table slot of a new file. -/
def newSlot (mode : Nat) (cred : Cred) (ino block : Nat) : OsfsInode :=
  { freshOsfsInode mode cred ino with
    iBlock := block
    iLinksCount := if sIsdir mode then 2 else 1 }

/-- The directory's slot with one more entry. -/
def grownRoot (sb : SbInfo) : OsfsInode :=
  { sb.inodeTable rootInode with
    iSize := u32 ((sb.inodeTable rootInode).iSize + sizeofDirEntry) }

/-- The data area with one more directory entry. -/
def namedData (sb : SbInfo) (dentry : QStr) (ino : Nat) : Mem :=
  entryMem sb.dataBlocks (dirSlot (dirBase sb rootInode) (dirEntryCount sb rootInode)) dentry ino

/-- The state after a file was created. -/
def createdState (sb : SbInfo) (dentry : QStr) (mode : Nat) (cred : Cred) (ino block : Nat) :
    SbInfo :=
  ((((sb.setData (namedData sb dentry ino)).setBlockMap (setBit sb.blockBitmap block)
    (u32Dec sb.nrFreeBlocks)).setInodeMap (setBit sb.inodeBitmap ino)
      (u32Dec sb.nrFreeInodes)).setInode ino (newSlot mode cred ino block)).setInode rootInode
        (grownRoot sb)

/-! ## `osfs_new_inode` -/

section NewInode

variable {sb : SbInfo} {mode : Nat} {cred : Cred}

theorem Inv.alloc_of_free (inv : Inv sb) (free : sb.nrFreeBlocks ≠ 0) :
    ∃ block, block < dataBlockCount ∧ sb.blockBitmap block = false ∧
      firstClear sb.blockBitmap 0 sb.blockCount = some block := by
  cases scan : firstClear sb.blockBitmap 0 sb.blockCount with
  | some block =>
      obtain ⟨_, below, clear⟩ := firstClear_spec scan
      rw [inv.blockCount_eq] at below
      exact ⟨block, below, clear, rfl⟩
  | none =>
      rw [firstClear_eq_none_iff_countClear, inv.blockCount_eq, ← inv.freeBlocks] at scan
      exact absurd scan free

/-- The state `osfs_new_inode` leaves when it succeeds: it counts the number it
took twice. -/
def newInodeState (sb : SbInfo) (mode : Nat) (cred : Cred) (ino block : Nat) : SbInfo :=
  ((sb.setBlockMap (setBit sb.blockBitmap block) (u32Dec sb.nrFreeBlocks)).setInodeMap
    (setBit sb.inodeBitmap ino) (u32Dec (u32Dec sb.nrFreeInodes))).setInode ino
      { freshOsfsInode mode cred ino with iBlock := block }

/-- No inode number is left but 0, which is never handed out. -/
def InodesFull (sb : SbInfo) : Prop :=
  ∀ ino, 1 ≤ ino → ino < inodeCount → sb.inodeBitmap ino = true

/-- What `osfs_new_inode` can come to.  Once it is past its guard and has a
number it finds a block. -/
inductive NewInodeResult (sb : SbInfo) (mode : Nat) (cred : Cred) (newInode : Bool) :
    Outcome Inode → Prop
  | refused (exhausted : InodesFull sb ∨ sb.nrFreeBlocks = 0) :
      NewInodeResult sb mode cred newInode (.error .ENOSPC sb)
  | lost {ino : Nat} (low : 1 ≤ ino) (high : ino < inodeCount) (clear : sb.inodeBitmap ino = false)
      (free : sb.nrFreeBlocks ≠ 0) (failed : newInode = false) :
      NewInodeResult sb mode cred newInode (.error .ENOMEM (takenState sb ino))
  | made {ino block : Nat} (low : 1 ≤ ino) (high : ino < inodeCount)
      (clear : sb.inodeBitmap ino = false) (inArea : block < dataBlockCount)
      (blockClear : sb.blockBitmap block = false) (given : newInode = true) :
      NewInodeResult sb mode cred newInode
        (.ok (freshInode mode cred ino) (newInodeState sb mode cred ino block))

/-- A zero counter of free inodes means that none is left. -/
theorem Inv.inodesFull_of_zero (inv : Inv sb) (zero : sb.nrFreeInodes = 0) : InodesFull sb := by
  rw [inv.freeInodes, countClear_eq_zero_iff] at zero
  intro ino _ high
  exact zero ino high

theorem osfsNewInode_result (inv : Inv sb) (regular : sIsreg mode = true) (cred : Cred)
    (newInode : Bool) :
    NewInodeResult sb mode cred newInode (osfsNewInode sb mode cred newInode) := by
  have supported : (!sIsdir mode && !sIsreg mode && !sIslnk mode) = false := by
    simp [regular]
  simp only [osfsNewInode, supported, Bool.false_eq_true, if_false]
  by_cases guard : sb.nrFreeInodes = 0 ∨ sb.nrFreeBlocks = 0
  · rw [if_pos guard]
    exact .refused (guard.imp_left inv.inodesFull_of_zero)
  · rw [if_neg guard]
    have free : sb.nrFreeBlocks ≠ 0 := fun zero => guard (.inr zero)
    rcases osfsGetFreeInode_cases sb with ⟨ino, low, high, clear, taken⟩ | ⟨full, failed⟩
    · rw [taken]
      cases newInode with
      | false =>
          rw [inv.inodeCount_eq] at high
          exact .lost low high clear free rfl
      | true =>
          obtain ⟨block, inArea, blockClear, scan⟩ := inv.alloc_of_free free
          have slot : osfsGetOsfsInode (takenState sb ino) ino = some ino := by
            apply osfsGetOsfsInode_eq_some low
            rw [takenState, SbInfo.setInodeMap_inodeCount]
            exact high
          have allocated : osfsAllocDataBlock
              ((takenState sb ino).setInode ino (freshOsfsInode mode cred ino)) =
                .ok block
                  (((takenState sb ino).setInode ino (freshOsfsInode mode cred ino)).setBlockMap
                    (setBit sb.blockBitmap block) (u32Dec sb.nrFreeBlocks)) := by
            simp [osfsAllocDataBlock, takenState, scan]
          rw [inv.inodeCount_eq] at high
          simp only [Bool.not_true, Bool.false_eq_true, if_false]
          rw [← takenState, slot]
          simp only [allocated]
          have made : NewInodeResult sb mode cred true
              (.ok (freshInode mode cred ino) (newInodeState sb mode cred ino block)) :=
            .made low high clear inArea blockClear rfl
          simpa [takenState, newInodeState, freshInode] using made
    · rw [failed]
      rw [inv.inodeCount_eq] at full
      exact .refused (.inl full)

end NewInode

/-! ## `osfs_add_dir_entry` -/

section AddDirEntry

variable {sb sb' : SbInfo} {dentry : QStr}

/-- Why the directory refuses a name. -/
inductive DirRefuses (sb : SbInfo) (dentry : QStr) : Errno → Prop
  | full (full : maxDirEntries ≤ (dirEntries sb).length) : DirRefuses sb dentry .ENOSPC
  | present (isMem : dentry.name ∈ (dirEntries sb).map Prod.fst) : DirRefuses sb dentry .EEXIST

/-- What `osfs_add_dir_entry` can come to, in a state `sb'` whose directory is
that of `sb`. -/
inductive AddResult (sb sb' : SbInfo) (dentry : QStr) (inodeNo : Nat) : Outcome Unit → Prop
  | refused {e : Errno} (reason : DirRefuses sb dentry e) :
      AddResult sb sb' dentry inodeNo (.error e sb')
  | added (notFull : (dirEntries sb).length < maxDirEntries)
      (fresh : dentry.name ∉ (dirEntries sb).map Prod.fst) :
      AddResult sb sb' dentry inodeNo
        (.ok () ((sb'.setData (namedData sb dentry inodeNo)).setInode rootInode (grownRoot sb)))

theorem osfsAddDirEntry_result (inv : Inv sb)
    (slot : sb'.inodeTable rootInode = sb.inodeTable rootInode)
    (data : sb'.dataBlocks = sb.dataBlocks) (inodeNo : Nat) :
    AddResult sb sb' dentry inodeNo (osfsAddDirEntry sb' rootInode inodeNo dentry) := by
  have count : dirEntryCount sb' rootInode = dirEntryCount sb rootInode := by
    simp [dirEntryCount, slot]
  have base : dirBase sb' rootInode = dirBase sb rootInode := by
    simp [dirBase, slot]
  have scan : findSlot sb' rootInode dentry.name = findSlot sb rootInode dentry.name := by
    simp [findSlot, count, base, data]
  simp only [osfsAddDirEntry, count, base, scan, data, slot]
  by_cases full : dirEntryCount sb rootInode ≥ maxDirEntries
  · rw [if_pos full]
    apply AddResult.refused
    apply DirRefuses.full
    rw [length_dirEntries]
    exact full
  · rw [if_neg full]
    cases found : findSlot sb rootInode dentry.name with
    | some i =>
        apply AddResult.refused
        apply DirRefuses.present
        exact List.mem_map_of_mem (inv.findSlot_eq_some found)
    | none =>
        apply AddResult.added
        · rw [length_dirEntries]
          exact Nat.not_le.mp full
        · exact inv.findSlot_eq_none_iff.mp found

end AddDirEntry

/-! ## `osfs_create` -/

section Create

variable {sb : SbInfo} {mode : Nat} {cred : Cred} {dentry : QStr}

/-- What `osfs_create` can come to once the directory has its block. -/
inductive CreateInResult (sb : SbInfo) (dentry : QStr) (mode : Nat) (cred : Cred)
    (newInode : Bool) : Outcome Inode → Prop
  | refused (exhausted : InodesFull sb ∨ sb.nrFreeBlocks = 0) :
      CreateInResult sb dentry mode cred newInode (.error .ENOSPC sb)
  | lost {ino : Nat} (low : 1 ≤ ino) (high : ino < inodeCount) (clear : sb.inodeBitmap ino = false)
      (free : sb.nrFreeBlocks ≠ 0) (failed : newInode = false) :
      CreateInResult sb dentry mode cred newInode (.error .ENOMEM (takenState sb ino))
  | rolledBack {e : Errno} {ino : Nat} {slot : OsfsInode} (clear : sb.inodeBitmap ino = false)
      (given : newInode = true) (reason : DirRefuses sb dentry e) :
      CreateInResult sb dentry mode cred newInode (.error e (sb.setInode ino slot))
  | created {ino block : Nat} (low : 1 ≤ ino) (high : ino < inodeCount)
      (clear : sb.inodeBitmap ino = false) (inArea : block < dataBlockCount)
      (blockClear : sb.blockBitmap block = false)
      (notFull : (dirEntries sb).length < maxDirEntries)
      (fresh : dentry.name ∉ (dirEntries sb).map Prod.fst) :
      CreateInResult sb dentry mode cred newInode
        (.ok (freshInode mode cred ino) (createdState sb dentry mode cred ino block))

theorem Inv.nrFreeBlocks_lt (inv : Inv sb) : sb.nrFreeBlocks < 2 ^ 32 := by
  rw [inv.freeBlocks]
  exact Nat.lt_of_le_of_lt (countClear_le sb.blockBitmap dataBlockCount) (by decide)

theorem Inv.nrFreeInodes_lt (inv : Inv sb) : sb.nrFreeInodes < 2 ^ 32 := by
  rw [inv.freeInodes]
  exact Nat.lt_of_le_of_lt (countClear_le sb.inodeBitmap inodeCount) (by decide)

theorem Inv.ne_root_of_clear (inv : Inv sb) {ino : Nat} (clear : sb.inodeBitmap ino = false) :
    ino ≠ rootInode := by
  rintro rfl
  rw [inv.rootTaken] at clear
  contradiction

/-- The state in which `osfs_create` fills in the new inode: number and block are
taken, the slot is `slot`. -/
def pendingState (sb : SbInfo) (ino block : Nat) (slot : OsfsInode) : SbInfo :=
  ((sb.setBlockMap (setBit sb.blockBitmap block) (u32Dec sb.nrFreeBlocks)).setInodeMap
    (setBit sb.inodeBitmap ino) (u32Dec sb.nrFreeInodes)).setInode ino slot

/-- Giving the block and the number back leaves only the slot changed. -/
theorem rollback_pendingState (inv : Inv sb) {ino block : Nat} {slot : OsfsInode}
    (clear : sb.inodeBitmap ino = false) (blockClear : sb.blockBitmap block = false) :
    ((osfsFreeDataBlock (pendingState sb ino block slot) block).setInodeMap
      (clearBit (setBit sb.inodeBitmap ino) ino) (u32Inc (u32Dec sb.nrFreeInodes))) =
        sb.setInode ino slot := by
  rw [osfsFreeDataBlock, clearBit_setBit clear, u32Inc_u32Dec inv.nrFreeInodes_lt]
  simp [pendingState, clearBit_setBit blockClear, u32Inc_u32Dec inv.nrFreeBlocks_lt]

theorem osfsCreateFinish_result (inv : Inv sb) (dentry : QStr) (mode : Nat) (cred : Cred)
    {newInode : Bool} (given : newInode = true)
    {ino block : Nat} (low : 1 ≤ ino) (high : ino < inodeCount)
    (clear : sb.inodeBitmap ino = false) (inArea : block < dataBlockCount)
    (blockClear : sb.blockBitmap block = false) :
    CreateInResult sb dentry mode cred newInode
      (osfsCreateFinish
        (pendingState sb ino block { freshOsfsInode mode cred ino with iBlocks := 0 }) rootInode
        dentry (freshInode mode cred ino) ino block) := by
  have neRoot := inv.ne_root_of_clear clear
  have filled : (pendingState sb ino block
      { freshOsfsInode mode cred ino with iBlocks := 0 }).setInode ino
        (newSlot mode cred ino block) =
      pendingState sb ino block (newSlot mode cred ino block) := by
    simp [pendingState]
  have root : (pendingState sb ino block (newSlot mode cred ino block)).inodeTable rootInode =
      sb.inodeTable rootInode := by
    rw [pendingState, SbInfo.setInode_of_ne neRoot.symm, SbInfo.setInodeMap_inodeTable,
      SbInfo.setBlockMap_inodeTable]
  have data : (pendingState sb ino block (newSlot mode cred ino block)).dataBlocks =
      sb.dataBlocks := by
    simp [pendingState]
  have slotEq : (pendingState sb ino block
      { freshOsfsInode mode cred ino with iBlocks := 0 }).inodeTable ino =
        { freshOsfsInode mode cred ino with iBlocks := 0 } := by
    simp [pendingState]
  have added : AddResult sb (pendingState sb ino block (newSlot mode cred ino block)) dentry ino
      (osfsAddDirEntry (pendingState sb ino block (newSlot mode cred ino block)) rootInode ino
        dentry) :=
    osfsAddDirEntry_result inv root data ino
  have literal : (⟨(freshOsfsInode mode cred ino).iIno, 0, 1, (freshInode mode cred ino).iMode,
      (freshInode mode cred ino).iNlink, (freshInode mode cred ino).iUid,
      (freshInode mode cred ino).iGid, block⟩ : OsfsInode) = newSlot mode cred ino block := rfl
  have inoEq : (freshInode mode cred ino).iIno = ino := rfl
  rw [osfsCreateFinish, slotEq]
  dsimp only at filled ⊢
  rw [literal, inoEq]
  rw [filled]
  generalize osfsAddDirEntry (pendingState sb ino block (newSlot mode cred ino block)) rootInode
    ino dentry = r at added ⊢
  cases added with
  | refused reason =>
      have slotNew : (pendingState sb ino block (newSlot mode cred ino block)).inodeTable ino =
          newSlot mode cred ino block := by
        simp [pendingState]
      have blocks : (newSlot mode cred ino block).iBlocks ≠ 0 := Nat.one_ne_zero
      have blockEq : (newSlot mode cred ino block).iBlock = block := rfl
      have bits : (osfsFreeDataBlock (pendingState sb ino block (newSlot mode cred ino block))
          block).inodeBitmap = setBit sb.inodeBitmap ino := by
        simp [osfsFreeDataBlock, pendingState]
      have count : (osfsFreeDataBlock (pendingState sb ino block (newSlot mode cred ino block))
          block).nrFreeInodes = u32Dec sb.nrFreeInodes := by
        simp [osfsFreeDataBlock, pendingState]
      simp only [slotNew, if_pos blocks, blockEq, bits, count,
        rollback_pendingState inv clear blockClear]
      exact .rolledBack clear given reason
  | added notFull fresh =>
      have created : CreateInResult sb dentry mode cred newInode
          (.ok (freshInode mode cred ino) (createdState sb dentry mode cred ino block)) :=
        .created low high clear inArea blockClear notFull fresh
      simpa [createdState, pendingState] using created

theorem osfsCreateIn_result (inv : Inv sb) (dentry : QStr) (regular : sIsreg mode = true)
    (cred : Cred) (newInode : Bool) :
    CreateInResult sb dentry mode cred newInode
      (osfsCreateIn sb rootInode dentry mode cred newInode) := by
  have result := osfsNewInode_result inv regular cred newInode
  rw [osfsCreateIn]
  generalize osfsNewInode sb mode cred newInode = r at result ⊢
  cases result with
  | refused exhausted => exact .refused exhausted
  | lost low high clear free failed => exact .lost low high clear free failed
  | @made ino block low high clear inArea blockClear given =>
      have neRoot := inv.ne_root_of_clear clear
      have finish := osfsCreateFinish_result inv dentry mode cred given low high clear inArea
        blockClear
      have restored : u32Inc (u32Dec (u32Dec sb.nrFreeInodes)) = u32Dec sb.nrFreeInodes := by
        apply u32Inc_u32Dec
        unfold u32Dec
        exact u32_lt _
      simp only [freshInode, newInodeState, pendingState, freshOsfsInode, OsfsInode.zero]
        at finish ⊢
      simp [restored]
      exact finish

/-! ### The directory's block -/

/-- The state in which `osfs_create` calls `osfs_new_inode`. -/
def withRootBlock (sb : SbInfo) : SbInfo :=
  if (sb.inodeTable rootInode).iBlocks = 0 then rootBlockState sb else sb

/-- Until the directory has its block, no entry and no file is there. -/
theorem Inv.dirEntries_of_fresh (inv : Inv sb)
    (freshRoot : (sb.inodeTable rootInode).iBlocks = 0) : dirEntries sb = [] := by
  have empty := (inv.rootFresh freshRoot).1
  simp [dirEntries, dirEntryCount, empty]

theorem Inv.ownedBlocks_of_fresh (inv : Inv sb)
    (freshRoot : (sb.inodeTable rootInode).iBlocks = 0) : ownedBlocks sb = [] := by
  simp [ownedBlocks, rootBlocks, fileInos, freshRoot, inv.dirEntries_of_fresh freshRoot]

/-- Until the directory has its block, every block is free. -/
theorem Inv.clear_of_fresh (inv : Inv sb) (freshRoot : (sb.inodeTable rootInode).iBlocks = 0) :
    ∀ block < dataBlockCount, sb.blockBitmap block = false := by
  intro block inArea
  by_contra taken
  have owned := (inv.bitmap block).mpr ⟨inArea, by simpa using taken⟩
  rw [inv.ownedBlocks_of_fresh freshRoot] at owned
  exact List.not_mem_nil owned

/-- The first block the directory takes is block 0. -/
theorem Inv.alloc_of_fresh (inv : Inv sb) (freshRoot : (sb.inodeTable rootInode).iBlocks = 0) :
    osfsAllocDataBlock sb =
      .ok 0 (sb.setBlockMap (setBit sb.blockBitmap 0) (u32Dec sb.nrFreeBlocks)) := by
  have clear := inv.clear_of_fresh freshRoot 0 (by decide)
  have scan : firstClear sb.blockBitmap 0 sb.blockCount = some 0 := by
    rw [inv.blockCount_eq]
    simp [firstClear, dataBlockCount, List.range'_succ, clear]
  simp [osfsAllocDataBlock, scan]

/-- What `osfs_create` can come to. -/
inductive CreateResult (sb : SbInfo) (dentry : QStr) (mode : Nat) (cred : Cred)
    (newInode : Bool) : Outcome Inode → Prop
  | tooLong (long : maxFilenameLen ≤ dentry.len) :
      CreateResult sb dentry mode cred newInode (.error .ENAMETOOLONG sb)
  | inDir {r : Outcome Inode} (short : dentry.len < maxFilenameLen)
      (result : CreateInResult (withRootBlock sb) dentry mode cred newInode r) :
      CreateResult sb dentry mode cred newInode r

end Create

end NckuOs.Osfs
