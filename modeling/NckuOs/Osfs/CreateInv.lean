import NckuOs.Osfs.Content
import NckuOs.Osfs.Create

/-!
# Creation keeps the invariant

Each of the results of `osfs_create` is a state in order again.  Losing an inode
number and rolling back a refused name leave every file alone; a created file is
one more entry and one more block.
-/

set_option maxRecDepth 4000

namespace NckuOs.Osfs

open NckuOs.Bitmap
open NckuOs.ByteMemory
open NckuOs.RunLength

/-! ## Changes beside the files -/

section Beside

variable {sb sb' : SbInfo}

/-- `sb'` has the files of `sb`: the same data area, the same block map, and the
same inode slots for the directory and for every file. -/
structure SameFiles (sb sb' : SbInfo) : Prop where
  inodeCount_eq : sb'.inodeCount = sb.inodeCount
  blockCount_eq : sb'.blockCount = sb.blockCount
  blockBitmap_eq : sb'.blockBitmap = sb.blockBitmap
  nrFreeBlocks_eq : sb'.nrFreeBlocks = sb.nrFreeBlocks
  data_eq : sb'.dataBlocks = sb.dataBlocks
  root_eq : sb'.inodeTable rootInode = sb.inodeTable rootInode
  files_eq : ∀ ino ∈ fileInos sb, sb'.inodeTable ino = sb.inodeTable ino

namespace SameFiles

theorem dirEntries_eq (same : SameFiles sb sb') : dirEntries sb' = dirEntries sb := by
  simp [dirEntries, dirEntryCount, dirBase, same.root_eq, same.data_eq]

theorem fileInos_eq (same : SameFiles sb sb') : fileInos sb' = fileInos sb := by
  rw [fileInos, fileInos, same.dirEntries_eq]

theorem extents_eq (same : SameFiles sb sb') {ino : Nat} (named : ino ∈ fileInos sb) :
    extents sb' ino = extents sb ino := by
  have hdrEq : osfsGetExtentHeader sb' ino = osfsGetExtentHeader sb ino := by
    simp only [osfsGetExtentHeader, same.files_eq ino named]
  rw [extents, extents, hdrEq, same.data_eq]

theorem blockMap_eq (same : SameFiles sb sb') {ino : Nat} (named : ino ∈ fileInos sb) :
    blockMap sb' ino = blockMap sb ino := by
  rw [blockMap, blockMap, same.extents_eq named]

theorem ownedBlocks_eq (same : SameFiles sb sb') : ownedBlocks sb' = ownedBlocks sb := by
  have root : rootBlocks sb' = rootBlocks sb := by
    simp [rootBlocks, same.root_eq]
  rw [ownedBlocks, ownedBlocks, root, same.fileInos_eq]
  congr 1
  apply List.flatMap_congr
  intro ino named
  rw [fileBlocks, fileBlocks, same.files_eq ino named, same.blockMap_eq named]

theorem fileView_eq (same : SameFiles sb sb') {ino : Nat} (named : ino ∈ fileInos sb) :
    fileView sb' ino = fileView sb ino := by
  simp only [fileView, fileByte, same.files_eq ino named, same.blockMap_eq named, same.data_eq]

theorem fileOk (same : SameFiles sb sb') (bits : ∀ ino, sb.inodeBitmap ino = true →
    sb'.inodeBitmap ino = true) {ino : Nat} (named : ino ∈ fileInos sb) (ok : FileOk sb ino) :
    FileOk sb' ino := by
  have slot := same.files_eq ino named
  exact
    { low := ok.low
      high := ok.high
      taken := bits ino ok.taken
      regular := by rw [slot]; exact ok.regular
      blocks := by rw [slot, same.blockMap_eq named]; exact ok.blocks
      size := by rw [slot]; exact ok.size
      nonempty := by rw [same.extents_eq named]; exact ok.nonempty
      table := by
        simp only [HeaderValid, osfsGetExtentHeader, slot, same.data_eq]
        exact ok.table }

/-- Such a change keeps the invariant when it only takes inode numbers and keeps
their count. -/
theorem inv (same : SameFiles sb sb') (inv : Inv sb)
    (allocated : (sb.inodeTable rootInode).iBlocks ≠ 0)
    (bits : ∀ ino, sb.inodeBitmap ino = true → sb'.inodeBitmap ino = true)
    (count : sb'.nrFreeInodes = countClear sb'.inodeBitmap inodeCount) : Inv sb' where
  inodeCount_eq := same.inodeCount_eq.trans inv.inodeCount_eq
  blockCount_eq := same.blockCount_eq.trans inv.blockCount_eq
  rootBlock := by rw [same.root_eq]; exact inv.rootBlock
  rootFresh := by
    intro none
    rw [same.root_eq] at none
    exact absurd none allocated
  rootTaken := bits rootInode inv.rootTaken
  dirSize := by rw [same.root_eq]; exact inv.dirSize
  shortNames := by rw [same.dirEntries_eq]; exact inv.shortNames
  namesNodup := by rw [same.dirEntries_eq]; exact inv.namesNodup
  inosNodup := by rw [same.fileInos_eq]; exact inv.inosNodup
  files := by
    intro ino named
    rw [same.fileInos_eq] at named
    exact same.fileOk bits named (inv.files ino named)
  owned := by rw [same.ownedBlocks_eq]; exact inv.owned
  bitmap := by
    intro block
    rw [same.ownedBlocks_eq, same.blockBitmap_eq]
    exact inv.bitmap block
  freeZero := by
    intro block inArea clear
    rw [same.blockBitmap_eq] at clear
    rw [same.data_eq]
    exact inv.freeZero block inArea clear
  freeBlocks := by rw [same.nrFreeBlocks_eq, same.blockBitmap_eq]; exact inv.freeBlocks
  freeInodes := count

end SameFiles

theorem u32Dec_nrFreeInodes (inv : Inv sb) {ino : Nat} (high : ino < inodeCount)
    (clear : sb.inodeBitmap ino = false) :
    u32Dec sb.nrFreeInodes = countClear (setBit sb.inodeBitmap ino) inodeCount := by
  rw [inv.freeInodes]
  exact (u32Dec_countClear high (by decide) clear).2

theorem sameFiles_takenState (sb : SbInfo) (ino : Nat) : SameFiles sb (takenState sb ino) where
  inodeCount_eq := by simp [takenState]
  blockCount_eq := by simp [takenState]
  blockBitmap_eq := by simp [takenState]
  nrFreeBlocks_eq := by simp [takenState]
  data_eq := by simp [takenState]
  root_eq := by simp [takenState]
  files_eq := by simp [takenState]

/-- The number of a file is taken, so a clear one is no file's. -/
theorem Inv.not_mem_of_clear (inv : Inv sb) {ino : Nat} (clear : sb.inodeBitmap ino = false) :
    ino ∉ fileInos sb := by
  intro named
  have taken := (inv.files ino named).taken
  rw [clear] at taken
  contradiction

theorem sameFiles_setInode (inv : Inv sb) {ino : Nat} (slot : OsfsInode)
    (clear : sb.inodeBitmap ino = false) : SameFiles sb (sb.setInode ino slot) where
  inodeCount_eq := by simp
  blockCount_eq := by simp
  blockBitmap_eq := by simp
  nrFreeBlocks_eq := by simp
  data_eq := by simp
  root_eq := SbInfo.setInode_of_ne (inv.ne_root_of_clear clear).symm
  files_eq := by
    intro other named
    apply SbInfo.setInode_of_ne
    rintro rfl
    exact inv.not_mem_of_clear clear named

end Beside

/-! ## The directory's first block -/

section RootBlock

variable {sb : SbInfo}

theorem rootBlockState_root :
    (rootBlockState sb).inodeTable rootInode =
      { sb.inodeTable rootInode with iBlock := 0, iBlocks := 1 } := by
  simp [rootBlockState]

/-- The directory of a fresh mount stays empty when it gets its block. -/
theorem dirEntries_rootBlockState (inv : Inv sb)
    (freshRoot : (sb.inodeTable rootInode).iBlocks = 0) :
    dirEntries (rootBlockState sb) = [] := by
  have empty := (inv.rootFresh freshRoot).1
  simp [dirEntries, dirEntryCount, rootBlockState_root, empty]

theorem inv_rootBlockState (inv : Inv sb) (freshRoot : (sb.inodeTable rootInode).iBlocks = 0) :
    Inv (rootBlockState sb) := by
  have noEntry := dirEntries_rootBlockState inv freshRoot
  have noFile : fileInos (rootBlockState sb) = [] := by
    rw [fileInos, noEntry, List.map_nil]
  have owned : ownedBlocks (rootBlockState sb) = [0] := by
    simp [ownedBlocks, rootBlocks, noFile, rootBlockState_root]
  have clear := inv.clear_of_fresh freshRoot
  have bits : (rootBlockState sb).blockBitmap = setBit sb.blockBitmap 0 := by
    simp [rootBlockState]
  have data : (rootBlockState sb).dataBlocks = sb.dataBlocks := by
    simp [rootBlockState]
  have inodeBits : (rootBlockState sb).inodeBitmap = sb.inodeBitmap := by
    simp [rootBlockState]
  obtain ⟨_, count⟩ := u32Dec_nrFreeBlocks inv (by decide) (clear 0 (by decide))
  exact
    { inodeCount_eq := by simp [rootBlockState, inv.inodeCount_eq]
      blockCount_eq := by simp [rootBlockState, inv.blockCount_eq]
      rootBlock := by rw [rootBlockState_root]
      rootFresh := by
        intro none
        rw [rootBlockState_root] at none
        exact absurd none Nat.one_ne_zero
      rootTaken := by rw [inodeBits]; exact inv.rootTaken
      dirSize := by rw [rootBlockState_root]; exact inv.dirSize
      shortNames := by simp [noEntry]
      namesNodup := by simp [noEntry]
      inosNodup := by simp [noFile]
      files := by simp [noFile]
      owned := by simp [owned]
      bitmap := by
        intro block
        rw [owned, bits, setBit_eq_true_iff, List.mem_singleton]
        constructor
        · rintro rfl
          exact ⟨by decide, .inl rfl⟩
        · rintro ⟨inArea, isZero | taken⟩
          · exact isZero
          · rw [clear block inArea] at taken
            exact absurd taken Bool.false_ne_true
      freeZero := by
        intro block inArea _
        rw [data]
        exact inv.freeZero block inArea (clear block inArea)
      freeBlocks := by
        rw [bits, ← count]
        simp [rootBlockState]
      freeInodes := by
        rw [inodeBits, ← inv.freeInodes]
        simp [rootBlockState] }

/-- What the step to the state of `osfs_new_inode` keeps. -/
structure EntersDir (sb sb' : SbInfo) : Prop where
  inv : Inv sb'
  allocated : (sb'.inodeTable rootInode).iBlocks ≠ 0
  dirEntries_eq : dirEntries sb' = dirEntries sb
  inodeBitmap_eq : sb'.inodeBitmap = sb.inodeBitmap
  nrFreeInodes_eq : sb'.nrFreeInodes = sb.nrFreeInodes
  unchanged : (sb.inodeTable rootInode).iBlocks ≠ 0 → sb' = sb
  fresh : (sb.inodeTable rootInode).iBlocks = 0 → sb'.nrFreeBlocks + 1 = dataBlockCount

theorem entersDir_withRootBlock (inv : Inv sb) : EntersDir sb (withRootBlock sb) := by
  by_cases freshRoot : (sb.inodeTable rootInode).iBlocks = 0
  · rw [withRootBlock, if_pos freshRoot]
    have clear := inv.clear_of_fresh freshRoot
    obtain ⟨lowered, _⟩ := u32Dec_nrFreeBlocks inv (by decide) (clear 0 (by decide))
    have allFree : sb.nrFreeBlocks = dataBlockCount := by
      have same : countClear sb.blockBitmap dataBlockCount =
          countClear (fun _ => false) dataBlockCount := countClear_congr clear
      rw [inv.freeBlocks, same]
      decide
    exact
      { inv := inv_rootBlockState inv freshRoot
        allocated := by
          rw [rootBlockState_root]
          exact Nat.one_ne_zero
        dirEntries_eq := by
          rw [dirEntries_rootBlockState inv freshRoot, inv.dirEntries_of_fresh freshRoot]
        inodeBitmap_eq := by simp [rootBlockState]
        nrFreeInodes_eq := by simp [rootBlockState]
        unchanged := fun allocated => absurd freshRoot allocated
        fresh := by
          intro _
          rw [← allFree, ← lowered]
          simp [rootBlockState] }
  · rw [withRootBlock, if_neg freshRoot]
    exact
      { inv := inv
        allocated := freshRoot
        dirEntries_eq := rfl
        inodeBitmap_eq := rfl
        nrFreeInodes_eq := rfl
        unchanged := fun _ => rfl
        fresh := fun none => absurd none freshRoot }

theorem osfsCreate_result {mode : Nat} (inv : Inv sb) (dentry : QStr)
    (regular : sIsreg mode = true) (cred : Cred) (newInode : Bool) :
    CreateResult sb dentry mode cred newInode
      (osfsCreate sb rootDir dentry mode cred newInode) := by
  simp only [osfsCreate, rootDir]
  by_cases long : dentry.len ≥ maxFilenameLen
  · rw [if_pos long]
    exact .tooLong long
  · rw [if_neg long]
    have entered := osfsCreateIn_result (entersDir_withRootBlock inv).inv dentry regular cred
      newInode
    by_cases freshRoot : (sb.inodeTable rootInode).iBlocks = 0
    · rw [if_pos freshRoot, inv.alloc_of_fresh freshRoot]
      have target : withRootBlock sb = rootBlockState sb := if_pos freshRoot
      refine .inDir (Nat.not_le.mp long) ?_
      rw [target] at entered ⊢
      simpa [rootBlockState] using entered
    · rw [if_neg freshRoot]
      have target : withRootBlock sb = sb := if_neg freshRoot
      refine .inDir (Nat.not_le.mp long) ?_
      rw [target] at entered ⊢
      exact entered

end RootBlock

/-! ## A created file -/

/-- What holds before `createdState` is reached. -/
structure Creates (sb : SbInfo) (dentry : QStr) (mode ino block : Nat) : Prop where
  inv : Inv sb
  allocated : (sb.inodeTable rootInode).iBlocks ≠ 0
  regular : sIsreg mode = true
  short : dentry.len < maxFilenameLen
  low : 1 ≤ ino
  high : ino < inodeCount
  clear : sb.inodeBitmap ino = false
  inArea : block < dataBlockCount
  blockClear : sb.blockBitmap block = false
  notFull : (dirEntries sb).length < maxDirEntries
  fresh : dentry.name ∉ (dirEntries sb).map Prod.fst

namespace Creates

variable {sb : SbInfo} {dentry : QStr} {mode ino block : Nat} {cred : Cred}

theorem slot_of_ne {g : Nat} (neRoot : g ≠ rootInode) (neIno : g ≠ ino) :
    (createdState sb dentry mode cred ino block).inodeTable g = sb.inodeTable g := by
  rw [createdState, SbInfo.setInode_of_ne neRoot, SbInfo.setInode_of_ne neIno]
  simp

theorem root_slot :
    (createdState sb dentry mode cred ino block).inodeTable rootInode = grownRoot sb := by
  simp [createdState]

theorem new_slot (creates : Creates sb dentry mode ino block) :
    (createdState sb dentry mode cred ino block).inodeTable ino = newSlot mode cred ino block := by
  rw [createdState, SbInfo.setInode_of_ne (creates.inv.ne_root_of_clear creates.clear),
    SbInfo.setInode_self]

theorem data_eq :
    (createdState sb dentry mode cred ino block).dataBlocks = namedData sb dentry ino := by
  simp [createdState]

theorem blockBitmap_eq :
    (createdState sb dentry mode cred ino block).blockBitmap = setBit sb.blockBitmap block := by
  simp [createdState]

theorem inodeBitmap_eq :
    (createdState sb dentry mode cred ino block).inodeBitmap = setBit sb.inodeBitmap ino := by
  simp [createdState]

/-- Where the new entry goes. -/
theorem namedData_eq (creates : Creates sb dentry mode ino block) :
    namedData sb dentry ino =
      entryMem sb.dataBlocks (260 * (dirEntries sb).length) dentry ino := by
  rw [namedData, creates.inv.dirBase_eq, ← length_dirEntries, dirSlot_eq, Nat.zero_add]

/-- Only the directory block changes. -/
theorem sameBlock (creates : Creates sb dentry mode ino block) {other : Nat} (ne : other ≠ 0) :
    SameBlock sb.dataBlocks (namedData sb dentry ino) other := by
  have notFull := creates.notFull
  rw [maxDirEntries_eq] at notFull
  rw [creates.namedData_eq]
  apply entryMem_agree creates.short
  right
  omega

/-- The old entries stay as they are and the new one comes last. -/
theorem dirEntries_eq (creates : Creates sb dentry mode ino block) :
    dirEntries (createdState sb dentry mode cred ino block) =
      dirEntries sb ++ [(dentry.name, ino)] := by
  have notFull := creates.notFull
  have inoHigh := creates.high
  rw [maxDirEntries_eq] at notFull
  unfold inodeCount at inoHigh
  have oldCount := length_dirEntries sb
  have sizeEq : (sb.inodeTable rootInode).iSize = 260 * (dirEntries sb).length :=
    creates.inv.dirSize_eq
  have count : dirEntryCount (createdState sb dentry mode cred ino block) rootInode =
      (dirEntries sb).length + 1 := by
    rw [dirEntryCount, root_slot]
    change u32 ((sb.inodeTable rootInode).iSize + 260) / 260 = _
    rw [u32_of_lt (by omega)]
    omega
  have base : dirBase (createdState sb dentry mode cred ino block) rootInode = 0 := by
    simp [dirBase, root_slot, grownRoot, creates.inv.rootBlock, blockAddr, u32]
  have oldBase : dirBase (sb.setData (namedData sb dentry ino)) rootInode = 0 := by
    rw [dirBase, SbInfo.setData_inodeTable, ← dirBase, creates.inv.dirBase_eq]
  have oldEntries : (List.range (dirEntries sb).length).map (fun i =>
      (slotName (namedData sb dentry ino) (dirSlot 0 i),
        slotInodeNo (namedData sb dentry ino) (dirSlot 0 i))) = dirEntries sb := by
    have agree : Agree sb.dataBlocks (namedData sb dentry ino) 0
        (260 * dirEntryCount sb rootInode) := by
      rw [creates.namedData_eq, ← oldCount]
      apply entryMem_agree creates.short
      left
      omega
    have same : dirEntries (sb.setData (namedData sb dentry ino)) = dirEntries sb := by
      refine dirEntries_congr ?_ ?_ creates.inv.rootBlock creates.inv.few creates.inv.shortNames ?_
      · rw [SbInfo.setData_inodeTable]
      · rw [SbInfo.setData_inodeTable]
      · rw [SbInfo.setData_dataBlocks]
        exact agree
    have oldCount' : dirEntryCount (sb.setData (namedData sb dentry ino)) rootInode =
        (dirEntries sb).length := by
      rw [dirEntryCount, SbInfo.setData_inodeTable, ← dirEntryCount, oldCount]
    rw [dirEntries, oldBase, oldCount', SbInfo.setData_dataBlocks] at same
    exact same
  have newName : slotName (namedData sb dentry ino) (260 * (dirEntries sb).length) =
      dentry.name := by
    rw [creates.namedData_eq]
    apply slotName_entryMem creates.short
    unfold dataEnd dataBlockCount
    omega
  have newNo : slotInodeNo (namedData sb dentry ino) (260 * (dirEntries sb).length) = ino := by
    rw [creates.namedData_eq]
    exact slotInodeNo_entryMem (by omega)
  rw [dirEntries, count, base, data_eq, List.range_succ, List.map_append, List.map_singleton,
    oldEntries, dirSlot_eq, Nat.zero_add, newName, newNo]

theorem fileInos_eq (creates : Creates sb dentry mode ino block) :
    fileInos (createdState sb dentry mode cred ino block) = fileInos sb ++ [ino] := by
  rw [fileInos, creates.dirEntries_eq, List.map_append]
  rfl

/-- The directory holds block 0. -/
theorem zero_taken (creates : Creates sb dentry mode ino block) : sb.blockBitmap 0 = true := by
  have rootMem : 0 ∈ rootBlocks sb := by
    rw [rootBlocks, if_neg creates.allocated, creates.inv.rootBlock]
    exact List.mem_cons_self
  exact ((creates.inv.bitmap 0).mp (List.mem_append_left _ rootMem)).2

theorem block_ne_zero (creates : Creates sb dentry mode ino block) : block ≠ 0 := by
  rintro rfl
  have taken := creates.zero_taken
  rw [creates.blockClear] at taken
  exact Bool.false_ne_true taken

section OldFile

variable {g : Nat}

theorem old_slot (creates : Creates sb dentry mode ino block) (named : g ∈ fileInos sb) :
    (createdState sb dentry mode cred ino block).inodeTable g = sb.inodeTable g := by
  apply slot_of_ne (creates.inv.ne_root named)
  rintro rfl
  exact creates.inv.not_mem_of_clear creates.clear named

theorem old_sameBlock (creates : Creates sb dentry mode ino block) (named : g ∈ fileInos sb)
    {other : Nat} (isMem : other ∈ fileBlocks sb g) :
    SameBlock sb.dataBlocks (createdState sb dentry mode cred ino block).dataBlocks other := by
  rw [data_eq]
  apply creates.sameBlock
  rintro rfl
  exact creates.inv.zero_not_mem_fileBlocks named isMem

theorem old_extents (creates : Creates sb dentry mode ino block) (named : g ∈ fileInos sb) :
    extents (createdState sb dentry mode cred ino block) g = extents sb g := by
  have table := (creates.inv.files g named).table.imp_right And.left
  refine extents_congr ?_ (creates.inv.table_lt named) table
    (creates.old_sameBlock named (table_mem_fileBlocks sb g))
  rw [creates.old_slot named]

theorem old_blockMap (creates : Creates sb dentry mode ino block) (named : g ∈ fileInos sb) :
    blockMap (createdState sb dentry mode cred ino block) g = blockMap sb g := by
  rw [blockMap, blockMap, creates.old_extents named]

theorem old_fileBlocks (creates : Creates sb dentry mode ino block) (named : g ∈ fileInos sb) :
    fileBlocks (createdState sb dentry mode cred ino block) g = fileBlocks sb g := by
  rw [fileBlocks, fileBlocks, creates.old_blockMap named, creates.old_slot named]

theorem old_fileOk (creates : Creates sb dentry mode ino block) (named : g ∈ fileInos sb) :
    FileOk (createdState sb dentry mode cred ino block) g := by
  have ok := creates.inv.files g named
  have slot : (createdState sb dentry mode cred ino block).inodeTable g = sb.inodeTable g :=
    creates.old_slot named
  have map_eq : blockMap (createdState sb dentry mode cred ino block) g = blockMap sb g :=
    creates.old_blockMap named
  have extents_eq : extents (createdState sb dentry mode cred ino block) g = extents sb g :=
    creates.old_extents named
  have same : SameBlock sb.dataBlocks (createdState sb dentry mode cred ino block).dataBlocks
      (sb.inodeTable g).iBlock :=
    creates.old_sameBlock named (table_mem_fileBlocks sb g)
  constructor
  case low => exact ok.low
  case high => exact ok.high
  case taken =>
    rw [inodeBitmap_eq, setBit_eq_true_iff]
    exact .inr ok.taken
  case regular =>
    rw [slot]
    exact ok.regular
  case blocks =>
    rw [slot, map_eq]
    exact ok.blocks
  case size =>
    rw [slot]
    exact ok.size
  case nonempty =>
    rw [extents_eq]
    exact ok.nonempty
  case table =>
    rcases ok.table with valid | ⟨zero, empty⟩
    · left
      refine valid.congr ?_ (creates.inv.table_lt named) same
      rw [slot]
    · right
      rw [slot]
      exact ⟨zero.congr same, empty⟩

theorem old_fileView (creates : Creates sb dentry mode ino block) (named : g ∈ fileInos sb) :
    fileView (createdState sb dentry mode cred ino block) g = fileView sb g := by
  have bytes : (fileView (createdState sb dentry mode cred ino block) g).bytes =
      (fileView sb g).bytes := by
    have map_eq :
        blockMap (createdState sb dentry mode cred ino block) g = blockMap sb g ++ [] := by
      rw [List.append_nil]
      exact creates.old_blockMap named
    apply bytes_eq_of_sameBlock map_eq
    · intro other isMem
      exact creates.old_sameBlock named (List.mem_cons_of_mem _ isMem)
    · simp
  simp only [fileView, FileView.mk.injEq] at bytes ⊢
  refine ⟨by rw [creates.old_slot named], by rw [creates.old_blockMap named], bytes⟩

end OldFile

/-- The new file's table block has never been used. -/
theorem new_blockZero (creates : Creates sb dentry mode ino block) :
    BlockZero (createdState sb dentry mode cred ino block).dataBlocks block := by
  rw [data_eq]
  exact (creates.inv.freeZero block creates.inArea creates.blockClear).congr
    (creates.sameBlock creates.block_ne_zero)

theorem new_iBlock (creates : Creates sb dentry mode ino block) :
    ((createdState sb dentry mode cred ino block).inodeTable ino).iBlock = block := by
  rw [creates.new_slot]
  rfl

theorem new_extents (creates : Creates sb dentry mode ino block) :
    extents (createdState sb dentry mode cred ino block) ino = [] := by
  apply extents_of_zero
  · rw [creates.new_iBlock]
    exact creates.inArea
  · rw [creates.new_iBlock]
    exact creates.new_blockZero

theorem new_fileBlocks (creates : Creates sb dentry mode ino block) :
    fileBlocks (createdState sb dentry mode cred ino block) ino = [block] := by
  rw [fileBlocks, creates.new_iBlock, blockMap, creates.new_extents, expand_nil]

theorem new_fileOk (creates : Creates sb dentry mode ino block) :
    FileOk (createdState sb dentry mode cred ino block) ino := by
  have neRoot := creates.inv.ne_root_of_clear creates.clear
  have slot : (createdState sb dentry mode cred ino block).inodeTable ino =
      newSlot mode cred ino block := creates.new_slot
  exact
    { low := by
        have low := creates.low
        unfold rootInode at neRoot ⊢
        omega
      high := creates.high
      taken := by
        rw [inodeBitmap_eq]
        exact setBit_self _ _
      regular := by
        rw [slot]
        exact creates.regular
      blocks := by
        rw [slot, blockMap, creates.new_extents]
        rfl
      size := by
        rw [slot]
        exact Nat.two_pow_pos 32
      nonempty := by simp [creates.new_extents]
      table := by
        right
        rw [creates.new_iBlock, slot]
        exact ⟨creates.new_blockZero, rfl⟩ }

/-- The blocks in use are those that were, and the new table block. -/
theorem ownedBlocks_eq (creates : Creates sb dentry mode ino block) :
    ownedBlocks (createdState sb dentry mode cred ino block) = ownedBlocks sb ++ [block] := by
  have root : rootBlocks (createdState sb dentry mode cred ino block) = rootBlocks sb := by
    simp [rootBlocks, root_slot, grownRoot]
  have old : (fileInos sb).flatMap (fileBlocks (createdState sb dentry mode cred ino block)) =
      (fileInos sb).flatMap (fileBlocks sb) := by
    apply List.flatMap_congr
    intro g named
    exact creates.old_fileBlocks named
  rw [ownedBlocks, ownedBlocks, root, creates.fileInos_eq, List.flatMap_append, old,
    List.flatMap_singleton, creates.new_fileBlocks, List.append_assoc]

theorem not_mem_ownedBlocks (creates : Creates sb dentry mode ino block) :
    block ∉ ownedBlocks sb := by
  intro owned
  have taken := ((creates.inv.bitmap block).mp owned).2
  rw [creates.blockClear] at taken
  exact Bool.false_ne_true taken

/-- A state with one more file is in order. -/
theorem inv_createdState (creates : Creates sb dentry mode ino block) :
    Inv (createdState sb dentry mode cred ino block) := by
  have inv := creates.inv
  have owned : ownedBlocks (createdState sb dentry mode cred ino block) =
      ownedBlocks sb ++ [block] := creates.ownedBlocks_eq
  have entries : dirEntries (createdState sb dentry mode cred ino block) =
      dirEntries sb ++ [(dentry.name, ino)] := creates.dirEntries_eq
  have inos : fileInos (createdState sb dentry mode cred ino block) = fileInos sb ++ [ino] :=
    creates.fileInos_eq
  constructor
  case inodeCount_eq => simp [createdState, inv.inodeCount_eq]
  case blockCount_eq => simp [createdState, inv.blockCount_eq]
  case rootBlock =>
    rw [root_slot]
    exact inv.rootBlock
  case rootFresh =>
    intro none
    rw [root_slot] at none
    exact absurd none creates.allocated
  case rootTaken =>
    rw [inodeBitmap_eq, setBit_eq_true_iff]
    exact .inr inv.rootTaken
  case dirSize =>
    have notFull := creates.notFull
    rw [maxDirEntries_eq] at notFull
    refine ⟨(dirEntries sb).length + 1, by rw [maxDirEntries_eq]; omega, ?_⟩
    rw [root_slot]
    change u32 ((sb.inodeTable rootInode).iSize + sizeofDirEntry) =
      sizeofDirEntry * ((dirEntries sb).length + 1)
    rw [inv.dirSize_eq]
    unfold sizeofDirEntry
    rw [u32_of_lt (by omega)]
    omega
  case shortNames =>
    rw [entries]
    intro entry isMem
    rcases List.mem_append.mp isMem with old | isNew
    · exact inv.shortNames entry old
    · rw [List.mem_singleton.mp isNew]
      exact creates.short
  case namesNodup =>
    rw [entries, List.map_append, List.map_singleton, List.nodup_append']
    refine ⟨inv.namesNodup, List.nodup_singleton _, ?_⟩
    rw [List.disjoint_singleton]
    exact creates.fresh
  case inosNodup =>
    rw [inos, List.nodup_append']
    refine ⟨inv.inosNodup, List.nodup_singleton _, ?_⟩
    rw [List.disjoint_singleton]
    exact inv.not_mem_of_clear creates.clear
  case files =>
    intro g named
    rw [inos] at named
    rcases List.mem_append.mp named with old | isNew
    · exact creates.old_fileOk old
    · rw [List.mem_singleton.mp isNew]
      exact creates.new_fileOk
  case owned =>
    rw [owned, List.nodup_append']
    refine ⟨inv.owned, List.nodup_singleton _, ?_⟩
    rw [List.disjoint_singleton]
    exact creates.not_mem_ownedBlocks
  case bitmap =>
    intro other
    rw [owned, List.mem_append, inv.bitmap, List.mem_singleton, blockBitmap_eq, setBit_eq_true_iff]
    constructor
    · rintro (⟨inArea, taken⟩ | rfl)
      · exact ⟨inArea, .inr taken⟩
      · exact ⟨creates.inArea, .inl rfl⟩
    · rintro ⟨inArea, isNew | taken⟩
      · exact .inr isNew
      · exact .inl ⟨inArea, taken⟩
  case freeZero =>
    intro other inArea clear
    have notTaken : ¬(other = block ∨ sb.blockBitmap other = true) := by
      rw [blockBitmap_eq] at clear
      rw [← setBit_eq_true_iff, clear]
      exact Bool.false_ne_true
    have wasClear : sb.blockBitmap other = false := by
      simpa using fun taken => notTaken (.inr taken)
    have neZero : other ≠ 0 := by
      rintro rfl
      rw [creates.zero_taken] at wasClear
      exact Bool.false_ne_true wasClear.symm
    rw [data_eq]
    exact (inv.freeZero other inArea wasClear).congr (creates.sameBlock neZero)
  case freeBlocks =>
    have free : (createdState sb dentry mode cred ino block).nrFreeBlocks =
        u32Dec sb.nrFreeBlocks := by
      simp [createdState]
    rw [free, blockBitmap_eq]
    exact (u32Dec_nrFreeBlocks inv creates.inArea creates.blockClear).2
  case freeInodes =>
    have free : (createdState sb dentry mode cred ino block).nrFreeInodes =
        u32Dec sb.nrFreeInodes := by
      simp [createdState]
    rw [free, inodeBitmap_eq]
    exact u32Dec_nrFreeInodes inv creates.high creates.clear

end Creates

end NckuOs.Osfs
