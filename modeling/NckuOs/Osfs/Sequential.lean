import NckuOs.Osfs.Reachable

/-!
# Numbers are handed out in order

Both bitmaps are scanned from below, and what a call takes is given back at once or
never.  So the numbers in use have no gap, the files of the directory have growing
inode numbers, and the blocks of a file grow from its extent table on.
-/

set_option maxRecDepth 4000

namespace NckuOs.Osfs

open NckuOs.Bitmap
open NckuOs.ByteMemory
open NckuOs.RunLength
open NckuOs.Transition

/-! ## What a creation takes -/

/-- Every number that is in use in `sb'` and not in `sb` is the first that is free
in `sb`. -/
structure TakesFirst (sb sb' : SbInfo) : Prop where
  inode : ∀ i, sb'.inodeBitmap i = true →
    sb.inodeBitmap i = true ∨ firstClear sb.inodeBitmap 1 sb.inodeCount = some i
  block : ∀ i, sb'.blockBitmap i = true →
    sb.blockBitmap i = true ∨ firstClear sb.blockBitmap 0 sb.blockCount = some i

theorem TakesFirst.refl (sb : SbInfo) : TakesFirst sb sb where
  inode _ taken := .inl taken
  block _ taken := .inl taken

/-- Giving numbers back does not count. -/
theorem TakesFirst.fewer {sb sb' sb'' : SbInfo} (first : TakesFirst sb sb')
    (inode : ∀ i, sb''.inodeBitmap i = true → sb'.inodeBitmap i = true)
    (block : ∀ i, sb''.blockBitmap i = true → sb'.blockBitmap i = true) : TakesFirst sb sb'' where
  inode i taken := first.inode i (inode i taken)
  block i taken := first.block i (block i taken)

section Create

variable {sb : SbInfo}

theorem of_setBit {bits : Bits} {lo n i j : Nat} (found : firstClear bits lo n = some i)
    (taken : setBit bits i j = true) : bits j = true ∨ firstClear bits lo n = some j := by
  rcases setBit_eq_true_iff.mp taken with rfl | old
  · exact .inr found
  · exact .inl old

theorem osfsGetFreeInode_takesFirst (sb : SbInfo) :
    TakesFirst sb (resultState (osfsGetFreeInode sb)) ∧
      (resultState (osfsGetFreeInode sb)).blockBitmap = sb.blockBitmap ∧
      (resultState (osfsGetFreeInode sb)).blockCount = sb.blockCount := by
  unfold osfsGetFreeInode
  cases scan : firstClear sb.inodeBitmap 1 sb.inodeCount with
  | none => exact ⟨.refl sb, rfl, rfl⟩
  | some ino =>
      refine ⟨⟨?_, ?_⟩, SbInfo.setInodeMap_blockBitmap .., SbInfo.setInodeMap_blockCount ..⟩
      · intro i taken
        exact of_setBit scan taken
      · intro i taken
        exact .inl taken

theorem osfsNewInode_takesFirst (sb : SbInfo) (mode : Nat) (cred : Cred) (newInode : Bool) :
    TakesFirst sb (resultState (osfsNewInode sb mode cred newInode)) := by
  obtain ⟨first, blocks, count⟩ := osfsGetFreeInode_takesFirst sb
  unfold osfsNewInode
  split
  · exact .refl sb
  · split
    · exact .refl sb
    · generalize osfsGetFreeInode sb = numbered at first blocks count ⊢
      cases numbered with
      | error e sb' => exact first
      | ok ino sb' =>
          simp only [resultState_ok] at first blocks count ⊢
          split
          · exact first
          · split
            · exact first
            · rename_i slot _
              rcases osfsAllocDataBlock_cases
                  (sb'.setInode slot (freshOsfsInode mode cred ino)) with
                ⟨block, taken, allocated⟩ | ⟨_, failed⟩
              · rw [allocated]
                refine ⟨first.inode, ?_⟩
                intro i set
                simp only [SbInfo.setInode_blockBitmap, SbInfo.setInode_blockCount, blocks,
                  count] at taken set
                exact of_setBit taken set
              · rw [failed]
                exact first.fewer (fun i set => set) fun i set => set

theorem osfsAddDirEntry_bitmaps (sb : SbInfo) (parent inodeNo : Nat) (dentry : QStr) :
    (resultState (osfsAddDirEntry sb parent inodeNo dentry)).inodeBitmap = sb.inodeBitmap ∧
      (resultState (osfsAddDirEntry sb parent inodeNo dentry)).blockBitmap = sb.blockBitmap := by
  unfold osfsAddDirEntry
  dsimp only
  split
  · exact ⟨rfl, rfl⟩
  · split
    · exact ⟨rfl, rfl⟩
    · simp only [resultState_ok, SbInfo.setInode_inodeBitmap, SbInfo.setInode_blockBitmap,
        SbInfo.setData_inodeBitmap, SbInfo.setData_blockBitmap, and_self]

theorem clearBit_le {bits : Bits} {i j : Nat} (taken : clearBit bits i j = true) :
    bits j = true := by
  by_cases same : j = i
  · rw [same, clearBit_self] at taken
    cases taken
  · rwa [clearBit_of_ne same] at taken

/-- From `osfs_new_inode` on nothing more is taken. -/
theorem osfsCreateFinish_takesFirst {first : SbInfo} (taken : TakesFirst first sb) (parent : Nat)
    (dentry : QStr) (inode : Inode) (slot block : Nat) :
    TakesFirst first (resultState (osfsCreateFinish sb parent dentry inode slot block)) := by
  unfold osfsCreateFinish
  dsimp only
  generalize written : sb.setInode slot _ = sb'
  have bitmaps := osfsAddDirEntry_bitmaps sb' parent inode.iIno dentry
  have same : sb'.inodeBitmap = sb.inodeBitmap ∧ sb'.blockBitmap = sb.blockBitmap := by
    rw [← written]
    exact ⟨SbInfo.setInode_inodeBitmap .., SbInfo.setInode_blockBitmap ..⟩
  rw [same.1, same.2] at bitmaps
  generalize osfsAddDirEntry sb' parent inode.iIno dentry = added at bitmaps ⊢
  cases added with
  | ok value sb'' =>
      simp only [resultState_ok] at bitmaps ⊢
      apply taken.fewer
      · rw [bitmaps.1]
        exact fun i set => set
      · rw [bitmaps.2]
        exact fun i set => set
  | error e sb'' =>
      simp only [resultState_error] at bitmaps ⊢
      apply taken.fewer
      · intro i set
        rw [SbInfo.setInodeMap_inodeBitmap] at set
        have kept := clearBit_le set
        split at kept <;> rwa [← bitmaps.1]
      · intro i set
        rw [SbInfo.setInodeMap_blockBitmap] at set
        split at set
        · rw [← bitmaps.2]
          exact clearBit_le set
        · rwa [← bitmaps.2]

/-- The inode of `osfs_new_inode` comes with its block. -/
theorem osfsNewInode_iBlocks {mode : Nat} {cred : Cred} {newInode : Bool} {inode : Inode}
    {sb' : SbInfo} (made : osfsNewInode sb mode cred newInode = .ok inode sb') :
    ∃ slot, inode.iPrivate = some slot ∧ (sb'.inodeTable slot).iBlocks ≠ 0 := by
  unfold osfsNewInode at made
  split at made
  · cases made
  · split at made
    · cases made
    · split at made
      · cases made
      · split at made
        · cases made
        · split at made
          · cases made
          · split at made
            · cases made
            · cases made
              refine ⟨_, rfl, ?_⟩
              rw [SbInfo.setInodeMap_inodeTable, SbInfo.setInode_self]
              exact Nat.one_ne_zero

theorem osfsCreateIn_takesFirst (sb : SbInfo) (parent : Nat) (dentry : QStr) (mode : Nat)
    (cred : Cred) (newInode : Bool) :
    TakesFirst sb (resultState (osfsCreateIn sb parent dentry mode cred newInode)) := by
  have first := osfsNewInode_takesFirst sb mode cred newInode
  have blocks (inode : Inode) (sb' : SbInfo) :=
    @osfsNewInode_iBlocks sb mode cred newInode inode sb'
  rw [osfsCreateIn]
  generalize osfsNewInode sb mode cred newInode = made at first blocks ⊢
  cases made with
  | error e sb' => exact first
  | ok inode sb' =>
      rcases blocks inode sb' rfl with ⟨slot, isSlot, present⟩
      have had : ¬¬(sb'.inodeTable slot).iBlocks ≠ 0 := not_not_intro present
      simp only [isSlot, SbInfo.setInodeMap_inodeTable, had, and_false, if_false]
      apply osfsCreateFinish_takesFirst
      exact first.fewer (fun i set => set) fun i set => set

end Create

/-! ## What a write takes -/

section Write

variable {sb : SbInfo} {f : Nat}

/-- An appended block is the first that is free. -/
theorem append_takes_first (ready : Ready sb f) {block : Nat} {sb' : SbInfo}
    (result : osfsExtentAppendBlock sb f (osfsGetExtentHeader sb f) = .ok block sb') :
    firstClear sb.blockBitmap 0 sb.blockCount = some block ∧ Appended sb sb' f block ∧
      sb'.blockBitmap = setBit sb.blockBitmap block := by
  have appended : Appended sb sb' f block := by
    rcases osfsExtentAppendBlock_cases ready with ⟨_, _, _, _, same, spec⟩ | ⟨_, failed⟩
    · rw [result] at same
      cases same
      exact spec
    · rw [result] at failed
      cases failed
  cases (osfsExtentAppendBlock_case ready.valid.2 : AppendCase sb f _) with
  | merged _ _ taken _ _ same =>
      rw [result] at same
      cases same
      exact ⟨taken, appended, appendState_blockBitmap⟩
  | started _ taken _ _ same =>
      rw [result] at same
      cases same
      exact ⟨taken, appended, appendState_blockBitmap⟩
  | diskFull _ same =>
      rw [result] at same
      cases same
  | tableFull _ _ _ _ same =>
      rw [result] at same
      cases same

/-- The file belongs to whom it belonged. -/
structure SameOwner (f : Nat) (sb sb' : SbInfo) : Prop where
  uid : (sb'.inodeTable f).iUid = (sb.inodeTable f).iUid
  gid : (sb'.inodeTable f).iGid = (sb.inodeTable f).iGid

theorem SameOwner.of_slot {sb' : SbInfo} (slot : sb'.inodeTable f = sb.inodeTable f) :
    SameOwner f sb sb' where
  uid := by rw [slot]
  gid := by rw [slot]

theorem SameOwner.trans {sb' sb'' : SbInfo} (first : SameOwner f sb sb')
    (second : SameOwner f sb' sb'') : SameOwner f sb sb'' where
  uid := second.uid.trans first.uid
  gid := second.gid.trans first.gid

/-- What appending a block keeps, and every change that adds no block, a write keeps. -/
structure KeptByWrite (f : Nat) (P : SbInfo → Prop) : Prop where
  append : ∀ sb sb' block, Ready sb f → P sb →
    firstClear sb.blockBitmap 0 sb.blockCount = some block → Appended sb sb' f block →
    sb'.blockBitmap = setBit sb.blockBitmap block → P sb'
  same : ∀ sb sb', FileStep f [] sb sb' → SameOwner f sb sb' → P sb → P sb'

variable {P : SbInfo → Prop}

theorem KeptByWrite.writeBlock (kept : KeptByWrite f P) (ready : Ready sb f) (holds : P sb)
    (logical : Nat) :
    P (resultState (writeBlock sb f (osfsGetExtentHeader sb f) logical
      (fileView sb f).blocks)) := by
  unfold Osfs.writeBlock
  split
  · exact holds
  · split
    · exact holds
    · split
      · rename_i e sb' failed
        rcases osfsExtentAppendBlock_cases ready with ⟨_, _, _, _, same, _⟩ | ⟨_, same⟩
        · rw [failed] at same
          cases same
        · rw [failed] at same
          cases same
          exact holds
      · rename_i block sb' appended
        rcases append_takes_first ready appended with ⟨taken, spec, bitmap⟩
        have still := kept.append sb sb' block ready holds taken spec bitmap
        split
        · exact still
        · exact still

theorem KeptByWrite.doWriteLoop (kept : KeptByWrite f P) (ready : Ready sb f) (holds : P sb)
    (buf : UserBuf) (remaining pos done : Nat) :
    P (resultState (doWriteLoop sb f (osfsGetExtentHeader sb f) buf remaining pos done
      (fileView sb f).blocks)) := by
  induction remaining using Nat.strong_induction_on generalizing sb pos done with
  | _ remaining ih =>
      rw [Osfs.doWriteLoop]
      by_cases positive : 0 < remaining
      · rw [dif_pos positive]
        have still := kept.writeBlock ready holds (logicalBlock pos)
        by_cases beyond : (fileView sb f).blocks < logicalBlock pos
        · rw [writeBlock_gap ready beyond]
          exact holds
        · have within : logicalBlock pos ≤ (fileView sb f).blocks := Nat.not_lt.mp beyond
          by_cases available : logicalBlock pos < room sb f
          · have moved : 0 < chunkSize remaining pos := chunkSize_pos positive
            have shorter : chunkSize remaining pos ≤ remaining := chunkSize_le remaining pos
            have inBlock : blockOffset pos < 1024 := Nat.mod_lt pos (by decide)
            have inside : blockOffset pos + chunkSize remaining pos ≤ 1024 := by
              simp only [chunkSize, blockSize]
              omega
            rcases writeBlock_ok ready within available with ⟨sb', found, mapped, progress⟩
            rw [found] at still ⊢
            have inArea := progress.ready.inv.blockMap_lt progress.ready.named
              (getD_mem_blockMap mapped)
            have address : chunkAddr ((blockMap sb' f).getD (logicalBlock pos) 0) pos =
                (blockMap sb' f).getD (logicalBlock pos) 0 * 1024 + blockOffset pos := by
              rw [chunkAddr, blockAddr_of_lt inArea]
            have copied := kept.same _ _ (ready_storeChunk
              (chunkByte buf done (chunkSize remaining pos)) progress.ready mapped inside).2
              (.of_slot (congrFun (storeChunk_inodeTable _) f)) still
            have chunked := storeChunk_progress (chunkByte buf done (chunkSize remaining pos))
              progress.ready mapped inside
            have blocks : (fileView (storeChunk sb' f (logicalBlock pos) (blockOffset pos)
                (chunkSize remaining pos) (chunkByte buf done (chunkSize remaining pos)))
                f).blocks = (fileView sb' f).blocks := by
              have short : blocksTo (logicalBlock pos * 1024 + blockOffset pos)
                  (chunkSize remaining pos) ≤ (fileView sb' f).blocks := by
                change logicalBlock pos < (fileView sb' f).blocks at mapped
                unfold blocksTo
                split <;> omega
              rw [chunked.view_eq]
              exact Nat.max_eq_left short
            have stored : sb'.setData (copyFromUser sb'.dataBlocks
                (chunkAddr ((blockMap sb' f).getD (logicalBlock pos) 0) pos) buf done
                (chunkSize remaining pos)).2 = storeChunk sb' f (logicalBlock pos)
                (blockOffset pos) (chunkSize remaining pos)
                (chunkByte buf done (chunkSize remaining pos)) := by
              rw [address]
              rfl
            simp only [stored]
            split
            · exact copied
            · rw [← progress.hdr_eq, ← chunked.hdr_eq, ← blocks]
              exact ih (remaining - chunkSize remaining pos) (by omega) chunked.ready copied
                (pos + chunkSize remaining pos) (done + chunkSize remaining pos)
          · have full : sb.nrFreeBlocks = 0 := by
              unfold room at available
              omega
            have next : (fileView sb f).blocks = logicalBlock pos := by
              unfold room at available
              omega
            rw [writeBlock_full ready next full]
            exact holds
      · rw [dif_neg positive]
        exact holds

/-- A change that leaves the number of blocks adds none. -/
theorem Progress.same_of_blocks {sb' : SbInfo} {view : FileView}
    (progress : Progress sb sb' f view) (blocks : view.blocks = (fileView sb f).blocks) :
    FileStep f [] sb sb' := by
  rcases progress.step with ⟨new, step⟩
  have none : new = [] := by
    have count := congrArg List.length step.map_eq
    have length : (blockMap sb' f).length = (blockMap sb f).length := by
      change (fileView sb' f).blocks = (fileView sb f).blocks
      rw [progress.view_eq, blocks]
    rw [List.length_append, length] at count
    exact List.length_eq_zero_iff.mp (by omega)
  rw [none] at step
  exact step

theorem sameOwner_growSize (sb : SbInfo) (pos : Nat) : SameOwner f sb (growSize sb f pos) := by
  unfold growSize
  split
  · constructor
    · rw [SbInfo.setInode_self]
    · rw [SbInfo.setInode_self]
  · exact .of_slot rfl

theorem KeptByWrite.osfsWrite (kept : KeptByWrite f P) (inv : Inv sb) (named : f ∈ fileInos sb)
    (holds : P sb) (buf : UserBuf) (len pos : Nat) :
    P (osfsWrite sb (openInode sb f) buf len pos).sb := by
  rw [osfsWrite_eq inv named]
  obtain ⟨sb1, ensured, spec⟩ := osfsExtentEnsureTable_spec inv named
  have first := spec.progress inv named
  have total : osfsExtentTotalBlocks sb1.dataBlocks (osfsGetExtentHeader sb1 f) =
      (fileView sb1 f).blocks := first.ready.total_eq
  have ready := kept.same sb sb1 spec.step (.of_slot (congrFun spec.inodes f)) holds
  have loop := kept.doWriteLoop first.ready ready buf len pos 0
  have outcome := doWriteLoop_outcome first.ready buf len pos 0
  simp only [osfsExtentDoWrite, openInode, ensured, total]
  generalize Osfs.doWriteLoop sb1 f (osfsGetExtentHeader sb1 f) buf len pos 0
    (fileView sb1 f).blocks = r at loop outcome ⊢
  cases outcome with
  | gap => exact loop
  | done _ _ progress =>
      apply kept.same _ _ _ (sameOwner_growSize _ _) loop
      exact (growSize_progress _ progress.ready).same_of_blocks rfl
  | stopped => exact loop

end Write

/-! ## What a read changes -/

theorem osfsExtentDoRead_inodeTable (sb : SbInfo) (inode : Inode) (buf : UserBuf)
    (len pos : Nat) : (osfsExtentDoRead sb inode buf len pos).sb.inodeTable = sb.inodeTable := by
  unfold osfsExtentDoRead
  cases inode.iPrivate with
  | none => rfl
  | some ino =>
      dsimp only
      split
      · rfl
      · split
        · split <;> rfl
        · split
          · rfl
          · split <;> rfl

theorem osfsReadBlock_sb (sb : SbInfo) (inode : Inode) (buf : UserBuf) (len pos : Nat) :
    (osfsReadBlock sb inode buf len pos).sb = sb := by
  unfold osfsReadBlock
  cases inode.iPrivate with
  | none => rfl
  | some ino =>
      dsimp only
      split
      · rfl
      · split
        · rfl
        · split
          · split <;> rfl
          · split <;> rfl

/-- A read writes at most a table block, and no inode. -/
theorem osfsRead_inodeTable (sb : SbInfo) (inode : Inode) (buf : UserBuf) (len pos : Nat) :
    (osfsRead sb inode buf len pos).sb.inodeTable = sb.inodeTable := by
  simp only [osfsRead]
  split
  · split
    · exact osfsExtentDoRead_inodeTable ..
    · rw [osfsReadBlock_sb, osfsExtentDoRead_inodeTable]
  · rw [osfsReadBlock_sb]

/-! ## The layout -/

/-- The numbers in use have no gap, and grow in the directory and in every file. -/
structure Sequential (sb : SbInfo) : Prop where
  inodes : ∃ n, n ≤ inodeCount ∧ FilledFrom 1 n sb.inodeBitmap
  blocks : ∃ b, b ≤ dataBlockCount ∧ FilledFrom 0 b sb.blockBitmap
  inos : (fileInos sb).Pairwise (· < ·)
  files : ∀ f ∈ fileInos sb, (fileBlocks sb f).Pairwise (· < ·)

/-- The blocks are in use from below, and those of the file grow. -/
def BlocksGrow (f : Nat) (sb : SbInfo) : Prop :=
  (∃ b, b ≤ dataBlockCount ∧ FilledFrom 0 b sb.blockBitmap) ∧ (fileBlocks sb f).Pairwise (· < ·)

section Layout

variable {sb sb' : SbInfo} {f : Nat}

/-- A bitmap that is filled up to its first clear bit is still filled when that is
taken. -/
theorem filled_of_first {bits : Bits} {lo n i : Nat}
    (filled : ∃ m, m ≤ n ∧ FilledFrom lo m bits) (found : firstClear bits lo n = some i) :
    ∃ m, m ≤ n ∧ FilledFrom lo m (setBit bits i) := by
  rcases filled with ⟨m, _, filled⟩
  have inside := (firstClear_spec found).2.1
  obtain rfl := filled.eq_of_firstClear found
  exact ⟨i + 1, inside, filled.setBit⟩

theorem blocksGrow_keptByWrite (f : Nat) : KeptByWrite f (BlocksGrow f) where
  append sb sb' block ready grow found appended bitmap := by
    rcases grow with ⟨filled, ascending⟩
    have inv := ready.inv
    have first := found
    rw [inv.blockCount_eq] at first
    constructor
    · rw [bitmap]
      exact filled_of_first filled first
    · rw [appended.step.fileBlocks_eq, List.pairwise_append]
      refine ⟨ascending, List.pairwise_singleton _ _, ?_⟩
      intro old isOld new isNew
      rw [List.mem_singleton.mp isNew]
      rcases filled with ⟨b, _, filled⟩
      have taken := inv.block_taken ready.named isOld
      rw [filled.eq_of_firstClear found]
      exact ((filled.2 old).mp taken).2
  same sb sb' step _ grow := by
    have bitmap : sb'.blockBitmap = sb.blockBitmap := by
      funext block
      rw [Bool.eq_iff_iff, step.bitmap_iff]
      simp
    constructor
    · rw [bitmap]
      exact grow.1
    · rw [step.fileBlocks_eq, List.append_nil]
      exact grow.2

/-- A call on a file keeps the layout when it keeps that of the file. -/
theorem Sequential.of_file (layout : Sequential sb) (inv : Inv sb) (named : f ∈ fileInos sb)
    (effect : FileEffect f sb sb') (grow : BlocksGrow f sb') : Sequential sb' := by
  rcases effect.step with ⟨new, step⟩
  constructor
  · rw [step.inodeBitmap_eq]
    exact layout.inodes
  · exact grow.1
  · rw [effect.fileInos_eq inv named]
    exact layout.inos
  · intro g gNamed
    rw [effect.fileInos_eq inv named] at gNamed
    by_cases same : g = f
    · rw [same]
      exact grow.2
    · rw [step.other_fileBlocks inv named gNamed same]
      exact layout.files g gNamed

theorem Sequential.blocksGrow (layout : Sequential sb) (named : f ∈ fileInos sb) :
    BlocksGrow f sb :=
  ⟨layout.blocks, layout.files f named⟩

/-- The directory's own block is the first of all. -/
theorem Sequential.withRootBlock (layout : Sequential sb) (inv : Inv sb) :
    Sequential (withRootBlock sb) := by
  unfold Osfs.withRootBlock
  split
  · rename_i fresh
    have noFile : fileInos (rootBlockState sb) = [] := by
      rw [fileInos, dirEntries_rootBlockState inv fresh]
      rfl
    have found : firstClear sb.blockBitmap 0 dataBlockCount = some 0 := by
      rw [firstClear_eq_some_iff]
      exact ⟨Nat.le_refl 0, by decide, inv.clear_of_fresh fresh 0 (by decide),
        fun j _ before => absurd before (Nat.not_lt_zero j)⟩
    constructor
    · simpa [rootBlockState] using layout.inodes
    · simpa [rootBlockState] using filled_of_first layout.blocks found
    · rw [noFile]
      exact List.Pairwise.nil
    · simp [noFile]
  · exact layout

/-- A file that is created has the next number, and its table the next block. -/
theorem Sequential.created {dentry : QStr} {mode ino block : Nat} {cred : Cred}
    (layout : Sequential sb) (creates : Creates sb dentry mode ino block)
    (first : TakesFirst sb (createdState sb dentry mode cred ino block)) :
    Sequential (createdState sb dentry mode cred ino block) := by
  have inv := creates.inv
  have firstIno : firstClear sb.inodeBitmap 1 inodeCount = some ino := by
    have taken := first.inode ino
    rw [Creates.inodeBitmap_eq, setBit_self, creates.clear, inv.inodeCount_eq] at taken
    exact (taken rfl).resolve_left (by simp)
  have firstBlock : firstClear sb.blockBitmap 0 dataBlockCount = some block := by
    have taken := first.block block
    rw [Creates.blockBitmap_eq, setBit_self, creates.blockClear, inv.blockCount_eq] at taken
    exact (taken rfl).resolve_left (by simp)
  constructor
  · rw [Creates.inodeBitmap_eq]
    exact filled_of_first layout.inodes firstIno
  · rw [Creates.blockBitmap_eq]
    exact filled_of_first layout.blocks firstBlock
  · rw [creates.fileInos_eq, List.pairwise_append]
    refine ⟨layout.inos, List.pairwise_singleton _ _, ?_⟩
    intro old isOld new isNew
    rw [List.mem_singleton.mp isNew]
    rcases layout.inodes with ⟨n, _, filled⟩
    have taken := (inv.files old isOld).taken
    rw [filled.eq_of_firstClear firstIno]
    exact ((filled.2 old).mp taken).2
  · intro g named
    rw [creates.fileInos_eq, List.mem_append] at named
    rcases named with old | new
    · rw [creates.old_fileBlocks old]
      exact layout.files g old
    · rw [List.mem_singleton.mp new, creates.new_fileBlocks]
      exact List.pairwise_singleton _ _

theorem Sequential.of_sameFiles (layout : Sequential sb) (same : SameFiles sb sb')
    (inodes : ∃ n, n ≤ inodeCount ∧ FilledFrom 1 n sb'.inodeBitmap) : Sequential sb' where
  inodes := inodes
  blocks := by
    rw [same.blockBitmap_eq]
    exact layout.blocks
  inos := by
    rw [same.fileInos_eq]
    exact layout.inos
  files f named := by
    rw [same.fileInos_eq] at named
    rw [fileBlocks, same.files_eq f named, same.blockMap_eq named]
    exact layout.files f named

theorem osfsCreate_eq (inv : Inv sb) (dentry : QStr) (mode : Nat) (cred : Cred)
    (newInode : Bool) :
    osfsCreate sb rootDir dentry mode cred newInode =
      if dentry.len ≥ maxFilenameLen then .error .ENAMETOOLONG sb
      else osfsCreateIn (Osfs.withRootBlock sb) rootInode dentry mode cred newInode := by
  simp only [Osfs.osfsCreate, rootDir]
  by_cases fresh : (sb.inodeTable rootInode).iBlocks = 0
  · rw [if_pos fresh, inv.alloc_of_fresh fresh, Osfs.withRootBlock, if_pos fresh]
    rfl
  · rw [if_neg fresh, Osfs.withRootBlock, if_neg fresh]

theorem Sequential.osfsCreateIn {mode : Nat} (layout : Sequential sb) (inv : Inv sb)
    (allocated : (sb.inodeTable rootInode).iBlocks ≠ 0) (dentry : QStr)
    (short : dentry.len < maxFilenameLen) (regular : sIsreg mode = true) (cred : Cred)
    (newInode : Bool) :
    Sequential (resultState (osfsCreateIn sb rootInode dentry mode cred newInode)) := by
  have first := osfsCreateIn_takesFirst sb rootInode dentry mode cred newInode
  have result := osfsCreateIn_result inv dentry regular cred newInode
  generalize Osfs.osfsCreateIn sb rootInode dentry mode cred newInode = r at first result ⊢
  cases result with
  | refused _ => exact layout
  | @lost ino low high clear _ _ =>
      apply layout.of_sameFiles (sameFiles_takenState sb ino)
      have taken := first.inode ino
      rw [resultState_error, takenState, SbInfo.setInodeMap_inodeBitmap, setBit_self, clear,
        inv.inodeCount_eq] at taken
      rw [takenState, SbInfo.setInodeMap_inodeBitmap]
      exact filled_of_first layout.inodes ((taken rfl).resolve_left (by simp))
  | @rolledBack _ ino slot clear _ _ =>
      apply layout.of_sameFiles (sameFiles_setInode inv slot clear)
      exact layout.inodes
  | @created ino block low high clear inArea blockClear notFull fresh =>
      have creates : Creates sb dentry mode ino block :=
        ⟨inv, allocated, regular, short, low, high, clear, inArea, blockClear, notFull, fresh⟩
      exact layout.created creates first

theorem Sequential.osfsCreate {mode : Nat} (layout : Sequential sb) (inv : Inv sb) (dentry : QStr)
    (regular : sIsreg mode = true) (cred : Cred) (newInode : Bool) :
    Sequential (resultState (osfsCreate sb rootDir dentry mode cred newInode)) := by
  rw [osfsCreate_eq inv]
  split
  · exact layout
  · rename_i notLong
    have enters := entersDir_withRootBlock inv
    exact (layout.withRootBlock inv).osfsCreateIn enters.inv enters.allocated dentry
      (Nat.not_le.mp notLong) regular cred newInode

theorem sequential_mountedSbInfo : Sequential mountedSbInfo := by
  have noFile : fileInos mountedSbInfo = [] := by
    rw [fileInos, dirEntries_mountedSbInfo]
    rfl
  have inodeBits : mountedSbInfo.inodeBitmap = setBit (fun _ => false) rootInode := by
    simp [mountedSbInfo, clearedSbInfo]
  have blockBits : mountedSbInfo.blockBitmap = fun _ => false := by
    simp [mountedSbInfo, clearedSbInfo]
  constructor
  · refine ⟨2, by decide, by decide, ?_⟩
    intro i
    rw [inodeBits, setBit_eq_true_iff]
    simp only [rootInode, Bool.false_eq_true, or_false]
    omega
  · refine ⟨0, by decide, Nat.le_refl 0, ?_⟩
    intro i
    rw [blockBits]
    simp
  · rw [noFile]
    exact List.Pairwise.nil
  · simp [noFile]

/-- Every call keeps the layout. -/
theorem sequential_step {event : Event} (inv : Inv sb) (layout : Sequential sb)
    (step : Step sb event sb') : Sequential sb' := by
  cases step with
  | create dentry mode cred newInode regular =>
      exact layout.osfsCreate inv dentry regular cred newInode
  | lookup => exact layout
  | read ino buf len pos named _ =>
      have result := osfsRead_result inv named buf len pos
      have owner : SameOwner ino sb (osfsRead sb (openInode sb ino) buf len pos).sb :=
        .of_slot (congrFun (osfsRead_inodeTable ..) ino)
      exact layout.of_file inv named result.effect
        ((blocksGrow_keptByWrite ino).same _ _ result.step owner (layout.blocksGrow named))
  | write ino buf len pos named _ =>
      have effect := (osfsWrite_result inv named buf len pos).effect
      exact layout.of_file inv named effect
        ((blocksGrow_keptByWrite ino).osfsWrite inv named (layout.blocksGrow named) buf len pos)

theorem sequential_of_reachable (reachable : OsfsReachable sb) : Sequential sb := by
  have both : Inv sb ∧ Sequential sb := by
    apply reachable.invariant (P := fun sb => Inv sb ∧ Sequential sb)
    · intro state mounted
      rw [osfsSystem_init_iff.mp mounted]
      exact ⟨inv_mountedSbInfo, sequential_mountedSbInfo⟩
    · rintro state event next ⟨inv, layout⟩ step
      exact ⟨inv_step inv step, sequential_step inv layout step⟩
  exact both.2

/-- Where the numbers in use end, from the counters of free ones. -/
theorem Sequential.filled (layout : Sequential sb) (inv : Inv sb) :
    FilledFrom 1 (inodeCount + 1 - sb.nrFreeInodes) sb.inodeBitmap ∧
      FilledFrom 0 (dataBlockCount - sb.nrFreeBlocks) sb.blockBitmap := by
  rcases layout.inodes with ⟨n, nInside, inodes⟩
  rcases layout.blocks with ⟨b, bInside, blocks⟩
  have inodeEnd : inodeCount + 1 - sb.nrFreeInodes = n := by
    have count := inodes.countClear_eq nInside
    rw [inv.freeInodes]
    omega
  have blockEnd : dataBlockCount - sb.nrFreeBlocks = b := by
    have count := blocks.countClear_eq bInside
    rw [inv.freeBlocks]
    omega
  rw [inodeEnd, blockEnd]
  exact ⟨inodes, blocks⟩

/-- In every reachable state the counters of free numbers say which numbers are in use:
the inode numbers from the root's on and the blocks from 0 on, without a gap.  The
directory names its files in the order of their numbers, and the blocks of a file, its
extent table and then its data in the order of the offsets, have growing numbers. -/
theorem numbers_without_gap (reachable : OsfsReachable sb) :
    (∀ ino, sb.inodeBitmap ino = true ↔
        rootInode ≤ ino ∧ ino < inodeCount + 1 - sb.nrFreeInodes) ∧
      (∀ block, sb.blockBitmap block = true ↔ block < dataBlockCount - sb.nrFreeBlocks) ∧
      (fileInos sb).Pairwise (· < ·) ∧
      ∀ f ∈ fileInos sb, (fileBlocks sb f).Pairwise (· < ·) := by
  have layout := sequential_of_reachable reachable
  rcases layout.filled (inv_of_reachable reachable) with ⟨inodes, blocks⟩
  refine ⟨inodes.2, ?_, layout.inos, layout.files⟩
  intro block
  rw [blocks.2]
  simp

theorem numbers_without_gap_oneFile : oneFile.blockBitmap = fun block => decide (block < 2) := by
  have free : dataBlockCount - oneFile.nrFreeBlocks = 2 := by decide +kernel
  have blocks := (numbers_without_gap oneFile_reachable).2.1
  rw [free] at blocks
  funext block
  rw [Bool.eq_iff_iff, decide_eq_true_iff]
  exact blocks block

end Layout

end NckuOs.Osfs
