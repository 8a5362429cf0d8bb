import NckuOs.Osfs.Table

/-!
# The inner steps of reading and writing a file

A file is `Ready` once `osfs_extent_ensure_table` has passed: the invariant
holds, the directory names the file and its header is valid.  Looking up,
appending a block, copying into a mapped block and setting the size keep a file
ready; each comes with its effect on the block map and on the bytes of the file.
-/

set_option maxRecDepth 4000

namespace NckuOs.Osfs

open NckuOs.Bitmap
open NckuOs.ByteMemory
open NckuOs.RunLength

structure Ready (sb : SbInfo) (f : Nat) : Prop where
  inv : Inv sb
  named : f ∈ fileInos sb
  valid : HeaderValid sb f

theorem Inv.fileOk {sb : SbInfo} (inv : Inv sb) {f : Nat} (named : f ∈ fileInos sb) :
    FileOk sb f :=
  inv.files f named

theorem Inv.hdr_eq {sb : SbInfo} (inv : Inv sb) {f : Nat} (named : f ∈ fileInos sb) :
    osfsGetExtentHeader sb f = (sb.inodeTable f).iBlock * 1024 :=
  blockAddr_of_lt (inv.table_lt named)

/-- A file has fewer data blocks than there are blocks. -/
theorem Inv.length_blockMap_lt {sb : SbInfo} (inv : Inv sb) {f : Nat}
    (named : f ∈ fileInos sb) : (blockMap sb f).length < dataBlockCount := by
  have subset : fileBlocks sb f ⊆ List.range dataBlockCount := by
    intro block isMem
    exact List.mem_range.mpr (inv.block_lt named isMem)
  have bound := (List.subperm_of_subset (inv.fileBlocks_nodup named) subset).length_le
  rw [List.length_range, fileBlocks, List.length_cons] at bound
  exact bound

theorem Inv.blockMap_lt {sb : SbInfo} (inv : Inv sb) {f block : Nat}
    (named : f ∈ fileInos sb) (isMem : block ∈ blockMap sb f) : block < dataBlockCount :=
  inv.block_lt named (List.mem_cons_of_mem _ isMem)

/-- The data blocks of a file are not its table block. -/
theorem Inv.blockMap_ne_table {sb : SbInfo} (inv : Inv sb) {f block : Nat}
    (named : f ∈ fileInos sb) (isMem : block ∈ blockMap sb f) :
    block ≠ (sb.inodeTable f).iBlock := by
  have nodup := inv.fileBlocks_nodup named
  rw [fileBlocks, List.nodup_cons] at nodup
  rintro rfl
  exact nodup.1 isMem

/-- No extent of a file leaves the data area. -/
theorem Inv.extent_end_le {sb : SbInfo} (inv : Inv sb) {f : Nat} (named : f ∈ fileInos sb)
    {extent : Run} (isMem : extent ∈ extents sb f) :
    extent.start + extent.len ≤ dataBlockCount := by
  have positive := (inv.fileOk named).nonempty extent isMem
  have lastMem : extent.start + extent.len - 1 ∈ blockMap sb f :=
    mem_expand_iff.mpr ⟨extent, isMem, by omega, by omega⟩
  have lastLt := inv.blockMap_lt named lastMem
  omega

namespace Ready

variable {sb : SbInfo} {f : Nat}

theorem hdr_eq (ready : Ready sb f) :
    osfsGetExtentHeader sb f = (sb.inodeTable f).iBlock * 1024 :=
  ready.inv.hdr_eq ready.named

theorem ok (ready : Ready sb f) : FileOk sb f :=
  ready.inv.fileOk ready.named

theorem hdrCount_lt (ready : Ready sb f) :
    hdrCount sb.dataBlocks (osfsGetExtentHeader sb f) < dataBlockCount := by
  rw [← length_extents_of_headerValid ready.valid]
  exact Nat.lt_of_le_of_lt (length_le_length_expand ready.ok.nonempty)
    (ready.inv.length_blockMap_lt ready.named)

/-! ## Lookup and total -/

/-- `osfs_extent_lookup_block` indexes the block map. -/
theorem lookup_eq (ready : Ready sb f) (idx : Nat) :
    osfsExtentLookupBlock sb.dataBlocks (osfsGetExtentHeader sb f) idx =
      match (blockMap sb f)[idx]? with
      | some block => .ok block
      | none => .error .ENOENT := by
  have magic := ready.valid.1
  have bounded := Nat.not_lt.mpr ready.valid.2
  have small : ∀ extent ∈ extents sb f, extent.start + extent.len ≤ 2 ^ 32 := by
    intro extent isMem
    exact Nat.le_trans (ready.inv.extent_end_le ready.named isMem) (by decide)
  simp only [osfsExtentLookupBlock, magic, ne_eq, not_true_eq_false, if_false, gt_iff_lt, bounded]
  rw [← extents_of_headerValid ready.valid, lookupBlockLoop_eq small]
  rfl

theorem lookup_of_lt (ready : Ready sb f) {idx : Nat} (below : idx < (blockMap sb f).length) :
    osfsExtentLookupBlock sb.dataBlocks (osfsGetExtentHeader sb f) idx =
      .ok ((blockMap sb f).getD idx 0) := by
  simp [ready.lookup_eq, List.getElem?_eq_getElem below, List.getD_eq_getElem?_getD]

theorem lookup_of_ge (ready : Ready sb f) {idx : Nat} (above : (blockMap sb f).length ≤ idx) :
    osfsExtentLookupBlock sb.dataBlocks (osfsGetExtentHeader sb f) idx = .error .ENOENT := by
  simp [ready.lookup_eq, List.getElem?_eq_none above]

/-- `osfs_extent_total_blocks` is the length of the block map. -/
theorem total_eq (ready : Ready sb f) :
    osfsExtentTotalBlocks sb.dataBlocks (osfsGetExtentHeader sb f) = (blockMap sb f).length := by
  have magic := ready.valid.1
  have bounded := Nat.not_lt.mpr ready.valid.2
  have short := ready.inv.length_blockMap_lt ready.named
  have small : 0 + ((extents sb f).map Run.len).sum < 2 ^ 32 := by
    rw [Nat.zero_add, ← length_expand]
    exact Nat.lt_trans short (by decide)
  simp only [osfsExtentTotalBlocks, magic, ne_eq, not_true_eq_false, if_false, gt_iff_lt, bounded]
  rw [← extents_of_headerValid ready.valid, foldl_total_eq _ _ (by decide), u32_of_lt small,
    Nat.zero_add, blockMap, length_expand]

end Ready

/-! ## Building file steps -/

/-- A step that leaves the inode table's other slots, the bitmaps and the
counters alone and does not change this file's extents. -/
theorem FileStep.of_same_map {f : Nat} {sb sb' : SbInfo}
    (inodeCount_eq : sb'.inodeCount = sb.inodeCount)
    (blockCount_eq : sb'.blockCount = sb.blockCount)
    (inodeBitmap_eq : sb'.inodeBitmap = sb.inodeBitmap)
    (blockBitmap_eq : sb'.blockBitmap = sb.blockBitmap)
    (nrFreeInodes_eq : sb'.nrFreeInodes = sb.nrFreeInodes)
    (others : ∀ g, g ≠ f → sb'.inodeTable g = sb.inodeTable g)
    (iBlock_eq : (sb'.inodeTable f).iBlock = (sb.inodeTable f).iBlock)
    (iMode_eq : (sb'.inodeTable f).iMode = (sb.inodeTable f).iMode)
    (extents_eq : extents sb' f = extents sb f)
    (data : ∀ block, block ∉ fileBlocks sb' f → SameBlock sb.dataBlocks sb'.dataBlocks block) :
    FileStep f [] sb sb' where
  inodeCount_eq := inodeCount_eq
  blockCount_eq := blockCount_eq
  inodeBitmap_eq := inodeBitmap_eq
  nrFreeInodes_eq := nrFreeInodes_eq
  others := others
  iBlock_eq := iBlock_eq
  iMode_eq := iMode_eq
  map_eq := by simp [blockMap, extents_eq]
  newNodup := List.nodup_nil
  newFree := by simp
  bitmap_iff := by simp [blockBitmap_eq]
  data := data

/-- A ready file is still ready, and in order, after a step that sets its slot
to a value with the right block count. -/
theorem Ready.of_step {f : Nat} {new : List Nat} {sb sb' : SbInfo} (ready : Ready sb f)
    (step : FileStep f new sb sb') (valid : HeaderValid sb' f)
    (nonempty : ∀ extent ∈ extents sb' f, 0 < extent.len)
    (blocks : (sb'.inodeTable f).iBlocks = (sb.inodeTable f).iBlocks + new.length)
    (size : (sb'.inodeTable f).iSize < 2 ^ 32)
    (count : sb'.nrFreeBlocks = countClear sb'.blockBitmap dataBlockCount) : Ready sb' f where
  inv := by
    have ok := ready.ok
    refine step.inv ready.inv ready.named ?_ count
    exact
      { low := ok.low
        high := ok.high
        taken := by rw [step.inodeBitmap_eq]; exact ok.taken
        regular := by rw [step.iMode_eq]; exact ok.regular
        blocks := by rw [blocks, ok.blocks, step.map_eq, List.length_append, Nat.add_assoc]
        size := size
        nonempty := nonempty
        table := .inl valid }
  named := by
    rw [step.fileInos_eq ready.inv ready.named]
    exact ready.named
  valid := valid

/-! ## `osfs_extent_ensure_table` -/

/-- What `osfs_extent_ensure_table` does to a named file. -/
structure Ensured (sb sb' : SbInfo) (f : Nat) : Prop where
  ready : Ready sb' f
  step : FileStep f [] sb sb'
  inodes : sb'.inodeTable = sb.inodeTable
  blocks : sb'.blockBitmap = sb.blockBitmap
  free : sb'.nrFreeBlocks = sb.nrFreeBlocks
  data : ∀ block, block ≠ (sb.inodeTable f).iBlock →
    SameBlock sb.dataBlocks sb'.dataBlocks block
  unchanged : HeaderValid sb f → sb' = sb

theorem Ensured.of_valid {sb : SbInfo} {f : Nat} (ready : Ready sb f) : Ensured sb sb f where
  ready := ready
  step := FileStep.of_same_map rfl rfl rfl rfl rfl (fun _ _ => rfl) rfl rfl rfl
    fun block _ => SameBlock.refl _ block
  inodes := rfl
  blocks := rfl
  free := rfl
  data block _ := SameBlock.refl _ block
  unchanged _ := rfl

/-- Resetting an untouched table block makes it an empty table. -/
theorem Ensured.of_fresh {sb : SbInfo} {f : Nat} (inv : Inv sb) (named : f ∈ fileInos sb)
    (zero : BlockZero sb.dataBlocks (sb.inodeTable f).iBlock)
    (invalid : ¬HeaderValid sb f) :
    Ensured sb
      (sb.setData (osfsExtentResetHeader sb.dataBlocks (osfsGetExtentHeader sb f))) f := by
  have ok := inv.fileOk named
  have hdrEq := inv.hdr_eq named
  have data : ∀ block, block ≠ (sb.inodeTable f).iBlock → SameBlock sb.dataBlocks
      (osfsExtentResetHeader sb.dataBlocks (osfsGetExtentHeader sb f)) block := by
    intro block ne
    rw [hdrEq]
    exact sameBlock_reset ne
  have valid : HeaderValid
      (sb.setData (osfsExtentResetHeader sb.dataBlocks (osfsGetExtentHeader sb f))) f := by
    constructor
    · exact hdrMagic_reset sb.dataBlocks (osfsGetExtentHeader sb f)
    · change hdrCount (osfsExtentResetHeader sb.dataBlocks (osfsGetExtentHeader sb f))
        (osfsGetExtentHeader sb f) ≤ osfsMaxExtents
      rw [hdrCount_reset]
      exact Nat.zero_le _
  have empty : extents
      (sb.setData (osfsExtentResetHeader sb.dataBlocks (osfsGetExtentHeader sb f))) f = [] := by
    apply List.eq_nil_of_length_eq_zero
    rw [length_extents_of_headerValid valid]
    exact hdrCount_reset sb.dataBlocks (osfsGetExtentHeader sb f)
  have wasEmpty : extents sb f = [] := extents_of_zero (inv.table_lt named) zero
  have step : FileStep f [] sb
      (sb.setData (osfsExtentResetHeader sb.dataBlocks (osfsGetExtentHeader sb f))) := by
    refine FileStep.of_same_map rfl rfl rfl rfl rfl (fun _ _ => rfl) rfl rfl
      (empty.trans wasEmpty.symm) ?_
    intro block outside
    apply data
    rintro rfl
    exact outside (table_mem_fileBlocks _ f)
  exact
    { ready :=
        { inv := by
            refine step.inv inv named ?_ inv.freeBlocks
            exact
              { low := ok.low
                high := ok.high
                taken := ok.taken
                regular := ok.regular
                blocks := by rw [step.map_eq, List.append_nil]; exact ok.blocks
                size := ok.size
                nonempty := by simp [empty]
                table := .inl valid }
          named := by rw [step.fileInos_eq inv named]; exact named
          valid := valid }
      step := step
      inodes := rfl
      blocks := rfl
      free := rfl
      data := data
      unchanged := fun holds => absurd holds invalid }

/-- On a named file `osfs_extent_ensure_table` succeeds and only ever resets a
table block that nobody has used. -/
theorem osfsExtentEnsureTable_spec {sb : SbInfo} {f : Nat} (inv : Inv sb)
    (named : f ∈ fileInos sb) :
    ∃ sb', osfsExtentEnsureTable sb f = .ok (osfsGetExtentHeader sb' f) sb' ∧ Ensured sb sb' f := by
  have ok := inv.fileOk named
  have present : ¬((sb.inodeTable f).iBlocks = 0 ∨ (sb.inodeTable f).iBlock = 0) := by
    rintro (none | zero)
    · rw [ok.blocks] at none
      omega
    · exact inv.table_ne_zero named zero
  by_cases valid : HeaderValid sb f
  · refine ⟨sb, ?_, Ensured.of_valid ⟨inv, named, valid⟩⟩
    have keep : ¬(hdrMagic sb.dataBlocks (osfsGetExtentHeader sb f) ≠ osfsExtentMagic ∨
        hdrCount sb.dataBlocks (osfsGetExtentHeader sb f) > osfsMaxExtents) := by
      rintro (magic | count)
      · exact magic valid.1
      · exact Nat.not_lt.mpr valid.2 count
    simp only [osfsExtentEnsureTable, present, if_false, resetUnlessTable, keep]
  · rcases ok.table with holds | ⟨zero, _⟩
    · exact absurd holds valid
    · refine ⟨_, ?_, Ensured.of_fresh inv named zero valid⟩
      have reset : hdrMagic sb.dataBlocks (osfsGetExtentHeader sb f) ≠ osfsExtentMagic ∨
          hdrCount sb.dataBlocks (osfsGetExtentHeader sb f) > osfsMaxExtents := by
        by_contra keep
        push Not at keep
        exact valid keep
      simp only [osfsExtentEnsureTable, present, if_false, resetUnlessTable, reset, if_true]
      rfl

/-! ## `osfs_extent_append_block` -/

/-- What a successful `osfs_extent_append_block` does to a ready file. -/
structure Appended (sb sb' : SbInfo) (f block : Nat) : Prop where
  ready : Ready sb' f
  step : FileStep f [block] sb sb'
  slot : sb'.inodeTable f =
    { sb.inodeTable f with iBlocks := (sb.inodeTable f).iBlocks + 1 }
  free : sb'.nrFreeBlocks + 1 = sb.nrFreeBlocks
  data : ∀ other, other ≠ (sb.inodeTable f).iBlock →
    SameBlock sb.dataBlocks sb'.dataBlocks other

/-- The state after the block is taken, the table rewritten to `mem` and the
count in the inode raised. -/
def appendState (sb : SbInfo) (f block : Nat) (mem : Mem) : SbInfo :=
  bumpBlocks
    ((sb.setBlockMap (setBit sb.blockBitmap block) (u32Dec sb.nrFreeBlocks)).setData mem) f

section AppendState

variable {sb : SbInfo} {f block : Nat} {mem : Mem}

theorem appendState_dataBlocks : (appendState sb f block mem).dataBlocks = mem := by
  simp [appendState, bumpBlocks]

theorem appendState_blockBitmap :
    (appendState sb f block mem).blockBitmap = setBit sb.blockBitmap block := by
  simp [appendState, bumpBlocks]

theorem appendState_nrFreeBlocks :
    (appendState sb f block mem).nrFreeBlocks = u32Dec sb.nrFreeBlocks := by
  simp [appendState, bumpBlocks]

theorem appendState_of_ne {g : Nat} (ne : g ≠ f) :
    (appendState sb f block mem).inodeTable g = sb.inodeTable g := by
  rw [appendState, bumpBlocks, SbInfo.setInode_of_ne ne, SbInfo.setData_inodeTable,
    SbInfo.setBlockMap_inodeTable]

theorem appendState_slot (ready : Ready sb f) :
    (appendState sb f block mem).inodeTable f =
      { sb.inodeTable f with iBlocks := (sb.inodeTable f).iBlocks + 1 } := by
  have fewBlocks := ready.inv.length_blockMap_lt ready.named
  unfold dataBlockCount at fewBlocks
  have blocksInc : u32Inc (sb.inodeTable f).iBlocks = (sb.inodeTable f).iBlocks + 1 := by
    apply u32_of_lt
    rw [ready.ok.blocks]
    omega
  simp [appendState, bumpBlocks, blocksInc]

theorem appendState_hdr (ready : Ready sb f) :
    osfsGetExtentHeader (appendState sb f block mem) f = osfsGetExtentHeader sb f := by
  simp [osfsGetExtentHeader, appendState_slot ready]

/-- Taking a clear block lowers the free counter by one. -/
theorem u32Dec_nrFreeBlocks (inv : Inv sb) (inArea : block < dataBlockCount)
    (clear : sb.blockBitmap block = false) :
    u32Dec sb.nrFreeBlocks + 1 = sb.nrFreeBlocks ∧
      u32Dec sb.nrFreeBlocks = countClear (setBit sb.blockBitmap block) dataBlockCount := by
  rw [inv.freeBlocks]
  exact u32Dec_countClear inArea (by decide) clear

end AppendState

/-- Any rewriting of the table block that pushes the new block is an append. -/
theorem Appended.of_push {sb : SbInfo} {f block : Nat} {mem : Mem} (ready : Ready sb f)
    (inArea : block < dataBlockCount) (clear : sb.blockBitmap block = false)
    (data : ∀ other, other ≠ (sb.inodeTable f).iBlock → SameBlock sb.dataBlocks mem other)
    (magic : hdrMagic mem (osfsGetExtentHeader sb f) = osfsExtentMagic)
    (count : hdrCount mem (osfsGetExtentHeader sb f) ≤ osfsMaxExtents)
    (pushed : loadExtents mem (osfsGetExtentHeader sb f)
        (hdrCount mem (osfsGetExtentHeader sb f)) = push (extents sb f) block) :
    Appended sb (appendState sb f block mem) f block := by
  have ok := ready.ok
  have slot : (appendState sb f block mem).inodeTable f =
      { sb.inodeTable f with iBlocks := (sb.inodeTable f).iBlocks + 1 } :=
    appendState_slot ready
  obtain ⟨free, countEq⟩ := u32Dec_nrFreeBlocks ready.inv inArea clear
  have valid : HeaderValid (appendState sb f block mem) f := by
    rw [HeaderValid, appendState_hdr ready, appendState_dataBlocks]
    exact ⟨magic, count⟩
  have extentsEq : extents (appendState sb f block mem) f = push (extents sb f) block := by
    rw [extents_of_headerValid valid, appendState_hdr ready, appendState_dataBlocks]
    exact pushed
  have mapEq : blockMap (appendState sb f block mem) f = blockMap sb f ++ [block] := by
    rw [blockMap, extentsEq, expand_push, ← blockMap]
  have step : FileStep f [block] sb (appendState sb f block mem) :=
    { inodeCount_eq := by simp [appendState, bumpBlocks]
      blockCount_eq := by simp [appendState, bumpBlocks]
      inodeBitmap_eq := by simp [appendState, bumpBlocks]
      nrFreeInodes_eq := by simp [appendState, bumpBlocks]
      others := fun g ne => appendState_of_ne ne
      iBlock_eq := by rw [slot]
      iMode_eq := by rw [slot]
      map_eq := mapEq
      newNodup := List.nodup_singleton block
      newFree := by
        intro other isMem
        rw [List.mem_singleton.mp isMem]
        exact ⟨inArea, clear⟩
      bitmap_iff := by
        intro other
        rw [List.mem_singleton, appendState_blockBitmap]
        exact setBit_eq_true_iff
      data := by
        intro other outside
        rw [appendState_dataBlocks]
        apply data
        intro isTable
        apply outside
        rw [fileBlocks, slot, isTable]
        exact List.mem_cons_self }
  have nonempty : ∀ extent ∈ extents (appendState sb f block mem) f, 0 < extent.len := by
    rw [extentsEq]
    exact push_nonempty ok.nonempty
  refine ⟨ready.of_step step valid nonempty ?_ ?_ ?_, step, slot, ?_, ?_⟩
  · rw [slot, List.length_singleton]
  · rw [slot]
    exact ok.size
  · rw [appendState_nrFreeBlocks, appendState_blockBitmap]
    exact countEq
  · rw [appendState_nrFreeBlocks]
    exact free
  · rw [appendState_dataBlocks]
    exact data

/-- The merge branch of the append: the last extent ends where the block starts. -/
theorem Appended.of_merge {sb : SbInfo} {f block last : Nat} (ready : Ready sb f)
    (inArea : block < dataBlockCount) (clear : sb.blockBitmap block = false)
    (count : hdrCount sb.dataBlocks (osfsGetExtentHeader sb f) = last + 1)
    (ends : (extentAt sb.dataBlocks (osfsGetExtentHeader sb f) last).start +
      (extentAt sb.dataBlocks (osfsGetExtentHeader sb f) last).len = block) :
    Appended sb
      (appendState sb f block
        (store32 sb.dataBlocks (extentAddr (osfsGetExtentHeader sb f) last + 4)
          ((extentAt sb.dataBlocks (osfsGetExtentHeader sb f) last).len + 1))) f block := by
  have few := ready.hdrCount_lt
  have hdrEq := ready.hdr_eq
  have addr := extentAddr_eq (osfsGetExtentHeader sb f) last
  have extentsEq : extents sb f =
      loadExtents sb.dataBlocks (osfsGetExtentHeader sb f) last ++
        [extentAt sb.dataBlocks (osfsGetExtentHeader sb f) last] := by
    rw [extents_of_headerValid ready.valid, count, loadExtents_succ]
  unfold dataBlockCount at few inArea
  have countSame : hdrCount (store32 sb.dataBlocks (extentAddr (osfsGetExtentHeader sb f) last + 4)
      ((extentAt sb.dataBlocks (osfsGetExtentHeader sb f) last).len + 1))
      (osfsGetExtentHeader sb f) = last + 1 := by
    rw [← count]
    exact load32_store32_of_disjoint (.inl (by omega))
  apply Appended.of_push ready inArea clear
  · intro other ne
    refine SameBlock.store (12 + 8 * last) ?_ (by omega) ne
    rw [addr, hdrEq]
    omega
  · rw [← ready.valid.1]
    exact load32_store32_of_disjoint (.inl (by omega))
  · rw [countSame, osfsMaxExtents_eq]
    omega
  · rw [countSame, loadExtents_grow (by omega), extentsEq, push_concat, if_pos ends]

/-- The other branch: the block starts an extent of its own. -/
theorem Appended.of_start {sb : SbInfo} {f block : Nat} (ready : Ready sb f)
    (inArea : block < dataBlockCount) (clear : sb.blockBitmap block = false)
    (apart : ∀ last, hdrCount sb.dataBlocks (osfsGetExtentHeader sb f) = last + 1 →
      (extentAt sb.dataBlocks (osfsGetExtentHeader sb f) last).start +
        (extentAt sb.dataBlocks (osfsGetExtentHeader sb f) last).len ≠ block) :
    Appended sb
      (appendState sb f block
        (startExtent sb.dataBlocks (osfsGetExtentHeader sb f)
          (hdrCount sb.dataBlocks (osfsGetExtentHeader sb f)) block)) f block := by
  have few := ready.hdrCount_lt
  have small : block < 2 ^ 32 := Nat.lt_trans inArea (by decide)
  unfold dataBlockCount at few
  have countInc : u32Inc (hdrCount sb.dataBlocks (osfsGetExtentHeader sb f)) =
      hdrCount sb.dataBlocks (osfsGetExtentHeader sb f) + 1 := u32_of_lt (by omega)
  apply Appended.of_push ready inArea clear
  · intro other ne
    rw [ready.hdr_eq]
    apply sameBlock_startExtent _ ne
    rw [← ready.hdr_eq, osfsMaxExtents_eq]
    omega
  · rw [hdrMagic_startExtent]
    exact ready.valid.1
  · rw [hdrCount_startExtent, countInc, osfsMaxExtents_eq]
    omega
  · rw [hdrCount_startExtent, countInc, loadExtents_startExtent small,
      extents_of_headerValid ready.valid]
    cases countEq : hdrCount sb.dataBlocks (osfsGetExtentHeader sb f) with
    | zero => rfl
    | succ last =>
        rw [loadExtents_succ, push_concat, if_neg (apart last countEq), List.append_assoc]
        rfl

/-- What `osfs_extent_append_block` can do with the table at `hdr`. -/
inductive AppendCase (sb : SbInfo) (ino hdr : Nat) : Prop
  /-- The last extent ends in front of the block and is lengthened. -/
  | merged (block last : Nat) (taken : firstClear sb.blockBitmap 0 sb.blockCount = some block)
      (count : hdrCount sb.dataBlocks hdr = last + 1)
      (ends : u32 ((extentAt sb.dataBlocks hdr last).start +
        (extentAt sb.dataBlocks hdr last).len) = block)
      (result : osfsExtentAppendBlock sb ino hdr = .ok block (appendState sb ino block
        (store32 sb.dataBlocks (extentAddr hdr last + 4)
          (u32Inc (extentAt sb.dataBlocks hdr last).len))))
  /-- The block starts an extent of its own. -/
  | started (block : Nat) (taken : firstClear sb.blockBitmap 0 sb.blockCount = some block)
      (room : hdrCount sb.dataBlocks hdr < osfsMaxExtents)
      (apart : ∀ last, hdrCount sb.dataBlocks hdr = last + 1 →
        u32 ((extentAt sb.dataBlocks hdr last).start +
          (extentAt sb.dataBlocks hdr last).len) ≠ block)
      (result : osfsExtentAppendBlock sb ino hdr = .ok block (appendState sb ino block
        (startExtent sb.dataBlocks hdr (hdrCount sb.dataBlocks hdr) block)))
  | diskFull (full : ∀ block < sb.blockCount, sb.blockBitmap block = true)
      (result : osfsExtentAppendBlock sb ino hdr = .error .ENOSPC sb)
  /-- The block would start an extent, but the table is full: it is given back. -/
  | tableFull (block : Nat) (taken : firstClear sb.blockBitmap 0 sb.blockCount = some block)
      (full : hdrCount sb.dataBlocks hdr ≥ osfsMaxExtents)
      (apart : ∀ last, hdrCount sb.dataBlocks hdr = last + 1 →
        u32 ((extentAt sb.dataBlocks hdr last).start +
          (extentAt sb.dataBlocks hdr last).len) ≠ block)
      (result : osfsExtentAppendBlock sb ino hdr = .error .ENOSPC
        (osfsFreeDataBlock (sb.setBlockMap (setBit sb.blockBitmap block)
          (u32Dec sb.nrFreeBlocks)) block))

/-- These are all the cases, in any state and for any table. -/
theorem osfsExtentAppendBlock_case {sb : SbInfo} {ino hdr : Nat}
    (bounded : hdrCount sb.dataBlocks hdr ≤ osfsMaxExtents) : AppendCase sb ino hdr := by
  have notMore : ¬hdrCount sb.dataBlocks hdr > osfsMaxExtents := Nat.not_lt.mpr bounded
  rcases osfsAllocDataBlock_cases sb with ⟨block, taken, allocated⟩ | ⟨full, failed⟩
  · by_cases merges : ∃ last, hdrCount sb.dataBlocks hdr = last + 1 ∧
        u32 ((extentAt sb.dataBlocks hdr last).start +
          (extentAt sb.dataBlocks hdr last).len) = block
    · rcases merges with ⟨last, count, ends⟩
      rw [count] at notMore
      apply AppendCase.merged block last taken count ends
      simp only [osfsExtentAppendBlock, count, notMore, if_false, allocated,
        SbInfo.setBlockMap_dataBlocks, Nat.add_sub_cancel, ends, Nat.succ_pos, and_self,
        gt_iff_lt, if_true, appendState]
    · have apart : ∀ last, hdrCount sb.dataBlocks hdr = last + 1 →
          u32 ((extentAt sb.dataBlocks hdr last).start +
            (extentAt sb.dataBlocks hdr last).len) ≠ block :=
        fun last count ends => merges ⟨last, count, ends⟩
      have noMerge : ¬(hdrCount sb.dataBlocks hdr > 0 ∧
          u32 ((extentAt sb.dataBlocks hdr (hdrCount sb.dataBlocks hdr - 1)).start +
            (extentAt sb.dataBlocks hdr (hdrCount sb.dataBlocks hdr - 1)).len) = block) := by
        rintro ⟨positive, ends⟩
        exact apart _ (Nat.sub_add_cancel positive).symm ends
      by_cases full : hdrCount sb.dataBlocks hdr ≥ osfsMaxExtents
      · apply AppendCase.tableFull block taken full apart
        simp only [osfsExtentAppendBlock, notMore, if_false, allocated,
          SbInfo.setBlockMap_dataBlocks, noMerge, full, if_true]
      · apply AppendCase.started block taken (Nat.lt_of_not_le full) apart
        simp only [osfsExtentAppendBlock, notMore, if_false, allocated,
          SbInfo.setBlockMap_dataBlocks, noMerge, full, appendState, startExtent]
  · apply AppendCase.diskFull full
    simp only [osfsExtentAppendBlock, notMore, if_false, failed]

/-- Where the last extent of the table ends; nothing wraps. -/
theorem Ready.last_extent_end {sb : SbInfo} {f last : Nat} (ready : Ready sb f)
    (count : hdrCount sb.dataBlocks (osfsGetExtentHeader sb f) = last + 1) :
    (extentAt sb.dataBlocks (osfsGetExtentHeader sb f) last).start +
      (extentAt sb.dataBlocks (osfsGetExtentHeader sb f) last).len ≤ dataBlockCount := by
  apply ready.inv.extent_end_le ready.named
  rw [extents_of_headerValid ready.valid, count, loadExtents_succ]
  exact List.mem_append_right _ List.mem_cons_self

/-- On a ready file the append fails only for want of a free block, and then
changes nothing. -/
theorem osfsExtentAppendBlock_cases {sb : SbInfo} {f : Nat} (ready : Ready sb f) :
    (∃ block sb', block < dataBlockCount ∧ sb.blockBitmap block = false ∧
      osfsExtentAppendBlock sb f (osfsGetExtentHeader sb f) = .ok block sb' ∧
      Appended sb sb' f block) ∨
    (sb.nrFreeBlocks = 0 ∧
      osfsExtentAppendBlock sb f (osfsGetExtentHeader sb f) = .error .ENOSPC sb) := by
  have few := ready.hdrCount_lt
  unfold dataBlockCount at few
  have noWrap : ∀ last, hdrCount sb.dataBlocks (osfsGetExtentHeader sb f) = last + 1 →
      u32 ((extentAt sb.dataBlocks (osfsGetExtentHeader sb f) last).start +
          (extentAt sb.dataBlocks (osfsGetExtentHeader sb f) last).len) =
        (extentAt sb.dataBlocks (osfsGetExtentHeader sb f) last).start +
          (extentAt sb.dataBlocks (osfsGetExtentHeader sb f) last).len :=
    fun last count => u32_of_lt (Nat.lt_of_le_of_lt (ready.last_extent_end count) (by decide))
  cases (osfsExtentAppendBlock_case ready.valid.2 : AppendCase sb f _) with
  | merged block last taken count ends result =>
      left
      rcases firstClear_spec taken with ⟨_, inArea, clear⟩
      rw [ready.inv.blockCount_eq] at inArea
      rw [noWrap last count] at ends
      have lenInc : u32Inc (extentAt sb.dataBlocks (osfsGetExtentHeader sb f) last).len =
          (extentAt sb.dataBlocks (osfsGetExtentHeader sb f) last).len + 1 := by
        apply u32_of_lt
        unfold dataBlockCount at inArea
        omega
      rw [lenInc] at result
      exact ⟨block, _, inArea, clear, result, Appended.of_merge ready inArea clear count ends⟩
  | started block taken room apart result =>
      left
      rcases firstClear_spec taken with ⟨_, inArea, clear⟩
      rw [ready.inv.blockCount_eq] at inArea
      have apart' : ∀ last, hdrCount sb.dataBlocks (osfsGetExtentHeader sb f) = last + 1 →
          (extentAt sb.dataBlocks (osfsGetExtentHeader sb f) last).start +
            (extentAt sb.dataBlocks (osfsGetExtentHeader sb f) last).len ≠ block := by
        intro last count
        rw [← noWrap last count]
        exact apart last count
      exact ⟨block, _, inArea, clear, result, Appended.of_start ready inArea clear apart'⟩
  | diskFull full result =>
      right
      refine ⟨?_, result⟩
      rw [ready.inv.freeBlocks, countClear_eq_zero_iff, ← ready.inv.blockCount_eq]
      exact full
  | tableFull block taken full apart result =>
      rw [osfsMaxExtents_eq] at full
      omega

end NckuOs.Osfs
