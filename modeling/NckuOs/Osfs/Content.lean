import NckuOs.Osfs.FileOps
import Mathlib.Data.List.GetD

/-!
# A file as a sequence of bytes

`FileView` is what a file is to the programs that use it: a size, a number of
mapped blocks and a byte for every offset.  The inner steps of a write act on it
as two abstract operations, storing a run of bytes and growing the size, whatever
the extents behind the bytes look like.
-/

set_option maxRecDepth 4000

namespace NckuOs.Osfs

open NckuOs.Bitmap
open NckuOs.ByteMemory
open NckuOs.RunLength

/-- A file without its extents.  The bytes behind the last mapped block are
zero. -/
structure FileView where
  size : Nat
  blocks : Nat
  bytes : Mem

/-- How many blocks a file needs to hold `[q, q + n)`. -/
def blocksTo (q n : Nat) : Nat :=
  if n = 0 then 0 else (q + n - 1) / 1024 + 1

namespace FileView

/-- Store `n` bytes at offset `q`, mapping the blocks they need. -/
def store (view : FileView) (q n : Nat) (bytes : Nat → UInt8) : FileView :=
  { view with
    blocks := max view.blocks (blocksTo q n)
    bytes := ByteMemory.store view.bytes q n bytes }

/-- Let the size grow to `pos`, which is cut to 32 bits. -/
def grow (view : FileView) (pos : Nat) : FileView :=
  { view with size := if pos > view.size then u32 pos else view.size }

theorem store_congr {view : FileView} {q n : Nat} {bytes bytes' : Nat → UInt8}
    (same : ∀ i < n, bytes' i = bytes i) : view.store q n bytes' = view.store q n bytes := by
  simp only [store, ByteMemory.store_congr same]

theorem store_zero (view : FileView) (q : Nat) (bytes : Nat → UInt8) :
    view.store q 0 bytes = view := by
  simp [store, blocksTo]

/-- Storing a run piece by piece is storing it at once. -/
theorem store_store (view : FileView) (q n m : Nat) (bytes : Nat → UInt8) :
    (view.store q n bytes).store (q + n) m (fun i => bytes (n + i)) =
      view.store q (n + m) bytes := by
  have blocks : max (max view.blocks (blocksTo q n)) (blocksTo (q + n) m) =
      max view.blocks (blocksTo q (n + m)) := by
    unfold blocksTo
    by_cases noMore : m = 0
    · simp [noMore]
    · have some : n + m ≠ 0 := by omega
      rw [if_neg noMore, if_neg some]
      split <;> omega
  simp only [store, blocks, store_store_adjacent]

/-- Below 4 GiB the size grows to the larger of the two. -/
theorem grow_of_lt {view : FileView} {pos : Nat} (small : pos < 2 ^ 32) :
    view.grow pos = { view with size := max view.size pos } := by
  have size : (if pos > view.size then u32 pos else view.size) = max view.size pos := by
    rw [u32_of_lt small]
    split <;> omega
  rw [grow, size]

/-- Growing twice is growing to the later position. -/
theorem grow_grow (view : FileView) {first second : Nat} (later : first ≤ second) :
    (view.grow first).grow second = view.grow second := by
  have cut : u32 first ≤ first := Nat.mod_le first (2 ^ 32)
  have size : (if second > (view.grow first).size then u32 second else (view.grow first).size) =
      if second > view.size then u32 second else view.size := by
    unfold grow
    by_cases grows : first > view.size
    · have grows' : second > view.size := Nat.lt_of_lt_of_le grows later
      simp only [if_pos grows, if_pos grows']
      by_cases more : second > u32 first
      · rw [if_pos more]
      · have same : second = first := by omega
        rw [if_neg more, same]
    · simp only [if_neg grows]
  rw [grow, size]
  rfl

end FileView

/-- The view of a file. -/
def fileView (sb : SbInfo) (f : Nat) : FileView where
  size := (sb.inodeTable f).iSize
  blocks := (blockMap sb f).length
  bytes := fun x => if x / 1024 < (blockMap sb f).length then fileByte sb f x else 0

theorem fileView_bytes_of_lt {sb : SbInfo} {f x : Nat}
    (mapped : x / 1024 < (blockMap sb f).length) : (fileView sb f).bytes x = fileByte sb f x :=
  if_pos mapped

theorem fileView_bytes_of_ge {sb : SbInfo} {f x : Nat}
    (unmapped : (blockMap sb f).length ≤ x / 1024) : (fileView sb f).bytes x = 0 :=
  if_neg (Nat.not_lt.mpr unmapped)

/-- A change of file `f` that leaves it ready, with the given view. -/
structure Progress (sb sb' : SbInfo) (f : Nat) (view : FileView) : Prop where
  ready : Ready sb' f
  step : ∃ new, FileStep f new sb sb'
  free : sb'.nrFreeBlocks + (fileView sb' f).blocks = sb.nrFreeBlocks + (fileView sb f).blocks
  view_eq : fileView sb' f = view

theorem Progress.trans {sb sb' sb'' : SbInfo} {f : Nat} {view view' : FileView}
    (first : Progress sb sb' f view) (second : Progress sb' sb'' f view') :
    Progress sb sb'' f view' where
  ready := second.ready
  step := by
    obtain ⟨new, firstStep⟩ := first.step
    obtain ⟨more, secondStep⟩ := second.step
    exact ⟨new ++ more, firstStep.trans secondStep⟩
  free := second.free.trans first.free
  view_eq := second.view_eq

/-- Old blocks with the same content and new blocks of zeros leave the bytes as
they were. -/
theorem bytes_eq_of_sameBlock {sb sb' : SbInfo} {f : Nat} {new : List Nat}
    (map_eq : blockMap sb' f = blockMap sb f ++ new)
    (same : ∀ block ∈ blockMap sb f, SameBlock sb.dataBlocks sb'.dataBlocks block)
    (zero : ∀ block ∈ new, BlockZero sb'.dataBlocks block) :
    (fileView sb' f).bytes = (fileView sb f).bytes := by
  funext x
  have inBlock := Nat.mod_lt x (show 0 < 1024 by decide)
  by_cases old : x / 1024 < (blockMap sb f).length
  · have stillMapped : x / 1024 < (blockMap sb' f).length := by
      rw [map_eq, List.length_append]
      omega
    rw [fileView_bytes_of_lt old, fileView_bytes_of_lt stillMapped, fileByte, fileByte, map_eq,
      List.getD_append _ _ _ _ old]
    apply same ((blockMap sb f).getD (x / 1024) 0)
    · rw [List.getD_eq_getElem _ _ old]
      exact List.getElem_mem old
    · exact Nat.le_add_right _ _
    · omega
  · rw [fileView_bytes_of_ge (Nat.not_lt.mp old)]
    by_cases isNew : x / 1024 < (blockMap sb' f).length
    · rw [fileView_bytes_of_lt isNew, fileByte]
      have newBound : x / 1024 - (blockMap sb f).length < new.length := by
        rw [map_eq, List.length_append] at isNew
        omega
      rw [map_eq, List.getD_append_right _ _ _ _ (Nat.not_lt.mp old)]
      apply zero (new.getD (x / 1024 - (blockMap sb f).length) 0)
      · rw [List.getD_eq_getElem _ _ newBound]
        exact List.getElem_mem newBound
      · exact Nat.le_add_right _ _
      · omega
    · exact fileView_bytes_of_ge (Nat.not_lt.mp isNew)

/-! ## The inner steps on the view -/

theorem Ensured.progress {sb sb' : SbInfo} {f : Nat} (inv : Inv sb) (named : f ∈ fileInos sb)
    (ensured : Ensured sb sb' f) : Progress sb sb' f (fileView sb f) := by
  have map_eq : blockMap sb' f = blockMap sb f ++ [] := ensured.step.map_eq
  have bytes : (fileView sb' f).bytes = (fileView sb f).bytes := by
    apply bytes_eq_of_sameBlock map_eq
    · intro block isMem
      exact ensured.data block (inv.blockMap_ne_table named isMem)
    · simp
  have view_eq : fileView sb' f = fileView sb f := by
    simp only [fileView, FileView.mk.injEq] at bytes ⊢
    refine ⟨by rw [ensured.inodes], by simp [map_eq], bytes⟩
  exact
    { ready := ensured.ready
      step := ⟨[], ensured.step⟩
      free := by rw [view_eq, ensured.free]
      view_eq := view_eq }

/-- An appended block reads as zeros. -/
theorem Appended.progress {sb sb' : SbInfo} {f block : Nat} (ready : Ready sb f)
    (inArea : block < dataBlockCount) (clear : sb.blockBitmap block = false)
    (appended : Appended sb sb' f block) :
    Progress sb sb' f { fileView sb f with blocks := (fileView sb f).blocks + 1 } := by
  have map_eq := appended.step.map_eq
  have bytes : (fileView sb' f).bytes = (fileView sb f).bytes := by
    apply bytes_eq_of_sameBlock map_eq
    · intro other isMem
      exact appended.data other (ready.inv.blockMap_ne_table ready.named isMem)
    · intro other isMem
      rw [List.mem_singleton.mp isMem]
      apply (ready.inv.freeZero block inArea clear).congr
      apply appended.data
      rintro rfl
      have taken := ready.inv.block_taken ready.named (table_mem_fileBlocks sb f)
      rw [clear] at taken
      contradiction
  have blocks : (fileView sb' f).blocks = (fileView sb f).blocks + 1 := by
    simp [fileView, map_eq]
  exact
    { ready := appended.ready
      step := ⟨[block], appended.step⟩
      free := by
        have free := appended.free
        omega
      view_eq := by
        simp only [fileView, FileView.mk.injEq] at bytes blocks ⊢
        exact ⟨by rw [appended.slot], blocks, bytes⟩ }

section Stored

variable {sb : SbInfo} {f idx off n : Nat} (bytes : Nat → UInt8)

/-- The state after `n` bytes were copied into data block `idx` of the file. -/
def storeChunk (sb : SbInfo) (f idx off n : Nat) (bytes : Nat → UInt8) : SbInfo :=
  sb.setData (store sb.dataBlocks ((blockMap sb f).getD idx 0 * 1024 + off) n bytes)

theorem getD_mem_blockMap (mapped : idx < (blockMap sb f).length) :
    (blockMap sb f).getD idx 0 ∈ blockMap sb f := by
  rw [List.getD_eq_getElem _ _ mapped]
  exact List.getElem_mem mapped

@[simp]
theorem storeChunk_inodeTable :
    (storeChunk sb f idx off n bytes).inodeTable = sb.inodeTable :=
  (rfl)

/-- A chunk that stays inside its block touches no other block. -/
theorem sameBlock_storeChunk (inside : off + n ≤ 1024) {block : Nat}
    (ne : block ≠ (blockMap sb f).getD idx 0) :
    SameBlock sb.dataBlocks (storeChunk sb f idx off n bytes).dataBlocks block :=
  SameBlock.store off rfl inside ne

theorem extents_storeChunk (ready : Ready sb f) (mapped : idx < (blockMap sb f).length)
    (inside : off + n ≤ 1024) :
    extents (storeChunk sb f idx off n bytes) f = extents sb f := by
  have tableSame : SameBlock sb.dataBlocks (storeChunk sb f idx off n bytes).dataBlocks
      (sb.inodeTable f).iBlock :=
    sameBlock_storeChunk bytes inside
      (ready.inv.blockMap_ne_table ready.named (getD_mem_blockMap mapped)).symm
  refine extents_congr ?_ (ready.inv.table_lt ready.named) (.inl ready.valid) tableSame
  rw [storeChunk_inodeTable]

theorem ready_storeChunk (ready : Ready sb f) (mapped : idx < (blockMap sb f).length)
    (inside : off + n ≤ 1024) :
    Ready (storeChunk sb f idx off n bytes) f ∧
      FileStep f [] sb (storeChunk sb f idx off n bytes) := by
  have isMem := getD_mem_blockMap mapped
  have extentsEq := extents_storeChunk bytes ready mapped inside
  have tableSame : SameBlock sb.dataBlocks (storeChunk sb f idx off n bytes).dataBlocks
      (sb.inodeTable f).iBlock :=
    sameBlock_storeChunk bytes inside (ready.inv.blockMap_ne_table ready.named isMem).symm
  have step : FileStep f [] sb (storeChunk sb f idx off n bytes) := by
    refine FileStep.of_same_map rfl rfl rfl rfl rfl ?_ ?_ ?_ extentsEq ?_
    · intro g _
      rw [storeChunk_inodeTable]
    · rw [storeChunk_inodeTable]
    · rw [storeChunk_inodeTable]
    intro block outside
    apply sameBlock_storeChunk bytes inside
    rintro rfl
    apply outside
    rw [fileBlocks, blockMap, extentsEq, ← blockMap]
    exact List.mem_cons_of_mem _ isMem
  refine ⟨ready.of_step step ?_ ?_ rfl ready.ok.size ready.inv.freeBlocks, step⟩
  · refine ready.valid.congr ?_ (ready.inv.table_lt ready.named) tableSame
    rw [storeChunk_inodeTable]
  · rw [extentsEq]
    exact ready.ok.nonempty

/-- Copying into a data block is a store in the bytes of the file. -/
theorem bytes_storeChunk (ready : Ready sb f) (mapped : idx < (blockMap sb f).length)
    (inside : off + n ≤ 1024) :
    (fileView (storeChunk sb f idx off n bytes) f).bytes =
      store (fileView sb f).bytes (idx * 1024 + off) n bytes := by
  have mapEq : blockMap (storeChunk sb f idx off n bytes) f = blockMap sb f := by
    rw [blockMap, extents_storeChunk bytes ready mapped inside, ← blockMap]
  have nodup : (blockMap sb f).Nodup := by
    have all := ready.inv.fileBlocks_nodup ready.named
    rw [fileBlocks, List.nodup_cons] at all
    exact all.2
  funext x
  have inBlock := Nat.mod_lt x (show 0 < 1024 by decide)
  by_cases xMapped : x / 1024 < (blockMap sb f).length
  · rw [fileView_bytes_of_lt (by rw [mapEq]; exact xMapped), fileByte, mapEq]
    by_cases sameIdx : x / 1024 = idx
    · by_cases written : off ≤ x % 1024 ∧ x % 1024 < off + n
      · rw [sameIdx, storeChunk, SbInfo.setData_dataBlocks, store_of_mem (by omega) (by omega),
          store_of_mem (by omega) (by omega)]
        congr 1
        omega
      · rw [store_of_not_mem (by omega), fileView_bytes_of_lt xMapped, fileByte, sameIdx,
          storeChunk, SbInfo.setData_dataBlocks, store_of_not_mem (by omega)]
    · have ne : (blockMap sb f).getD (x / 1024) 0 ≠ (blockMap sb f).getD idx 0 := by
        rw [List.getD_eq_getElem _ _ xMapped, List.getD_eq_getElem _ _ mapped]
        intro equal
        exact sameIdx ((List.Nodup.getElem_inj_iff nodup).mp equal)
      rw [store_of_not_mem (by omega), fileView_bytes_of_lt xMapped, fileByte]
      exact sameBlock_storeChunk bytes inside ne _ (Nat.le_add_right _ _) (by omega)
  · rw [fileView_bytes_of_ge (by rw [mapEq]; omega), store_of_not_mem (by omega),
      fileView_bytes_of_ge (by omega)]

theorem storeChunk_progress (ready : Ready sb f) (mapped : idx < (blockMap sb f).length)
    (inside : off + n ≤ 1024) :
    Progress sb (storeChunk sb f idx off n bytes) f
      ((fileView sb f).store (idx * 1024 + off) n bytes) := by
  obtain ⟨stillReady, step⟩ := ready_storeChunk bytes ready mapped inside
  have mapEq : blockMap (storeChunk sb f idx off n bytes) f = blockMap sb f := by
    rw [blockMap, extents_storeChunk bytes ready mapped inside, ← blockMap]
  have blocks : max (blockMap sb f).length (blocksTo (idx * 1024 + off) n) =
      (blockMap sb f).length := by
    unfold blocksTo
    split <;> omega
  have bytesEq := bytes_storeChunk bytes ready mapped inside
  exact
    { ready := stillReady
      step := ⟨[], step⟩
      free := by simp only [fileView, mapEq]; rfl
      view_eq := by
        simp only [fileView, FileView.store, FileView.mk.injEq] at bytesEq ⊢
        exact ⟨rfl, by rw [mapEq, blocks], bytesEq⟩ }

end Stored

section Resized

variable {sb : SbInfo} {f : Nat} {slot : OsfsInode}

/-- Rewriting a file's slot leaves its extents alone as long as it keeps the
table block. -/
theorem extents_setInode (table : slot.iBlock = (sb.inodeTable f).iBlock) :
    extents (sb.setInode f slot) f = extents sb f := by
  have hdrEq : osfsGetExtentHeader (sb.setInode f slot) f = osfsGetExtentHeader sb f := by
    simp [osfsGetExtentHeader, table]
  simp only [extents, hdrEq, SbInfo.setInode_dataBlocks]

/-- Setting the size of a file and nothing else. -/
theorem setInode_progress (ready : Ready sb f)
    (table : slot.iBlock = (sb.inodeTable f).iBlock)
    (mode : slot.iMode = (sb.inodeTable f).iMode)
    (blocks : slot.iBlocks = (sb.inodeTable f).iBlocks) (size : slot.iSize < 2 ^ 32) :
    Progress sb (sb.setInode f slot) f { fileView sb f with size := slot.iSize } := by
  have extentsEq := extents_setInode table
  have mapEq : blockMap (sb.setInode f slot) f = blockMap sb f := by
    rw [blockMap, extentsEq, ← blockMap]
  have step : FileStep f [] sb (sb.setInode f slot) := by
    refine FileStep.of_same_map rfl rfl rfl rfl rfl ?_ ?_ ?_ extentsEq ?_
    · intro g ne
      exact SbInfo.setInode_of_ne ne
    · rw [SbInfo.setInode_self, table]
    · rw [SbInfo.setInode_self, mode]
    · intro block _
      exact SameBlock.refl _ block
  have stillReady : Ready (sb.setInode f slot) f := by
    apply ready.of_step step
    · rw [HeaderValid, osfsGetExtentHeader, SbInfo.setInode_self, table]
      exact ready.valid
    · rw [extentsEq]
      exact ready.ok.nonempty
    · rw [SbInfo.setInode_self, blocks]
      rfl
    · rw [SbInfo.setInode_self]
      exact size
    · exact ready.inv.freeBlocks
  exact
    { ready := stillReady
      step := ⟨[], step⟩
      free := by simp only [fileView, mapEq, SbInfo.setInode_nrFreeBlocks]
      view_eq := by
        simp only [fileView, mapEq, fileByte, SbInfo.setInode_self, SbInfo.setInode_dataBlocks] }

/-- The end of a write grows the view. -/
theorem growSize_progress (pos : Nat) (ready : Ready sb f) :
    Progress sb (growSize sb f pos) f ((fileView sb f).grow pos) := by
  unfold growSize FileView.grow
  by_cases larger : pos > (sb.inodeTable f).iSize
  · have viewLarger : pos > (fileView sb f).size := larger
    rw [if_pos larger, if_pos viewLarger]
    exact setInode_progress ready rfl rfl rfl (u32_lt pos)
  · have viewLarger : ¬pos > (fileView sb f).size := larger
    rw [if_neg larger, if_neg viewLarger]
    exact
      { ready := ready
        step := ⟨[], (Ensured.of_valid ready).step⟩
        free := rfl
        view_eq := rfl }

end Resized

end NckuOs.Osfs
