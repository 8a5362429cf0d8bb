import NckuOs.Osfs.View
import Mathlib.Data.List.Perm.Basic
import Mathlib.Data.List.Nodup

/-!
# The invariant of a mounted osfs

`Inv` ties the bitmaps and counters to the blocks that the directory and the
extent tables use, and says that blocks nobody uses are zero.  It holds at every
intermediate point of a write, so it leaves out the relation between a file's
size and its blocks.

`FileStep f new` describes any change that stays within one file `f`: it may add
the free blocks `new` to the end of the file's map and may write in the file's
own blocks.  Everything the inner steps of a write do is such a change.
-/

set_option maxRecDepth 4000

namespace NckuOs.Osfs

open NckuOs.Bitmap
open NckuOs.ByteMemory
open NckuOs.RunLength

/-- A file's inode slot and table block are in order. -/
structure FileOk (sb : SbInfo) (ino : Nat) : Prop where
  low : rootInode < ino
  high : ino < inodeCount
  taken : sb.inodeBitmap ino = true
  regular : sIsreg (sb.inodeTable ino).iMode = true
  blocks : (sb.inodeTable ino).iBlocks = 1 + (blockMap sb ino).length
  size : (sb.inodeTable ino).iSize < 2 ^ 32
  nonempty : ∀ extent ∈ extents sb ino, 0 < extent.len
  /-- The table block is a table, or has not been touched since the file was
  created. -/
  table : HeaderValid sb ino ∨
    (BlockZero sb.dataBlocks (sb.inodeTable ino).iBlock ∧ (sb.inodeTable ino).iSize = 0)

structure Inv (sb : SbInfo) : Prop where
  inodeCount_eq : sb.inodeCount = inodeCount
  blockCount_eq : sb.blockCount = dataBlockCount
  /-- The directory's block is block 0, allocated or not. -/
  rootBlock : (sb.inodeTable rootInode).iBlock = 0
  /-- Until the directory has its block nothing else was allocated either. -/
  rootFresh : (sb.inodeTable rootInode).iBlocks = 0 →
    (sb.inodeTable rootInode).iSize = 0 ∧ ∀ ino, sb.inodeBitmap ino = true → ino = rootInode
  rootTaken : sb.inodeBitmap rootInode = true
  dirSize : ∃ n, n ≤ maxDirEntries ∧ (sb.inodeTable rootInode).iSize = sizeofDirEntry * n
  shortNames : ∀ entry ∈ dirEntries sb, entry.1.length < maxFilenameLen
  namesNodup : ((dirEntries sb).map Prod.fst).Nodup
  inosNodup : (fileInos sb).Nodup
  files : ∀ ino ∈ fileInos sb, FileOk sb ino
  owned : (ownedBlocks sb).Nodup
  bitmap : ∀ block, block ∈ ownedBlocks sb ↔ block < dataBlockCount ∧ sb.blockBitmap block = true
  freeZero : ∀ block < dataBlockCount, sb.blockBitmap block = false →
    BlockZero sb.dataBlocks block
  freeBlocks : sb.nrFreeBlocks = countClear sb.blockBitmap dataBlockCount
  freeInodes : sb.nrFreeInodes = countClear sb.inodeBitmap inodeCount

namespace Inv

variable {sb : SbInfo}

theorem few (inv : Inv sb) : dirEntryCount sb rootInode ≤ maxDirEntries := by
  obtain ⟨n, bound, size⟩ := inv.dirSize
  unfold dirEntryCount
  rw [size, Nat.mul_div_cancel_left n (by decide)]
  exact bound

theorem mem_ownedBlocks (_ : Inv sb) {ino block : Nat} (named : ino ∈ fileInos sb)
    (isMem : block ∈ fileBlocks sb ino) : block ∈ ownedBlocks sb :=
  List.mem_append_right _ (List.mem_flatMap.mpr ⟨ino, named, isMem⟩)

theorem block_lt (inv : Inv sb) {ino block : Nat} (named : ino ∈ fileInos sb)
    (isMem : block ∈ fileBlocks sb ino) : block < dataBlockCount :=
  ((inv.bitmap block).mp (inv.mem_ownedBlocks named isMem)).1

theorem block_taken (inv : Inv sb) {ino block : Nat} (named : ino ∈ fileInos sb)
    (isMem : block ∈ fileBlocks sb ino) : sb.blockBitmap block = true :=
  ((inv.bitmap block).mp (inv.mem_ownedBlocks named isMem)).2

theorem table_lt (inv : Inv sb) {ino : Nat} (named : ino ∈ fileInos sb) :
    (sb.inodeTable ino).iBlock < dataBlockCount :=
  inv.block_lt named (table_mem_fileBlocks sb ino)

/-- A directory that names a file has its block. -/
theorem root_blocks_ne_zero (inv : Inv sb) {ino : Nat} (named : ino ∈ fileInos sb) :
    (sb.inodeTable rootInode).iBlocks ≠ 0 := by
  intro none
  have empty := (inv.rootFresh none).1
  have noEntry : dirEntries sb = [] := by simp [dirEntries, dirEntryCount, empty]
  simp [fileInos, noEntry] at named

theorem rootBlocks_eq (inv : Inv sb) {ino : Nat} (named : ino ∈ fileInos sb) :
    rootBlocks sb = [0] := by
  simp [rootBlocks, inv.root_blocks_ne_zero named, inv.rootBlock]

/-- Block 0 belongs to the directory, never to a file. -/
theorem zero_not_mem_fileBlocks (inv : Inv sb) {ino : Nat} (named : ino ∈ fileInos sb) :
    0 ∉ fileBlocks sb ino := by
  intro isMem
  have nodup := inv.owned
  rw [ownedBlocks, inv.rootBlocks_eq named, List.singleton_append, List.nodup_cons] at nodup
  exact nodup.1 (List.mem_flatMap.mpr ⟨ino, named, isMem⟩)

theorem zero_taken (inv : Inv sb) {ino : Nat} (named : ino ∈ fileInos sb) :
    sb.blockBitmap 0 = true := by
  have isMem : 0 ∈ ownedBlocks sb := by
    rw [ownedBlocks, inv.rootBlocks_eq named]
    exact List.mem_append_left _ List.mem_cons_self
  exact ((inv.bitmap 0).mp isMem).2

theorem table_ne_zero (inv : Inv sb) {ino : Nat} (named : ino ∈ fileInos sb) :
    (sb.inodeTable ino).iBlock ≠ 0 := by
  intro zero
  apply inv.zero_not_mem_fileBlocks named
  rw [fileBlocks, zero]
  exact List.mem_cons_self

theorem fileBlocks_nodup (inv : Inv sb) {ino : Nat} (named : ino ∈ fileInos sb) :
    (fileBlocks sb ino).Nodup :=
  (List.nodup_flatMap.mp (List.nodup_append.mp inv.owned).2.1).1 ino named

/-- Two files share no block. -/
theorem fileBlocks_disjoint (inv : Inv sb) {f g block : Nat} (fNamed : f ∈ fileInos sb)
    (gNamed : g ∈ fileInos sb) (ne : f ≠ g) (inF : block ∈ fileBlocks sb f) :
    block ∉ fileBlocks sb g := by
  have pairwise := (List.nodup_flatMap.mp (List.nodup_append.mp inv.owned).2.1).2
  have symmetric : Std.Symm
      (Function.onFun List.Disjoint (fileBlocks sb)) := ⟨fun _ _ => List.disjoint_symm⟩
  exact pairwise.forall fNamed gNamed ne inF

theorem rootInode_not_mem (inv : Inv sb) : rootInode ∉ fileInos sb := by
  intro named
  exact Nat.lt_irrefl _ (inv.files rootInode named).low

theorem ne_root (inv : Inv sb) {ino : Nat} (named : ino ∈ fileInos sb) : ino ≠ rootInode := by
  rintro rfl
  exact inv.rootInode_not_mem named

end Inv

/-! ## Changes within one file -/

/-- `sb'` differs from `sb` only in what file `f` owns, after the free blocks
`new` were added at the end of its map. -/
structure FileStep (f : Nat) (new : List Nat) (sb sb' : SbInfo) : Prop where
  inodeCount_eq : sb'.inodeCount = sb.inodeCount
  blockCount_eq : sb'.blockCount = sb.blockCount
  inodeBitmap_eq : sb'.inodeBitmap = sb.inodeBitmap
  nrFreeInodes_eq : sb'.nrFreeInodes = sb.nrFreeInodes
  others : ∀ g, g ≠ f → sb'.inodeTable g = sb.inodeTable g
  iBlock_eq : (sb'.inodeTable f).iBlock = (sb.inodeTable f).iBlock
  iMode_eq : (sb'.inodeTable f).iMode = (sb.inodeTable f).iMode
  map_eq : blockMap sb' f = blockMap sb f ++ new
  newNodup : new.Nodup
  newFree : ∀ block ∈ new, block < dataBlockCount ∧ sb.blockBitmap block = false
  bitmap_iff : ∀ block, sb'.blockBitmap block = true ↔ block ∈ new ∨ sb.blockBitmap block = true
  data : ∀ block, block ∉ fileBlocks sb' f → SameBlock sb.dataBlocks sb'.dataBlocks block

namespace FileStep

variable {f : Nat} {new : List Nat} {sb sb' : SbInfo}

theorem fileBlocks_eq (step : FileStep f new sb sb') :
    fileBlocks sb' f = fileBlocks sb f ++ new := by
  simp [fileBlocks, step.iBlock_eq, step.map_eq]

theorem trans {more : List Nat} {sb'' : SbInfo} (first : FileStep f new sb sb')
    (second : FileStep f more sb' sb'') : FileStep f (new ++ more) sb sb'' where
  inodeCount_eq := second.inodeCount_eq.trans first.inodeCount_eq
  blockCount_eq := second.blockCount_eq.trans first.blockCount_eq
  inodeBitmap_eq := second.inodeBitmap_eq.trans first.inodeBitmap_eq
  nrFreeInodes_eq := second.nrFreeInodes_eq.trans first.nrFreeInodes_eq
  others g ne := (second.others g ne).trans (first.others g ne)
  iBlock_eq := second.iBlock_eq.trans first.iBlock_eq
  iMode_eq := second.iMode_eq.trans first.iMode_eq
  map_eq := by rw [second.map_eq, first.map_eq, List.append_assoc]
  newNodup := by
    rw [List.nodup_append']
    refine ⟨first.newNodup, second.newNodup, ?_⟩
    intro block inNew inMore
    have set : sb'.blockBitmap block = true := (first.bitmap_iff block).mpr (.inl inNew)
    have clear := (second.newFree block inMore).2
    rw [set] at clear
    contradiction
  newFree := by
    intro block isMem
    rcases List.mem_append.mp isMem with inNew | inMore
    · exact first.newFree block inNew
    · obtain ⟨inArea, clear⟩ := second.newFree block inMore
      refine ⟨inArea, ?_⟩
      by_contra taken
      have set := (first.bitmap_iff block).mpr (.inr (by simpa using taken))
      rw [set] at clear
      contradiction
  bitmap_iff block := by
    rw [second.bitmap_iff, first.bitmap_iff, List.mem_append]
    tauto
  data block outside := by
    have outsideFirst : block ∉ fileBlocks sb' f := by
      intro isMem
      apply outside
      rw [second.fileBlocks_eq]
      exact List.mem_append_left _ isMem
    exact (first.data block outsideFirst).trans (second.data block outside)

/-- Blocks that were in use elsewhere keep their content. -/
theorem sameBlock_of_taken (step : FileStep f new sb sb') {block : Nat}
    (taken : sb.blockBitmap block = true) (outside : block ∉ fileBlocks sb f) :
    SameBlock sb.dataBlocks sb'.dataBlocks block := by
  apply step.data
  rw [step.fileBlocks_eq, List.mem_append]
  rintro (isOld | isNew)
  · exact outside isOld
  · have clear := (step.newFree block isNew).2
    rw [taken] at clear
    contradiction

theorem dirEntries_eq (step : FileStep f new sb sb') (inv : Inv sb) (named : f ∈ fileInos sb) :
    dirEntries sb' = dirEntries sb := by
  have rootSame := step.others rootInode (inv.ne_root named).symm
  have few := inv.few
  rw [maxDirEntries_eq] at few
  have same : SameBlock sb.dataBlocks sb'.dataBlocks 0 :=
    step.sameBlock_of_taken (inv.zero_taken named) (inv.zero_not_mem_fileBlocks named)
  apply dirEntries_congr (by rw [rootSame]) (by rw [rootSame]) inv.rootBlock inv.few inv.shortNames
  exact Agree.mono same (by omega) (by omega)

theorem fileInos_eq (step : FileStep f new sb sb') (inv : Inv sb) (named : f ∈ fileInos sb) :
    fileInos sb' = fileInos sb := by
  rw [fileInos, fileInos, step.dirEntries_eq inv named]

section Others

variable {g : Nat}

/-- Every block of another file keeps its content. -/
theorem other_sameBlock (step : FileStep f new sb sb') (inv : Inv sb) (named : f ∈ fileInos sb)
    (gNamed : g ∈ fileInos sb) (ne : g ≠ f) {block : Nat} (isMem : block ∈ fileBlocks sb g) :
    SameBlock sb.dataBlocks sb'.dataBlocks block :=
  step.sameBlock_of_taken (inv.block_taken gNamed isMem)
    (inv.fileBlocks_disjoint gNamed named ne isMem)

theorem other_extents (step : FileStep f new sb sb') (inv : Inv sb) (named : f ∈ fileInos sb)
    (gNamed : g ∈ fileInos sb) (ne : g ≠ f) : extents sb' g = extents sb g := by
  have table := (inv.files g gNamed).table.imp_right And.left
  apply extents_congr (by rw [step.others g ne]) (inv.table_lt gNamed) table
  exact step.other_sameBlock inv named gNamed ne (table_mem_fileBlocks sb g)

theorem other_blockMap (step : FileStep f new sb sb') (inv : Inv sb) (named : f ∈ fileInos sb)
    (gNamed : g ∈ fileInos sb) (ne : g ≠ f) : blockMap sb' g = blockMap sb g := by
  rw [blockMap, blockMap, step.other_extents inv named gNamed ne]

theorem other_fileBlocks (step : FileStep f new sb sb') (inv : Inv sb) (named : f ∈ fileInos sb)
    (gNamed : g ∈ fileInos sb) (ne : g ≠ f) : fileBlocks sb' g = fileBlocks sb g := by
  rw [fileBlocks, fileBlocks, step.other_blockMap inv named gNamed ne, step.others g ne]

theorem other_fileOk (step : FileStep f new sb sb') (inv : Inv sb) (named : f ∈ fileInos sb)
    (gNamed : g ∈ fileInos sb) (ne : g ≠ f) : FileOk sb' g := by
  have ok := inv.files g gNamed
  have same := step.other_sameBlock inv named gNamed ne
    (table_mem_fileBlocks sb g)
  have slot := step.others g ne
  exact
    { low := ok.low
      high := ok.high
      taken := by rw [step.inodeBitmap_eq]; exact ok.taken
      regular := by rw [slot]; exact ok.regular
      blocks := by rw [slot, step.other_blockMap inv named gNamed ne]; exact ok.blocks
      size := by rw [slot]; exact ok.size
      nonempty := by rw [step.other_extents inv named gNamed ne]; exact ok.nonempty
      table := by
        rcases ok.table with valid | ⟨zero, empty⟩
        · exact .inl (valid.congr (by rw [slot]) (inv.table_lt gNamed) same)
        · refine .inr ⟨?_, ?_⟩
          · rw [slot]
            exact zero.congr same
          · rw [slot]
            exact empty }

end Others

/-- Changing what one index contributes to a concatenation. -/
private theorem flatMap_perm_of_one {inos : List Nat} {before after : Nat → List Nat} {f : Nat}
    {new : List Nat} (nodup : inos.Nodup) (isMem : f ∈ inos) (grown : after f = before f ++ new)
    (same : ∀ g ∈ inos, g ≠ f → after g = before g) :
    (inos.flatMap after).Perm (inos.flatMap before ++ new) := by
  induction inos with
  | nil => simp at isMem
  | cons first rest ih =>
      obtain ⟨notMem, restNodup⟩ := List.nodup_cons.mp nodup
      simp only [List.flatMap_cons]
      by_cases equal : first = f
      · subst first
        have restSame : rest.flatMap after = rest.flatMap before := by
          apply List.flatMap_congr
          intro g gMem
          apply same g (List.mem_cons_of_mem f gMem)
          rintro rfl
          exact notMem gMem
        rw [grown, restSame, List.append_assoc, List.append_assoc]
        exact List.Perm.append_left _ List.perm_append_comm
      · have inRest : f ∈ rest := by
          rcases List.mem_cons.mp isMem with head | tail
          · exact absurd head.symm equal
          · exact tail
        rw [same first List.mem_cons_self equal, List.append_assoc]
        exact List.Perm.append_left _
          (ih restNodup inRest fun g gMem => same g (List.mem_cons_of_mem first gMem))

/-- The blocks in use are those that were, and the new ones. -/
theorem ownedBlocks_perm (step : FileStep f new sb sb') (inv : Inv sb)
    (named : f ∈ fileInos sb) : (ownedBlocks sb').Perm (ownedBlocks sb ++ new) := by
  have rootSame : rootBlocks sb' = rootBlocks sb := by
    rw [rootBlocks, rootBlocks, step.others rootInode (inv.ne_root named).symm]
  rw [ownedBlocks, ownedBlocks, rootSame, step.fileInos_eq inv named, List.append_assoc]
  apply List.Perm.append_left
  apply flatMap_perm_of_one inv.inosNodup named step.fileBlocks_eq
  intro g gNamed ne
  exact step.other_fileBlocks inv named gNamed ne

/-- A change within one file that leaves the file itself in order keeps the
invariant. -/
theorem inv (step : FileStep f new sb sb') (inv : Inv sb) (named : f ∈ fileInos sb)
    (ok : FileOk sb' f)
    (count : sb'.nrFreeBlocks = countClear sb'.blockBitmap dataBlockCount) : Inv sb' where
  inodeCount_eq := step.inodeCount_eq.trans inv.inodeCount_eq
  blockCount_eq := step.blockCount_eq.trans inv.blockCount_eq
  rootBlock := by rw [step.others rootInode (inv.ne_root named).symm]; exact inv.rootBlock
  rootFresh := by
    rw [step.others rootInode (inv.ne_root named).symm, step.inodeBitmap_eq]
    exact inv.rootFresh
  rootTaken := by rw [step.inodeBitmap_eq]; exact inv.rootTaken
  dirSize := by rw [step.others rootInode (inv.ne_root named).symm]; exact inv.dirSize
  shortNames := by rw [step.dirEntries_eq inv named]; exact inv.shortNames
  namesNodup := by rw [step.dirEntries_eq inv named]; exact inv.namesNodup
  inosNodup := by rw [step.fileInos_eq inv named]; exact inv.inosNodup
  files := by
    intro g gNamed
    rw [step.fileInos_eq inv named] at gNamed
    by_cases equal : g = f
    · subst g
      exact ok
    · exact step.other_fileOk inv named gNamed equal
  owned := by
    rw [(step.ownedBlocks_perm inv named).nodup_iff, List.nodup_append']
    refine ⟨inv.owned, step.newNodup, ?_⟩
    intro block isOwned isNew
    have taken := ((inv.bitmap block).mp isOwned).2
    rw [(step.newFree block isNew).2] at taken
    contradiction
  bitmap := by
    intro block
    rw [(step.ownedBlocks_perm inv named).mem_iff, List.mem_append, inv.bitmap, step.bitmap_iff]
    constructor
    · rintro (⟨inArea, taken⟩ | isNew)
      · exact ⟨inArea, .inr taken⟩
      · exact ⟨(step.newFree block isNew).1, .inl isNew⟩
    · rintro ⟨inArea, isNew | taken⟩
      · exact .inr isNew
      · exact .inl ⟨inArea, taken⟩
  freeZero := by
    intro block inArea clear
    have notTaken : ¬(block ∈ new ∨ sb.blockBitmap block = true) := by
      rw [← step.bitmap_iff, clear]
      simp
    have wasClear : sb.blockBitmap block = false := by
      simpa using fun taken => notTaken (.inr taken)
    refine (inv.freeZero block inArea wasClear).congr (step.data block ?_)
    rw [step.fileBlocks_eq, List.mem_append]
    rintro (isOld | isNew)
    · exact notTaken (.inr (inv.block_taken named isOld))
    · exact notTaken (.inl isNew)
  freeBlocks := count
  freeInodes := by rw [step.nrFreeInodes_eq, step.inodeBitmap_eq]; exact inv.freeInodes

end FileStep

end NckuOs.Osfs
