import NckuOs.Lib.Transition
import NckuOs.Osfs.FileOps

/-!
# Extent tables as lists of 32-bit block numbers

`Table.lean` and `FileOps.lean` look at the tables of a mounted file system, where no
extent leaves the data area.  Here a table holds any extents; the blocks it stands for are
32-bit numbers, and sums that pass 2^32 wrap as they do in the code.
-/

namespace NckuOs.Osfs

open NckuOs.Bitmap
open NckuOs.ByteMemory
open NckuOs.RunLength
open NckuOs.Transition

/-- The extents of the table at `hdr`. -/
def tableExtents (mem : Mem) (hdr : Nat) : List Run :=
  loadExtents mem hdr (hdrCount mem hdr)

/-- The physical blocks that the extents of the table stand for, in order. -/
def tableBlocks (mem : Mem) (hdr : Nat) : List Nat :=
  (expand (tableExtents mem hdr)).map u32

/-- A table with no more extents than fit, none of them empty, of fewer than 2^32 blocks. -/
structure IsTable (mem : Mem) (hdr : Nat) : Prop where
  magic : hdrMagic mem hdr = osfsExtentMagic
  count : hdrCount mem hdr ≤ osfsMaxExtents
  nonempty : ∀ extent ∈ tableExtents mem hdr, 1 ≤ extent.len
  total : ((tableExtents mem hdr).map Run.len).sum < 2 ^ 32

/-- The counters are `uint32_t`. -/
structure SbInfo.Words (sb : SbInfo) : Prop where
  blockCount : sb.blockCount < 2 ^ 32
  nrFreeBlocks : sb.nrFreeBlocks < 2 ^ 32

/-- `osfs_extent_append_block` appends a free block to the list, or fails and leaves
everything as it was. -/
def AppendsBlock (sb : SbInfo) (ino hdr : Nat) : Prop :=
  match osfsExtentAppendBlock sb ino hdr with
  | .ok block sb' =>
      block < sb.blockCount ∧ sb.blockBitmap block = false ∧
        sb'.blockBitmap = setBit sb.blockBitmap block ∧
        tableBlocks sb'.dataBlocks hdr = tableBlocks sb.dataBlocks hdr ++ [block]
  | .error _ sb' => sb' = sb

/-- The next block continues an extent whose length is the largest 32-bit number. -/
def Overlong (sb : SbInfo) (hdr : Nat) : Prop :=
  ∃ last block, (tableExtents sb.dataBlocks hdr).getLast? = some last ∧
    last.len = 2 ^ 32 - 1 ∧ u32 (last.start + last.len) = block ∧
    firstClear sb.blockBitmap 0 sb.blockCount = some block

/-- Where an extent ends, in 32 bits. -/
def extentEnd (extent : Run) : Nat :=
  u32 (extent.start + extent.len)

/-- What becomes of the state in a call of `osfs_extent_append_block`. -/
def afterAppend (sb : SbInfo) (ino hdr : Nat) : SbInfo :=
  match osfsExtentAppendBlock sb ino hdr with
  | .ok _ sb' => sb'
  | .error _ sb' => sb'

/-- The life of a table from its reset on: blocks are appended to it for an inode, and
whatever else happens leaves its block alone. -/
def appending (hdr : Nat) : System SbInfo (Option Nat) where
  init sb := sb.Words ∧ hdrCount sb.dataBlocks hdr = 0
  step sb event sb' :=
    match event with
    | some ino => sb' = afterAppend sb ino hdr
    | none => sb'.Words ∧ Agree sb.dataBlocks sb'.dataBlocks hdr blockSize

variable {sb : SbInfo} {mem : Mem} {ino hdr block : Nat}

/-! ## Lookup and total -/

/-- `osfs_extent_lookup_block` indexes the list. -/
theorem osfsExtentLookupBlock_eq (table : IsTable mem hdr) (idx : Nat) :
    osfsExtentLookupBlock mem hdr idx =
      match (tableBlocks mem hdr)[idx]? with
      | some block => .ok block
      | none => .error .ENOENT := by
  have bounded := Nat.not_lt.mpr table.count
  simp only [osfsExtentLookupBlock, table.magic, ne_eq, not_true_eq_false, if_false, gt_iff_lt,
    bounded]
  rw [lookupBlockLoop_eq_locate, locate_eq_getElem?, tableBlocks, List.getElem?_map]
  rfl

/-- `osfs_extent_total_blocks` is its length. -/
theorem osfsExtentTotalBlocks_eq (table : IsTable mem hdr) :
    osfsExtentTotalBlocks mem hdr = (tableBlocks mem hdr).length := by
  have bounded := Nat.not_lt.mpr table.count
  have total := table.total
  simp only [osfsExtentTotalBlocks, table.magic, ne_eq, not_true_eq_false, if_false, gt_iff_lt,
    bounded]
  rw [foldl_total_eq _ _ (by decide), Nat.zero_add, tableBlocks, List.length_map, length_expand]
  exact u32_of_lt total

/-! ## Appending -/

theorem tableExtents_of_count {last : Nat} (count : hdrCount mem hdr = last + 1) :
    tableExtents mem hdr = loadExtents mem hdr last ++ [extentAt mem hdr last] := by
  rw [tableExtents, count, loadExtents_succ]

theorem getLast?_tableExtents {last : Nat} (count : hdrCount mem hdr = last + 1) :
    (tableExtents mem hdr).getLast? = some (extentAt mem hdr last) := by
  rw [tableExtents_of_count count, List.getLast?_concat]

/-- The last extent, when there is one, is the one in front of the count. -/
theorem count_of_getLast? {extent : Run}
    (isLast : (tableExtents mem hdr).getLast? = some extent) :
    ∃ last, hdrCount mem hdr = last + 1 ∧ extentAt mem hdr last = extent := by
  cases count : hdrCount mem hdr with
  | zero =>
      rw [tableExtents, count] at isLast
      cases isLast
  | succ last =>
      rw [getLast?_tableExtents count] at isLast
      cases isLast
      exact ⟨last, rfl, rfl⟩

theorem hdrCount_lengthen (mem : Mem) (hdr last len : Nat) :
    hdrCount (store32 mem (extentAddr hdr last + 4) len) hdr = hdrCount mem hdr := by
  have addr := extentAddr_eq hdr last
  exact load32_store32_of_disjoint (.inl (by omega))

theorem tableExtents_lengthen {last len : Nat} (count : hdrCount mem hdr = last + 1)
    (small : len < 2 ^ 32) :
    tableExtents (store32 mem (extentAddr hdr last + 4) len) hdr =
      loadExtents mem hdr last ++ [⟨(extentAt mem hdr last).start, len⟩] := by
  rw [tableExtents, hdrCount_lengthen, count, loadExtents_grow small]

theorem hdrCount_start (room : hdrCount mem hdr < osfsMaxExtents) :
    hdrCount (startExtent mem hdr (hdrCount mem hdr) block) hdr = hdrCount mem hdr + 1 := by
  rw [osfsMaxExtents_eq] at room
  rw [hdrCount_startExtent]
  exact u32_of_lt (by omega)

theorem tableExtents_start (room : hdrCount mem hdr < osfsMaxExtents) (small : block < 2 ^ 32) :
    tableExtents (startExtent mem hdr (hdrCount mem hdr) block) hdr =
      tableExtents mem hdr ++ [⟨block, 1⟩] := by
  rw [tableExtents, hdrCount_start room, loadExtents_startExtent small, tableExtents]

/-- Giving back the block just taken restores the state. -/
theorem osfsFreeDataBlock_taken (words : sb.Words) (clear : sb.blockBitmap block = false) :
    osfsFreeDataBlock (sb.setBlockMap (setBit sb.blockBitmap block) (u32Dec sb.nrFreeBlocks))
      block = sb := by
  rw [osfsFreeDataBlock, SbInfo.setBlockMap_blockBitmap, SbInfo.setBlockMap_nrFreeBlocks,
    SbInfo.setBlockMap_setBlockMap, clearBit_setBit clear, u32Inc_u32Dec words.nrFreeBlocks,
    SbInfo.setBlockMap_eta]

/-- An append appends to the list, unless a length wraps. -/
theorem appendsBlock (words : sb.Words) (bounded : hdrCount sb.dataBlocks hdr ≤ osfsMaxExtents)
    (notOverlong : ¬Overlong sb hdr) : AppendsBlock sb ino hdr := by
  cases (osfsExtentAppendBlock_case bounded : AppendCase sb ino hdr) with
  | merged block last taken count ends result =>
      rcases firstClear_spec taken with ⟨_, inArea, clear⟩
      have small : (extentAt sb.dataBlocks hdr last).len < 2 ^ 32 := load32_lt _ _
      have notMost : (extentAt sb.dataBlocks hdr last).len ≠ 2 ^ 32 - 1 := by
        intro most
        exact notOverlong ⟨_, block, getLast?_tableExtents count, most, ends, taken⟩
      have longer : u32Inc (extentAt sb.dataBlocks hdr last).len =
          (extentAt sb.dataBlocks hdr last).len + 1 := u32_of_lt (by omega)
      rw [longer] at result
      rw [AppendsBlock, result]
      refine ⟨inArea, clear, appendState_blockBitmap, ?_⟩
      rw [appendState_dataBlocks, tableBlocks, tableExtents_lengthen count (by omega),
        expand_lengthen, ← tableExtents_of_count count, List.map_append, List.map_singleton,
        ends, tableBlocks]
  | started block taken room apart result =>
      rcases firstClear_spec taken with ⟨_, inArea, clear⟩
      have small := Nat.lt_trans inArea words.blockCount
      rw [AppendsBlock, result]
      refine ⟨inArea, clear, appendState_blockBitmap, ?_⟩
      rw [appendState_dataBlocks, tableBlocks, tableExtents_start room small, expand_append,
        List.map_append, tableBlocks]
      congr 1
      exact congrArg (fun b => [b]) (u32_of_lt small)
  | diskFull full result =>
      rw [AppendsBlock, result]
  | tableFull block taken full apart result =>
      rw [AppendsBlock, result]
      exact osfsFreeDataBlock_taken words (firstClear_spec taken).2.2

/-- A length that wraps to zero takes its blocks out of the list. -/
theorem not_appendsBlock (bounded : hdrCount sb.dataBlocks hdr ≤ osfsMaxExtents)
    (overlong : Overlong sb hdr) : ¬AppendsBlock sb ino hdr := by
  rcases overlong with ⟨extent, next, isLast, most, ends, found⟩
  rcases count_of_getLast? isLast with ⟨last, count, rfl⟩
  have merges : ∀ block, firstClear sb.blockBitmap 0 sb.blockCount = some block →
      ¬∀ last, hdrCount sb.dataBlocks hdr = last + 1 →
        u32 ((extentAt sb.dataBlocks hdr last).start +
          (extentAt sb.dataBlocks hdr last).len) ≠ block := by
    intro block taken apart
    rw [found, Option.some.injEq] at taken
    exact apart last count (ends.trans taken)
  cases (osfsExtentAppendBlock_case bounded : AppendCase sb ino hdr) with
  | merged block last' taken count' ends' result =>
      have same : last' = last := Nat.succ.inj (count'.symm.trans count)
      subst last'
      have wraps : u32Inc (extentAt sb.dataBlocks hdr last).len = 0 := by
        rw [most]
        rfl
      rw [wraps] at result
      rw [AppendsBlock, result]
      rintro ⟨_, _, _, appended⟩
      have lengths := congrArg List.length appended
      rw [appendState_dataBlocks, tableBlocks, tableExtents_lengthen count (by decide),
        tableBlocks, tableExtents_of_count count] at lengths
      simp only [expand_append, List.length_map, List.length_append, expand_cons,
        List.length_range', expand_nil, List.length_nil, List.length_singleton] at lengths
      omega
  | started block taken room apart result => exact absurd apart (merges block taken)
  | diskFull full result =>
      rcases firstClear_spec found with ⟨_, inArea, clear⟩
      rw [full next inArea] at clear
      cases clear
  | tableFull block taken full apart result => exact absurd apart (merges block taken)

/-! ## Tables built by appends -/

/-- A table of which no two neighbours could be one extent. -/
structure Built (hdr : Nat) (sb : SbInfo) : Prop where
  words : sb.Words
  count : hdrCount sb.dataBlocks hdr ≤ osfsMaxExtents
  apart : Apart extentEnd (tableExtents sb.dataBlocks hdr)

theorem Built.append (built : Built hdr sb) (ino : Nat) : Built hdr (afterAppend sb ino hdr) := by
  have words : ∀ block mem, (appendState sb ino block mem).Words := by
    intro block mem
    constructor
    · simpa [appendState, bumpBlocks] using built.words.blockCount
    · rw [appendState_nrFreeBlocks]
      exact u32_lt _
  cases (osfsExtentAppendBlock_case built.count : AppendCase sb ino hdr) with
  | merged block last taken count ends result =>
      rw [afterAppend, result]
      constructor
      · exact words _ _
      · rw [appendState_dataBlocks, hdrCount_lengthen]
        exact built.count
      · have apart := built.apart
        rw [tableExtents_of_count count] at apart
        have small : u32Inc (extentAt sb.dataBlocks hdr last).len < 2 ^ 32 := u32_lt _
        rw [appendState_dataBlocks, tableExtents_lengthen count small]
        exact apart.lengthen _
  | started block taken room apart result =>
      have small := Nat.lt_trans (firstClear_spec taken).2.1 built.words.blockCount
      rw [afterAppend, result]
      constructor
      · exact words _ _
      · rw [appendState_dataBlocks, hdrCount_start room]
        exact room
      · rw [appendState_dataBlocks, tableExtents_start room small]
        apply built.apart.concat
        intro extent isLast
        rcases count_of_getLast? isLast with ⟨last, count, rfl⟩
        exact apart last count
  | diskFull full result =>
      rw [afterAppend, result]
      exact built
  | tableFull block taken full apart result =>
      rw [afterAppend, result]
      have restored := osfsFreeDataBlock_taken built.words (firstClear_spec taken).2.2
      rw [restored]
      exact built

/-- A table is as it was when its block is. -/
theorem tableExtents_congr {mem' : Mem} (bounded : hdrCount mem hdr ≤ osfsMaxExtents)
    (same : Agree mem mem' hdr blockSize) : tableExtents mem' hdr = tableExtents mem hdr := by
  rw [osfsMaxExtents_eq] at bounded
  rw [tableExtents, hdrCount_congr same, tableExtents]
  apply loadExtents_congr
  intro i below
  apply same.mono
  · rw [extentAddr_eq]
    omega
  · rw [extentAddr_eq, blockSize]
    omega

theorem built_of_reachable (reachable : Reachable (appending hdr) sb) : Built hdr sb := by
  apply reachable.invariant (P := Built hdr)
  · rintro sb ⟨words, empty⟩
    constructor
    · exact words
    · rw [empty]
      exact Nat.zero_le _
    · rw [tableExtents, empty]
      exact Apart.nil
  · rintro sb event sb' built step
    cases event with
    | some ino =>
        cases step
        exact built.append ino
    | none =>
        rcases step with ⟨words, same⟩
        constructor
        · exact words
        · rw [hdrCount_congr same]
          exact built.count
        · rw [tableExtents_congr built.count same]
          exact built.apart

/-- The functions on extent tables, as functions on lists of blocks. -/
theorem extent_table_refines (words : sb.Words) (table : IsTable sb.dataBlocks hdr) :
    (∀ idx, osfsExtentLookupBlock sb.dataBlocks hdr idx =
      match (tableBlocks sb.dataBlocks hdr)[idx]? with
      | some block => .ok block
      | none => .error .ENOENT) ∧
    osfsExtentTotalBlocks sb.dataBlocks hdr = (tableBlocks sb.dataBlocks hdr).length ∧
    (∀ ino, AppendsBlock sb ino hdr ↔ ¬Overlong sb hdr) ∧
    ∀ built, Reachable (appending hdr) built →
      Apart extentEnd (tableExtents built.dataBlocks hdr) := by
  refine ⟨osfsExtentLookupBlock_eq table, osfsExtentTotalBlocks_eq table, ?_, ?_⟩
  · intro ino
    constructor
    · intro appends overlong
      exact not_appendsBlock table.count overlong appends
    · exact appendsBlock words table.count
  · intro built reachable
    exact (built_of_reachable reachable).apart

/-- A table in block 1 with one extent from block 1 on, and all blocks free. -/
def withExtent (len : Nat) : SbInfo where
  magic := osfsMagic
  blockSize := blockSize
  inodeCount := inodeCount
  blockCount := dataBlockCount
  nrFreeInodes := inodeCount
  nrFreeBlocks := dataBlockCount
  inodeBitmap _ := false
  blockBitmap _ := false
  inodeTable _ := OsfsInode.zero
  dataBlocks :=
    store32 (startExtent (osfsExtentResetHeader (fun _ => 0) 1024) 1024 0 1)
      (extentAddr 1024 0 + 4) len

theorem words_withExtent (len : Nat) : (withExtent len).Words :=
  ⟨(by decide : dataBlockCount < 2 ^ 32), (by decide : dataBlockCount < 2 ^ 32)⟩

theorem tableExtents_withExtent {len : Nat} (small : len < 2 ^ 32) :
    tableExtents (withExtent len).dataBlocks 1024 = [⟨1, len⟩] := by
  have one : hdrCount (startExtent (osfsExtentResetHeader (fun _ => 0) 1024) 1024 0 1) 1024 =
      0 + 1 := by
    decide +kernel
  have start : (extentAt (startExtent (osfsExtentResetHeader (fun _ => 0) 1024) 1024 0 1)
      1024 0).start = 1 := by
    decide +kernel
  rw [withExtent, tableExtents_lengthen one small, start]
  rfl

theorem isTable_withExtent {len : Nat} (positive : 1 ≤ len) (small : len < 2 ^ 32) :
    IsTable (withExtent len).dataBlocks 1024 := by
  have extents := tableExtents_withExtent small
  have count : hdrCount (withExtent len).dataBlocks 1024 = 1 := by
    have length := congrArg List.length extents
    simpa [tableExtents, loadExtents] using length
  constructor
  · have addr := extentAddr_eq 1024 0
    rw [hdrMagic, withExtent, load32_store32_of_disjoint (by omega)]
    decide +kernel
  · rw [count]
    decide
  · rw [extents]
    simpa using positive
  · rw [extents]
    simpa using small

/-- Two blocks, and then one more. -/
theorem extent_table_refines_twoBlocks :
    osfsExtentTotalBlocks (withExtent 2).dataBlocks 1024 =
        (tableBlocks (withExtent 2).dataBlocks 1024).length ∧
      AppendsBlock (withExtent 2) 3 1024 := by
  have table : IsTable (withExtent 2).dataBlocks 1024 := isTable_withExtent (by decide) (by decide)
  rcases extent_table_refines (words_withExtent 2) table with ⟨_, total, appends, _⟩
  refine ⟨total, (appends 3).mpr ?_⟩
  rintro ⟨last, _, isLast, most, _⟩
  rw [tableExtents_withExtent (by decide), List.getLast?_singleton] at isLast
  cases isLast
  cases most

/-- With 2^32 - 1 blocks in one extent, a block that continues it empties the table. -/
theorem not_appendsBlock_longest :
    (withExtent (2 ^ 32 - 1)).Words ∧ IsTable (withExtent (2 ^ 32 - 1)).dataBlocks 1024 ∧
      ¬AppendsBlock (withExtent (2 ^ 32 - 1)) 3 1024 := by
  have table : IsTable (withExtent (2 ^ 32 - 1)).dataBlocks 1024 :=
    isTable_withExtent (by decide) (by decide)
  refine ⟨words_withExtent _, table, not_appendsBlock table.count ?_⟩
  have extents : tableExtents (withExtent (2 ^ 32 - 1)).dataBlocks 1024 = [⟨1, 2 ^ 32 - 1⟩] :=
    tableExtents_withExtent (by decide)
  refine ⟨⟨1, 2 ^ 32 - 1⟩, 0, ?_, rfl, by decide, by decide⟩
  rw [extents, List.getLast?_singleton]

end NckuOs.Osfs
