import NckuOs.Osfs.Reachable

/-!
# Blocks, bitmaps and counters

The block bitmap of a reachable state is the set of blocks that the directory and
the files own, each owned once, and the two free counters count the clear bits.
-/

set_option maxRecDepth 4000

namespace NckuOs.Osfs

open NckuOs.Bitmap
open NckuOs.ByteMemory
open NckuOs.RunLength
open NckuOs.Transition

/-- A block is in use: by the directory, as a file's table, or in an extent. -/
def BlockUsed (sb : SbInfo) (block : Nat) : Prop :=
  ((sb.inodeTable rootInode).iBlocks ≠ 0 ∧ block = (sb.inodeTable rootInode).iBlock) ∨
    ∃ f ∈ fileInos sb, block = (sb.inodeTable f).iBlock ∨
      ∃ extent ∈ extents sb f, extent.start ≤ block ∧ block < extent.start + extent.len

theorem mem_ownedBlocks_iff {sb : SbInfo} {block : Nat} :
    block ∈ ownedBlocks sb ↔ BlockUsed sb block := by
  have root : block ∈ rootBlocks sb ↔
      (sb.inodeTable rootInode).iBlocks ≠ 0 ∧ block = (sb.inodeTable rootInode).iBlock := by
    unfold rootBlocks
    split
    case isTrue none => simp [none]
    case isFalse some => simp [some]
  rw [ownedBlocks, List.mem_append, root, List.mem_flatMap, BlockUsed]
  simp only [fileBlocks, List.mem_cons, blockMap, mem_expand_iff]

/-- In every reachable state the bitmap marks exactly the blocks in use, no block
is used twice, and no file's table block is block 0, so that ensuring a table
never gives a file another one. -/
theorem blocks_owned_once {sb : SbInfo} (reachable : OsfsReachable sb) :
    (∀ block, block < sb.blockCount ∧ sb.blockBitmap block = true ↔ BlockUsed sb block) ∧
      (ownedBlocks sb).Nodup ∧
      ∀ f ∈ fileInos sb, (sb.inodeTable f).iBlocks ≠ 0 ∧ (sb.inodeTable f).iBlock ≠ 0 ∧
        (resultState (osfsExtentEnsureTable sb f)).inodeTable = sb.inodeTable ∧
        (extents sb f ≠ [] → resultState (osfsExtentEnsureTable sb f) = sb) := by
  have inv := inv_of_reachable reachable
  refine ⟨?_, inv.owned, ?_⟩
  · intro block
    rw [← mem_ownedBlocks_iff, inv.bitmap, inv.blockCount_eq]
  · intro f named
    obtain ⟨sb', ensured, spec⟩ := osfsExtentEnsureTable_spec inv named
    rw [ensured]
    refine ⟨?_, inv.table_ne_zero named, spec.inodes, ?_⟩
    · rw [(inv.fileOk named).blocks]
      exact Nat.ne_of_gt (Nat.add_pos_left Nat.one_pos _)
    · intro live
      apply spec.unchanged
      rcases (inv.fileOk named).table with valid | ⟨zero, _⟩
      · exact valid
      · exact absurd (extents_of_zero (inv.table_lt named) zero) live

/-- Block 0 is the directory's, 1 and 2 are tables, and 3 to 5 the blocks of two files. -/
theorem blocks_owned_once_twoExtents :
    ownedBlocks twoExtents = [0, 1, 3, 5, 2, 4] ∧
      (∀ block, block < twoExtents.blockCount ∧ twoExtents.blockBitmap block = true ↔
        BlockUsed twoExtents block) ∧
      (ownedBlocks twoExtents).Nodup ∧
      ∀ f ∈ fileInos twoExtents, (twoExtents.inodeTable f).iBlocks ≠ 0 ∧
        (twoExtents.inodeTable f).iBlock ≠ 0 ∧
        (resultState (osfsExtentEnsureTable twoExtents f)).inodeTable = twoExtents.inodeTable ∧
        (extents twoExtents f ≠ [] →
          resultState (osfsExtentEnsureTable twoExtents f) = twoExtents) :=
  ⟨by decide +kernel, blocks_owned_once twoExtents_reachable⟩

/-! ## The counters -/

/-- A state in which `osfs_create`, called in `sb`, calls `osfs_new_inode`: the
parent directory has a block, or was just given one. -/
inductive CallsNewInode (sb : SbInfo) : SbInfo → Prop
  | had (allocated : (sb.inodeTable rootInode).iBlocks ≠ 0) : CallsNewInode sb sb
  | given {block : Nat} {sb' : SbInfo} (none : (sb.inodeTable rootInode).iBlocks = 0)
      (allocated : osfsAllocDataBlock sb = .ok block sb') :
      CallsNewInode sb
        (sb'.setInode rootInode { sb'.inodeTable rootInode with iBlock := block, iBlocks := 1 })

theorem CallsNewInode.inv {sb sb' : SbInfo} (calls : CallsNewInode sb sb') (inv : Inv sb) :
    Inv sb' := by
  cases calls with
  | had => exact inv
  | given none allocated =>
      rw [inv.alloc_of_fresh none] at allocated
      obtain ⟨rfl, rfl⟩ := EStateM.Result.ok.inj allocated
      have given := inv_rootBlockState inv none
      simpa [rootBlockState] using given

/-- In every reachable state both counters count the clear bits of their bitmaps,
and when the guard of `osfs_new_inode` lets a call through, the block it needs
later is there. -/
theorem counters_exact {sb : SbInfo} (reachable : OsfsReachable sb) :
    sb.nrFreeBlocks = countClear sb.blockBitmap sb.blockCount ∧
      sb.nrFreeInodes = countClear sb.inodeBitmap sb.inodeCount ∧
      ∀ sbCall, CallsNewInode sb sbCall → sbCall.nrFreeBlocks ≠ 0 →
        ∀ mode cred ino sbTaken, osfsGetFreeInode sbCall = .ok ino sbTaken →
          ∃ block sbAlloc,
            osfsAllocDataBlock (sbTaken.setInode ino (freshOsfsInode mode cred ino)) =
              .ok block sbAlloc := by
  have inv := inv_of_reachable reachable
  refine ⟨?_, ?_, ?_⟩
  · rw [inv.blockCount_eq]
    exact inv.freeBlocks
  · rw [inv.inodeCount_eq]
    exact inv.freeInodes
  · intro sbCall calls free mode cred ino sbTaken taken
    obtain ⟨block, _, _, scan⟩ := (calls.inv inv).alloc_of_free free
    rcases osfsGetFreeInode_cases sbCall with ⟨other, _, _, _, took⟩ | ⟨_, failed⟩
    · rw [took] at taken
      obtain ⟨rfl, rfl⟩ := EStateM.Result.ok.inj taken
      rw [osfsAllocDataBlock, SbInfo.setInode_blockBitmap, SbInfo.setInode_blockCount,
        SbInfo.setInodeMap_blockBitmap, SbInfo.setInodeMap_blockCount, scan]
      exact ⟨block, _, rfl⟩
    · rw [failed] at taken
      cases taken

theorem counters_exact_oneFile :
    oneFile.nrFreeBlocks = countClear oneFile.blockBitmap oneFile.blockCount ∧
      oneFile.nrFreeInodes = countClear oneFile.inodeBitmap oneFile.inodeCount ∧
      ∀ sbCall, CallsNewInode oneFile sbCall → sbCall.nrFreeBlocks ≠ 0 →
        ∀ mode cred ino sbTaken, osfsGetFreeInode sbCall = .ok ino sbTaken →
          ∃ block sbAlloc,
            osfsAllocDataBlock (sbTaken.setInode ino (freshOsfsInode mode cred ino)) =
              .ok block sbAlloc :=
  counters_exact oneFile_reachable

end NckuOs.Osfs
