import NckuOs.Osfs.Core

/-!
# `inode.c`: inode numbers, data blocks and `osfs_iget`

Each function is followed by what a call can do.  Later files use these case
lemmas and do not unfold the functions.
-/

namespace NckuOs.Osfs

open NckuOs.Bitmap

/-- `osfs_get_osfs_inode`: the table slot of an inode number, as an index. -/
def osfsGetOsfsInode (sb : SbInfo) (ino : Nat) : Option Nat :=
  if ino = 0 ∨ ino ≥ sb.inodeCount then none else some ino

/-- `osfs_get_free_inode`. -/
def osfsGetFreeInode (sb : SbInfo) : Outcome Nat :=
  match firstClear sb.inodeBitmap 1 sb.inodeCount with
  | some ino =>
      .ok ino (sb.setInodeMap (setBit sb.inodeBitmap ino) (u32Dec sb.nrFreeInodes))
  | none => .error .ENOSPC sb

/-- `osfs_alloc_data_block`; the block number stored through `block_no` is the
result. -/
def osfsAllocDataBlock (sb : SbInfo) : Outcome Nat :=
  match firstClear sb.blockBitmap 0 sb.blockCount with
  | some block =>
      .ok block (sb.setBlockMap (setBit sb.blockBitmap block) (u32Dec sb.nrFreeBlocks))
  | none => .error .ENOSPC sb

/-- `osfs_free_data_block`. -/
def osfsFreeDataBlock (sb : SbInfo) (block : Nat) : SbInfo :=
  sb.setBlockMap (clearBit sb.blockBitmap block) (u32Inc sb.nrFreeBlocks)

/-- `osfs_iget`; `newInode` says whether the kernel's `new_inode` returned an
inode. -/
def osfsIget (sb : SbInfo) (ino : Nat) (newInode : Bool) : Except Errno Inode :=
  match osfsGetOsfsInode sb ino with
  | none => .error .EFAULT
  | some slot =>
      if newInode then
        .ok
          { iIno := ino
            iMode := (sb.inodeTable slot).iMode
            iUid := (sb.inodeTable slot).iUid
            iGid := (sb.inodeTable slot).iGid
            iNlink := 1
            iPrivate := some slot }
      else
        .error .ENOMEM

theorem osfsGetOsfsInode_eq_some {sb : SbInfo} {ino : Nat} (positive : 0 < ino)
    (below : ino < sb.inodeCount) : osfsGetOsfsInode sb ino = some ino := by
  have inside : ¬(ino = 0 ∨ ino ≥ sb.inodeCount) := by omega
  simp [osfsGetOsfsInode, inside]

/-- A free counter that counts the clear bits still does when one is taken. -/
theorem u32Dec_countClear {bits : Bits} {n i : Nat} (below : i < n) (small : n < 2 ^ 32)
    (clear : bits i = false) :
    u32Dec (countClear bits n) + 1 = countClear bits n ∧
      u32Dec (countClear bits n) = countClear (setBit bits i) n := by
  have freed := countClear_setBit below clear
  have bound := countClear_le bits n
  have lowered : u32Dec (countClear bits n) = countClear bits n - 1 :=
    u32Dec_of_pos (by omega) (by omega)
  omega

/-- Either an inode number that was clear is handed out, or none is left and
nothing changes. -/
theorem osfsGetFreeInode_cases (sb : SbInfo) :
    (∃ ino, 1 ≤ ino ∧ ino < sb.inodeCount ∧ sb.inodeBitmap ino = false ∧
      osfsGetFreeInode sb =
        .ok ino (sb.setInodeMap (setBit sb.inodeBitmap ino) (u32Dec sb.nrFreeInodes))) ∨
    ((∀ ino, 1 ≤ ino → ino < sb.inodeCount → sb.inodeBitmap ino = true) ∧
      osfsGetFreeInode sb = .error .ENOSPC sb) := by
  cases scan : firstClear sb.inodeBitmap 1 sb.inodeCount with
  | some ino =>
      obtain ⟨low, high, clear⟩ := firstClear_spec scan
      exact .inl ⟨ino, low, high, clear, by simp [osfsGetFreeInode, scan]⟩
  | none => exact .inr ⟨firstClear_eq_none_iff.mp scan, by simp [osfsGetFreeInode, scan]⟩

/-- Either the first clear block is handed out, or none is left and nothing changes. -/
theorem osfsAllocDataBlock_cases (sb : SbInfo) :
    (∃ block, firstClear sb.blockBitmap 0 sb.blockCount = some block ∧
      osfsAllocDataBlock sb =
        .ok block (sb.setBlockMap (setBit sb.blockBitmap block) (u32Dec sb.nrFreeBlocks))) ∨
    ((∀ block < sb.blockCount, sb.blockBitmap block = true) ∧
      osfsAllocDataBlock sb = .error .ENOSPC sb) := by
  cases scan : firstClear sb.blockBitmap 0 sb.blockCount with
  | some block => exact .inl ⟨block, rfl, by simp [osfsAllocDataBlock, scan]⟩
  | none =>
      refine .inr ⟨?_, by simp [osfsAllocDataBlock, scan]⟩
      intro block below
      exact firstClear_eq_none_iff.mp scan block (Nat.zero_le block) below

end NckuOs.Osfs
