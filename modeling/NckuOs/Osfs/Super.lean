import NckuOs.Osfs.Inode

/-!
# `super.c`: `osfs_fill_super`

The state a mount starts from.  The region that `vmalloc` returns is cleared as
a whole before any field is set, so the data area starts as zeros.
-/

namespace NckuOs.Osfs

open NckuOs.Bitmap
open NckuOs.ByteMemory

/-- The superblock information once the region is cleared, the header fields are
set and the region is partitioned. -/
def clearedSbInfo : SbInfo where
  magic := osfsMagic
  blockSize := blockSize
  inodeCount := inodeCount
  blockCount := dataBlockCount
  nrFreeInodes := inodeCount - 1
  nrFreeBlocks := dataBlockCount
  inodeBitmap := fun _ => false
  blockBitmap := fun _ => false
  inodeTable := fun _ => OsfsInode.zero
  dataBlocks := fun _ => 0

/-- The root directory's VFS inode. -/
def rootDir : Inode where
  iIno := rootInode
  iMode := sIfdir ||| 0o755
  iUid := 0
  iGid := 0
  iNlink := 2
  iPrivate := some rootInode

/-- The state that a successful `osfs_fill_super` leaves. -/
def mountedSbInfo : SbInfo :=
  (clearedSbInfo.setInode rootInode
    { OsfsInode.zero with iIno := rootInode, iMode := rootDir.iMode, iLinksCount := 2 }).setInodeMap
    (setBit clearedSbInfo.inodeBitmap rootInode) clearedSbInfo.nrFreeInodes

/-- `osfs_fill_super`; the three flags say whether `vmalloc`, `new_inode` and
`d_make_root` succeeded. -/
def osfsFillSuper (vmalloc newInode dMakeRoot : Bool) : Except Errno (SbInfo × Inode) :=
  if !vmalloc then .error .ENOMEM
  else if !newInode then .error .ENOMEM
  else
    match osfsGetOsfsInode clearedSbInfo rootInode with
    | none => .error Errno.EIO
    | some _ => if !dMakeRoot then .error .ENOMEM else .ok (mountedSbInfo, rootDir)

/-- The mount succeeds exactly when the kernel refuses none of its requests. -/
theorem osfsFillSuper_eq_ok_iff {vmalloc newInode dMakeRoot : Bool} {sb : SbInfo} {dir : Inode} :
    osfsFillSuper vmalloc newInode dMakeRoot = .ok (sb, dir) ↔
      (vmalloc = true ∧ newInode = true ∧ dMakeRoot = true) ∧
        sb = mountedSbInfo ∧ dir = rootDir := by
  have slot : osfsGetOsfsInode clearedSbInfo rootInode = some rootInode := by decide
  cases vmalloc <;> cases newInode <;> cases dMakeRoot <;>
    simp [osfsFillSuper, slot, eq_comm]

end NckuOs.Osfs
