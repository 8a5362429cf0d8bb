import NckuOs.Osfs.Super

/-!
# `dir.c`: lookup and creation

Directory slots are read and written in the byte memory, at the offsets the
source computes from the directory's block number and size.
-/

namespace NckuOs.Osfs

open NckuOs.Bitmap
open NckuOs.ByteMemory

/-- One past the last byte of the data area. -/
def dataEnd : Nat := dataBlockCount * 1024

/-- Address of `dir_entries[i]`. -/
def dirSlot (base i : Nat) : Nat :=
  base + sizeofDirEntry * i

/-- `strlen(dir_entries[i].filename)`; the scan stops at the end of the data
area at the latest. -/
def slotStrlen (mem : Mem) (slot : Nat) : Nat :=
  (cstr mem slot (dataEnd - slot)).length

/-- The name test shared by lookup and insertion: equal lengths, then
`strncmp`. -/
def slotMatches (mem : Mem) (slot : Nat) (name : List UInt8) : Bool :=
  slotStrlen mem slot = name.length && strncmpEq mem slot name

/-- The directory block, and how many entries its owner's size stands for. -/
def dirBase (sb : SbInfo) (parent : Nat) : Nat :=
  blockAddr (sb.inodeTable parent).iBlock

def dirEntryCount (sb : SbInfo) (parent : Nat) : Nat :=
  (sb.inodeTable parent).iSize / sizeofDirEntry

/-- The first slot that holds `name`. -/
def findSlot (sb : SbInfo) (parent : Nat) (name : List UInt8) : Option Nat :=
  (List.range (dirEntryCount sb parent)).find? fun i =>
    slotMatches sb.dataBlocks (dirSlot (dirBase sb parent) i) name

/-- `dir_entries[i].inode_no`. -/
def slotInodeNo (mem : Mem) (slot : Nat) : Nat :=
  load32 mem (slot + offsetofInodeNo)

/-- `osfs_lookup` in the directory whose table slot is `parent`: no entry, the
entry's inode, or the error of `osfs_iget`. -/
def osfsLookup (sb : SbInfo) (parent : Nat) (dentry : QStr) (newInode : Bool) :
    Except Errno (Option Inode) :=
  match findSlot sb parent dentry.name with
  | none => .ok none
  | some i =>
      match osfsIget sb (slotInodeNo sb.dataBlocks (dirSlot (dirBase sb parent) i)) newInode with
      | .error e => .error e
      | .ok inode => .ok (some inode)

/-- The VFS inode that `osfs_new_inode` fills in for inode number `ino`. -/
def freshInode (mode : Nat) (cred : Cred) (ino : Nat) : Inode where
  iIno := ino
  iMode := mode
  iUid := cred.uid
  iGid := cred.gid
  iNlink := if sIsdir mode then 2 else 1
  iPrivate := some ino

/-- The table slot before its data block is allocated. -/
def freshOsfsInode (mode : Nat) (cred : Cred) (ino : Nat) : OsfsInode :=
  { OsfsInode.zero with
    iIno := ino, iMode := mode, iUid := cred.uid, iGid := cred.gid, iBlocks := 1 }

/-- `osfs_new_inode`; `newInode` says whether the kernel's `new_inode` returned
an inode. -/
def osfsNewInode (sb : SbInfo) (mode : Nat) (cred : Cred) (newInode : Bool) : Outcome Inode :=
  if !sIsdir mode && !sIsreg mode && !sIslnk mode then .error .EINVAL sb
  else if sb.nrFreeInodes = 0 ∨ sb.nrFreeBlocks = 0 then .error .ENOSPC sb
  else
    match osfsGetFreeInode sb with
    | .error _ sb => .error .ENOSPC sb
    | .ok ino sb =>
        -- The number stays taken here: this return has no `clear_bit`.
        if !newInode then .error .ENOMEM sb
        else
          match osfsGetOsfsInode sb ino with
          | none => .error Errno.EIO sb
          | some slot =>
              match osfsAllocDataBlock (sb.setInode slot (freshOsfsInode mode cred ino)) with
              | .error e sb => .error e sb
              | .ok block sb =>
                  .ok { freshInode mode cred ino with iPrivate := some slot }
                    ((sb.setInode slot { freshOsfsInode mode cred ino with iBlock := block })
                      |>.setInodeMap sb.inodeBitmap (u32Dec sb.nrFreeInodes))

/-- `osfs_add_dir_entry`.  `strncpy` copies up to the first NUL of the name and
pads with NULs. -/
def osfsAddDirEntry (sb : SbInfo) (parent inodeNo : Nat) (dentry : QStr) : Outcome Unit :=
  let count := dirEntryCount sb parent
  let slot := dirSlot (dirBase sb parent) count
  if count ≥ maxDirEntries then .error .ENOSPC sb
  else
    match findSlot sb parent dentry.name with
    | some _ => .error .EEXIST sb
    | none =>
        let named := store sb.dataBlocks slot dentry.len fun i =>
          (dentry.name.takeWhile (· ≠ 0)).getD i 0
        let closed := store named (slot + dentry.len) 1 fun _ => 0
        let filled := store32 closed (slot + offsetofInodeNo) inodeNo
        let dir := sb.inodeTable parent
        .ok ()
          ((sb.setData filled).setInode parent
            { dir with iSize := u32 (dir.iSize + sizeofDirEntry) })

/-- Steps 3 and 4 of `osfs_create`: fill in the new inode's table slot, enter it
in the directory, and undo both allocations when the directory refuses it. -/
def osfsCreateFinish (sb : SbInfo) (parent : Nat) (dentry : QStr) (inode : Inode) (slot : Nat)
    (allocatedBlock : Nat) : Outcome Inode :=
  let osfsInode :=
    { sb.inodeTable slot with
      iBlock := allocatedBlock
      iBlocks := 1
      iSize := 0
      iMode := inode.iMode
      iUid := inode.iUid
      iGid := inode.iGid
      iLinksCount := inode.iNlink }
  match osfsAddDirEntry (sb.setInode slot osfsInode) parent inode.iIno dentry with
  | .ok _ sb => .ok inode sb
  | .error e sb =>
      let freed :=
        if (sb.inodeTable slot).iBlocks ≠ 0 then
          osfsFreeDataBlock sb (sb.inodeTable slot).iBlock
        else sb
      .error e
        (freed.setInodeMap (clearBit freed.inodeBitmap inode.iIno) (u32Inc freed.nrFreeInodes))

/-- `osfs_create` after the parent directory has its block. -/
def osfsCreateIn (sb : SbInfo) (parent : Nat) (dentry : QStr) (mode : Nat) (cred : Cred)
    (newInode : Bool) : Outcome Inode :=
  match osfsNewInode sb mode cred newInode with
  | .error e sb => .error e sb
  | .ok inode sb =>
      let sb := sb.setInodeMap sb.inodeBitmap (u32Inc sb.nrFreeInodes)
      match inode.iPrivate with
      | none => .error Errno.EIO sb
      | some slot =>
          let allocatedBlock := (sb.inodeTable slot).iBlock
          let hadAllocatedBlock := (sb.inodeTable slot).iBlocks ≠ 0
          let sb := sb.setInode slot
            { sb.inodeTable slot with iBlock := 0, iSize := 0, iBlocks := 0 }
          if allocatedBlock = 0 ∧ ¬hadAllocatedBlock then
            match osfsAllocDataBlock sb with
            | .error e sb =>
                .error e
                  (sb.setInodeMap (clearBit sb.inodeBitmap inode.iIno) (u32Inc sb.nrFreeInodes))
            | .ok block sb => osfsCreateFinish sb parent dentry inode slot block
          else osfsCreateFinish sb parent dentry inode slot allocatedBlock

/-- `osfs_create` in the directory `dir`; the result is the inode bound to the
dentry. -/
def osfsCreate (sb : SbInfo) (dir : Inode) (dentry : QStr) (mode : Nat) (cred : Cred)
    (newInode : Bool) : Outcome Inode :=
  match dir.iPrivate with
  | none => .error Errno.EIO sb
  | some parent =>
      if dentry.len ≥ maxFilenameLen then .error .ENAMETOOLONG sb
      else if (sb.inodeTable parent).iBlocks = 0 then
        match osfsAllocDataBlock sb with
        | .error e sb => .error e sb
        | .ok block sb =>
            let owner := { sb.inodeTable parent with iBlock := block, iBlocks := 1 }
            osfsCreateIn (sb.setInode parent owner) parent dentry mode cred newInode
      else osfsCreateIn sb parent dentry mode cred newInode

end NckuOs.Osfs
