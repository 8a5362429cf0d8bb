import NckuOs.Lib.Transition
import NckuOs.Osfs.Dir
import NckuOs.Osfs.File

/-!
# Runs of a mounted osfs

The state of the system is the superblock information; its steps are the calls
the VFS makes: create and lookup in the root directory, read and write on a file
that the directory names.  A label records the call with everything the
environment chose (buffers with their faults, whether `new_inode` succeeded) and
the value returned, so that a trace is the full history of a mount.

The directory and the extent tables have no record of their own in the state.
The views below read them off the inode table and the data area.
-/

namespace NckuOs.Osfs

open NckuOs.Bitmap
open NckuOs.ByteMemory
open NckuOs.RunLength
open NckuOs.Transition

/-! ## Views -/

/-- The name in a directory slot. -/
def slotName (mem : Mem) (slot : Nat) : List UInt8 :=
  cstr mem slot (dataEnd - slot)

/-- A directory entry: its name and its inode number. -/
abbrev DirEntry := List UInt8 × Nat

/-- The entries of the root directory, in slot order. -/
def dirEntries (sb : SbInfo) : List DirEntry :=
  (List.range (dirEntryCount sb rootInode)).map fun i =>
    (slotName sb.dataBlocks (dirSlot (dirBase sb rootInode) i),
      slotInodeNo sb.dataBlocks (dirSlot (dirBase sb rootInode) i))

/-- The inode numbers that the directory names. -/
def fileInos (sb : SbInfo) : List Nat :=
  (dirEntries sb).map Prod.snd

/-- A file's extents; a table block without the magic number has none. -/
def extents (sb : SbInfo) (ino : Nat) : List Run :=
  if hdrMagic sb.dataBlocks (osfsGetExtentHeader sb ino) = osfsExtentMagic then
    loadExtents sb.dataBlocks (osfsGetExtentHeader sb ino)
      (hdrCount sb.dataBlocks (osfsGetExtentHeader sb ino))
  else []

/-- A file's data blocks, in logical order. -/
def blockMap (sb : SbInfo) (ino : Nat) : List Nat :=
  expand (extents sb ino)

/-- The extent table block and the data blocks of a file. -/
def fileBlocks (sb : SbInfo) (ino : Nat) : List Nat :=
  (sb.inodeTable ino).iBlock :: blockMap sb ino

theorem table_mem_fileBlocks (sb : SbInfo) (ino : Nat) :
    (sb.inodeTable ino).iBlock ∈ fileBlocks sb ino :=
  List.mem_cons_self

/-- The root directory's block, once it has one. -/
def rootBlocks (sb : SbInfo) : List Nat :=
  if (sb.inodeTable rootInode).iBlocks = 0 then [] else [(sb.inodeTable rootInode).iBlock]

/-- Every block in use, listed once for each use. -/
def ownedBlocks (sb : SbInfo) : List Nat :=
  rootBlocks sb ++ (fileInos sb).flatMap (fileBlocks sb)

/-- The byte at offset `x` of a file, for `x` inside its mapped blocks. -/
def fileByte (sb : SbInfo) (ino x : Nat) : UInt8 :=
  sb.dataBlocks ((blockMap sb ino).getD (x / 1024) 0 * 1024 + x % 1024)

/-- The VFS inode of an open file: `osfs_iget` and `osfs_create` both copy the
mode out of the table and point `i_private` at the slot. -/
def openInode (sb : SbInfo) (ino : Nat) : Inode where
  iIno := ino
  iMode := (sb.inodeTable ino).iMode
  iUid := (sb.inodeTable ino).iUid
  iGid := (sb.inodeTable ino).iGid
  iNlink := (sb.inodeTable ino).iLinksCount
  iPrivate := some ino

/-! ## Steps -/

/-- A call with its outcome. -/
inductive Event
  | create (dentry : QStr) (mode : Nat) (cred : Cred) (newInode : Bool) (ret : Except Errno Nat)
  | lookup (dentry : QStr) (newInode : Bool) (ret : Except Errno (Option Inode))
  | read (ino : Nat) (buf : UserBuf) (len pos : Nat) (ret : Except Errno Nat) (out : List UInt8)
  | write (ino : Nat) (buf : UserBuf) (len pos : Nat) (ret : Except Errno Nat)

/-- The inode number bound by a creation, or its error. -/
def createRet : Outcome Inode → Except Errno Nat
  | .ok inode _ => .ok inode.iIno
  | .error e _ => .error e

/-- The state an operation leaves behind. -/
def resultState {α : Type} : Outcome α → SbInfo
  | .ok _ sb => sb
  | .error _ sb => sb

@[simp]
theorem resultState_ok {α : Type} (value : α) (sb : SbInfo) :
    resultState (EStateM.Result.ok value sb : Outcome α) = sb :=
  rfl

@[simp]
theorem resultState_error {α : Type} (e : Errno) (sb : SbInfo) :
    resultState (EStateM.Result.error e sb : Outcome α) = sb :=
  rfl

/-- The largest `loff_t` plus one; `rw_verify_area` keeps `pos + len` below it. -/
def loffLimit : Nat := 2 ^ 63

/-- One call of the VFS.  `osfs_create` is reached with a regular mode only, and
a file operation with a file that the directory names. -/
inductive Step : SbInfo → Event → SbInfo → Prop
  | create {sb : SbInfo} (dentry : QStr) (mode : Nat) (cred : Cred) (newInode : Bool)
      (regular : sIsreg mode = true) :
      Step sb
        (.create dentry mode cred newInode
          (createRet (osfsCreate sb rootDir dentry mode cred newInode)))
        (resultState (osfsCreate sb rootDir dentry mode cred newInode))
  | lookup {sb : SbInfo} (dentry : QStr) (newInode : Bool) :
      Step sb (.lookup dentry newInode (osfsLookup sb rootInode dentry newInode)) sb
  | read {sb : SbInfo} (ino : Nat) (buf : UserBuf) (len pos : Nat)
      (named : ino ∈ fileInos sb) (inRange : pos + len < loffLimit) :
      Step sb
        (.read ino buf len pos (osfsRead sb (openInode sb ino) buf len pos).ret
          (osfsRead sb (openInode sb ino) buf len pos).out)
        (osfsRead sb (openInode sb ino) buf len pos).sb
  | write {sb : SbInfo} (ino : Nat) (buf : UserBuf) (len pos : Nat)
      (named : ino ∈ fileInos sb) (inRange : pos + len < loffLimit) :
      Step sb
        (.write ino buf len pos (osfsWrite sb (openInode sb ino) buf len pos).ret)
        (osfsWrite sb (openInode sb ino) buf len pos).sb

/-- A mounted osfs: it starts in what a successful `osfs_fill_super` leaves. -/
def osfsSystem : System SbInfo Event where
  init sb := ∃ vmalloc newInode dMakeRoot dir,
    osfsFillSuper vmalloc newInode dMakeRoot = .ok (sb, dir)
  step := Step

/-- The states of a mount. -/
abbrev OsfsReachable (sb : SbInfo) : Prop :=
  Reachable osfsSystem sb

/-- The histories of a mount. -/
abbrev OsfsTrace (events : List Event) (sb : SbInfo) : Prop :=
  Trace osfsSystem events sb

theorem osfsSystem_init_iff {sb : SbInfo} : osfsSystem.init sb ↔ sb = mountedSbInfo := by
  constructor
  · rintro ⟨vmalloc, newInode, dMakeRoot, dir, mounted⟩
    exact (osfsFillSuper_eq_ok_iff.mp mounted).2.1
  · rintro rfl
    exact ⟨true, true, true, rootDir, osfsFillSuper_eq_ok_iff.mpr ⟨⟨rfl, rfl, rfl⟩, rfl, rfl⟩⟩

end NckuOs.Osfs
