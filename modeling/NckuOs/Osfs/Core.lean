import NckuOs.Lib.Bitmap
import NckuOs.Lib.ByteMemory
import NckuOs.Lib.RunLength

/-!
# osfs: constants, records and the kernel services it calls

The superblock information, the inode table and the data area of the memory
filesystem in `lab4`, with the constants of `osfs.h`.  The data area is one flat
byte memory: extent tables, directory slots and file data all live in it and are
reached through computed addresses only.

Block numbers, sizes and counters are `uint32_t` in the source.  They are natural
numbers here, and each place where the source's arithmetic can leave 32 bits goes
through `u32`.  A `loff_t` offset and a `size_t` length are natural numbers as
well: the VFS rejects a call unless `pos + len` fits in a `loff_t`, so neither
ever wraps.
-/

namespace NckuOs.Osfs

open NckuOs.Bitmap
open NckuOs.ByteMemory

/-- `BLOCK_SIZE` of `linux/fs.h`. -/
def blockSize : Nat := 1024

/-- `INODE_COUNT`. -/
def inodeCount : Nat := 20

/-- `DATA_BLOCK_COUNT`. -/
def dataBlockCount : Nat := 20

/-- `MAX_FILENAME_LEN`. -/
def maxFilenameLen : Nat := 255

/-- `ROOT_INODE`. -/
def rootInode : Nat := 1

/-- `sizeof(struct osfs_dir_entry)`: 255 name bytes, one byte of padding and the
32-bit inode number. -/
def sizeofDirEntry : Nat := 260

/-- `offsetof(struct osfs_dir_entry, inode_no)`. -/
def offsetofInodeNo : Nat := 256

/-- `MAX_DIR_ENTRIES`. -/
def maxDirEntries : Nat := blockSize / sizeofDirEntry

/-- `OSFS_MAGIC`. -/
def osfsMagic : Nat := 0x051AB520

/-- `OSFS_EXTENT_MAGIC`. -/
def osfsExtentMagic : Nat := 0x4F534558

/-- `sizeof(struct osfs_extent_header)`. -/
def sizeofExtentHeader : Nat := 8

/-- `sizeof(struct osfs_extent)`. -/
def sizeofExtent : Nat := 8

/-- `OSFS_MAX_EXTENTS`. -/
def osfsMaxExtents : Nat := (blockSize - sizeofExtentHeader) / sizeofExtent

/-- The error codes the modelled functions return, without the sign. -/
inductive Errno
  | ENOENT
  | EIO
  | ENOMEM
  | EFAULT
  | EEXIST
  | EINVAL
  | ENOSPC
  | ENAMETOOLONG
  | EOPNOTSUPP
deriving DecidableEq, Repr

/-- Conversion to `uint32_t`. -/
def u32 (n : Nat) : Nat :=
  n % 2 ^ 32

theorem u32_of_lt {n : Nat} (small : n < 2 ^ 32) : u32 n = n :=
  Nat.mod_eq_of_lt small

theorem u32_lt (n : Nat) : u32 n < 2 ^ 32 :=
  Nat.mod_lt n (by decide)

/-- `x++` on a `uint32_t`. -/
def u32Inc (n : Nat) : Nat :=
  u32 (n + 1)

/-- `x--` on a `uint32_t`. -/
def u32Dec (n : Nat) : Nat :=
  u32 (n + (2 ^ 32 - 1))

theorem u32Dec_of_pos {n : Nat} (positive : 0 < n) (small : n < 2 ^ 32) :
    u32Dec n = n - 1 := by
  unfold u32Dec u32
  omega

theorem u32Inc_u32Dec {n : Nat} (small : n < 2 ^ 32) : u32Inc (u32Dec n) = n := by
  unfold u32Inc u32Dec u32
  omega

/-! ## Records -/

/-- `struct osfs_inode`, without its time stamps, which nothing reads back into
a decision. -/
structure OsfsInode where
  iIno : Nat
  iSize : Nat
  iBlocks : Nat
  iMode : Nat
  iLinksCount : Nat
  iUid : Nat
  iGid : Nat
  iBlock : Nat
deriving DecidableEq, Repr

/-- The all-zero `osfs_inode` that `memset` leaves. -/
def OsfsInode.zero : OsfsInode :=
  ⟨0, 0, 0, 0, 0, 0, 0, 0⟩

/-- `struct osfs_sb_info`, with the memory its four pointers designate in place
of the pointers. -/
structure SbInfo where
  magic : Nat
  blockSize : Nat
  inodeCount : Nat
  blockCount : Nat
  nrFreeInodes : Nat
  nrFreeBlocks : Nat
  inodeBitmap : Bits
  blockBitmap : Bits
  inodeTable : Nat → OsfsInode
  dataBlocks : Mem

/-- The part of the kernel's `struct inode` that osfs reads or sets on a path to
its own data; `i_private` points into the inode table, so it is a table index. -/
structure Inode where
  iIno : Nat
  iMode : Nat
  iUid : Nat
  iGid : Nat
  iNlink : Nat
  iPrivate : Option Nat
deriving DecidableEq, Repr

/-- The owner that `inode_init_owner` gives a new inode. -/
structure Cred where
  uid : Nat
  gid : Nat
deriving DecidableEq, Repr

/-- A name handed over by the VFS: `d_name.name` with `d_name.len`. -/
structure QStr where
  name : List UInt8
  nonempty : name ≠ []
  noNul : 0 ∉ name
deriving DecidableEq

def QStr.len (qstr : QStr) : Nat :=
  qstr.name.length

/-- `S_IFMT`. -/
def sIfmt : Nat := 0o170000

/-- `S_IFDIR`. -/
def sIfdir : Nat := 0o040000

/-- `S_IFREG`. -/
def sIfreg : Nat := 0o100000

/-- `S_IFLNK`. -/
def sIflnk : Nat := 0o120000

def sIsdir (mode : Nat) : Bool := mode &&& sIfmt = sIfdir

def sIsreg (mode : Nat) : Bool := mode &&& sIfmt = sIfreg

def sIslnk (mode : Nat) : Bool := mode &&& sIfmt = sIflnk

namespace SbInfo

/-! Every change of the state goes through one of these setters, so that the
simp set below answers what a field is after any sequence of changes.  The
lemmas are proved by `(rfl)` so that simp applies them as rewrites: checked by
computation, a field of an updated state makes the kernel compare counters. -/

/-- Overwrite one slot of the inode table. -/
def setInode (sb : SbInfo) (ino : Nat) (inode : OsfsInode) : SbInfo :=
  { sb with inodeTable := Function.update sb.inodeTable ino inode }

/-- Overwrite the data area. -/
def setData (sb : SbInfo) (mem : Mem) : SbInfo :=
  { sb with dataBlocks := mem }

/-- Overwrite the block bitmap and its free counter. -/
def setBlockMap (sb : SbInfo) (bits : Bits) (free : Nat) : SbInfo :=
  { sb with blockBitmap := bits, nrFreeBlocks := free }

/-- Overwrite the inode bitmap and its free counter. -/
def setInodeMap (sb : SbInfo) (bits : Bits) (free : Nat) : SbInfo :=
  { sb with inodeBitmap := bits, nrFreeInodes := free }

@[simp]
theorem setInode_self (sb : SbInfo) (ino : Nat) (inode : OsfsInode) :
    (sb.setInode ino inode).inodeTable ino = inode := by
  simp [setInode]

theorem setInode_of_ne {sb : SbInfo} {ino other : Nat} {inode : OsfsInode}
    (ne : other ≠ ino) : (sb.setInode ino inode).inodeTable other = sb.inodeTable other := by
  simp [setInode, ne]

@[simp]
theorem setInode_setInode (sb : SbInfo) (ino : Nat) (first second : OsfsInode) :
    (sb.setInode ino first).setInode ino second = sb.setInode ino second := by
  simp [setInode]

@[simp]
theorem setInode_inodeCount (sb : SbInfo) (ino : Nat) (inode : OsfsInode) :
    (sb.setInode ino inode).inodeCount = sb.inodeCount :=
  (rfl)

@[simp]
theorem setInode_blockCount (sb : SbInfo) (ino : Nat) (inode : OsfsInode) :
    (sb.setInode ino inode).blockCount = sb.blockCount :=
  (rfl)

@[simp]
theorem setInode_nrFreeInodes (sb : SbInfo) (ino : Nat) (inode : OsfsInode) :
    (sb.setInode ino inode).nrFreeInodes = sb.nrFreeInodes :=
  (rfl)

@[simp]
theorem setInode_nrFreeBlocks (sb : SbInfo) (ino : Nat) (inode : OsfsInode) :
    (sb.setInode ino inode).nrFreeBlocks = sb.nrFreeBlocks :=
  (rfl)

@[simp]
theorem setInode_inodeBitmap (sb : SbInfo) (ino : Nat) (inode : OsfsInode) :
    (sb.setInode ino inode).inodeBitmap = sb.inodeBitmap :=
  (rfl)

@[simp]
theorem setInode_blockBitmap (sb : SbInfo) (ino : Nat) (inode : OsfsInode) :
    (sb.setInode ino inode).blockBitmap = sb.blockBitmap :=
  (rfl)

@[simp]
theorem setInode_dataBlocks (sb : SbInfo) (ino : Nat) (inode : OsfsInode) :
    (sb.setInode ino inode).dataBlocks = sb.dataBlocks :=
  (rfl)

@[simp]
theorem setData_inodeCount (sb : SbInfo) (mem : Mem) :
    (sb.setData mem).inodeCount = sb.inodeCount :=
  (rfl)

@[simp]
theorem setData_blockCount (sb : SbInfo) (mem : Mem) :
    (sb.setData mem).blockCount = sb.blockCount :=
  (rfl)

@[simp]
theorem setData_nrFreeInodes (sb : SbInfo) (mem : Mem) :
    (sb.setData mem).nrFreeInodes = sb.nrFreeInodes :=
  (rfl)

@[simp]
theorem setData_nrFreeBlocks (sb : SbInfo) (mem : Mem) :
    (sb.setData mem).nrFreeBlocks = sb.nrFreeBlocks :=
  (rfl)

@[simp]
theorem setData_inodeBitmap (sb : SbInfo) (mem : Mem) :
    (sb.setData mem).inodeBitmap = sb.inodeBitmap :=
  (rfl)

@[simp]
theorem setData_blockBitmap (sb : SbInfo) (mem : Mem) :
    (sb.setData mem).blockBitmap = sb.blockBitmap :=
  (rfl)

@[simp]
theorem setData_inodeTable (sb : SbInfo) (mem : Mem) :
    (sb.setData mem).inodeTable = sb.inodeTable :=
  (rfl)

@[simp]
theorem setData_dataBlocks (sb : SbInfo) (mem : Mem) : (sb.setData mem).dataBlocks = mem :=
  (rfl)

@[simp]
theorem setBlockMap_inodeCount (sb : SbInfo) (bits : Bits) (free : Nat) :
    (sb.setBlockMap bits free).inodeCount = sb.inodeCount :=
  (rfl)

@[simp]
theorem setBlockMap_blockCount (sb : SbInfo) (bits : Bits) (free : Nat) :
    (sb.setBlockMap bits free).blockCount = sb.blockCount :=
  (rfl)

@[simp]
theorem setBlockMap_nrFreeInodes (sb : SbInfo) (bits : Bits) (free : Nat) :
    (sb.setBlockMap bits free).nrFreeInodes = sb.nrFreeInodes :=
  (rfl)

@[simp]
theorem setBlockMap_inodeBitmap (sb : SbInfo) (bits : Bits) (free : Nat) :
    (sb.setBlockMap bits free).inodeBitmap = sb.inodeBitmap :=
  (rfl)

@[simp]
theorem setBlockMap_inodeTable (sb : SbInfo) (bits : Bits) (free : Nat) :
    (sb.setBlockMap bits free).inodeTable = sb.inodeTable :=
  (rfl)

@[simp]
theorem setBlockMap_dataBlocks (sb : SbInfo) (bits : Bits) (free : Nat) :
    (sb.setBlockMap bits free).dataBlocks = sb.dataBlocks :=
  (rfl)

@[simp]
theorem setBlockMap_blockBitmap (sb : SbInfo) (bits : Bits) (free : Nat) :
    (sb.setBlockMap bits free).blockBitmap = bits :=
  (rfl)

@[simp]
theorem setBlockMap_nrFreeBlocks (sb : SbInfo) (bits : Bits) (free : Nat) :
    (sb.setBlockMap bits free).nrFreeBlocks = free :=
  (rfl)

@[simp]
theorem setInodeMap_inodeCount (sb : SbInfo) (bits : Bits) (free : Nat) :
    (sb.setInodeMap bits free).inodeCount = sb.inodeCount :=
  (rfl)

@[simp]
theorem setInodeMap_blockCount (sb : SbInfo) (bits : Bits) (free : Nat) :
    (sb.setInodeMap bits free).blockCount = sb.blockCount :=
  (rfl)

@[simp]
theorem setInodeMap_nrFreeBlocks (sb : SbInfo) (bits : Bits) (free : Nat) :
    (sb.setInodeMap bits free).nrFreeBlocks = sb.nrFreeBlocks :=
  (rfl)

@[simp]
theorem setInodeMap_blockBitmap (sb : SbInfo) (bits : Bits) (free : Nat) :
    (sb.setInodeMap bits free).blockBitmap = sb.blockBitmap :=
  (rfl)

@[simp]
theorem setInodeMap_inodeTable (sb : SbInfo) (bits : Bits) (free : Nat) :
    (sb.setInodeMap bits free).inodeTable = sb.inodeTable :=
  (rfl)

@[simp]
theorem setInodeMap_dataBlocks (sb : SbInfo) (bits : Bits) (free : Nat) :
    (sb.setInodeMap bits free).dataBlocks = sb.dataBlocks :=
  (rfl)

@[simp]
theorem setInodeMap_inodeBitmap (sb : SbInfo) (bits : Bits) (free : Nat) :
    (sb.setInodeMap bits free).inodeBitmap = bits :=
  (rfl)

@[simp]
theorem setInodeMap_nrFreeInodes (sb : SbInfo) (bits : Bits) (free : Nat) :
    (sb.setInodeMap bits free).nrFreeInodes = free :=
  (rfl)

/-! A sequence of changes has a normal form: the data area, the block map and the
inode map innermost, each once, then the inode slots. -/

@[simp]
theorem setInode_setData (sb : SbInfo) (ino : Nat) (inode : OsfsInode) (mem : Mem) :
    (sb.setInode ino inode).setData mem = (sb.setData mem).setInode ino inode :=
  (rfl)

@[simp]
theorem setInode_setBlockMap (sb : SbInfo) (ino : Nat) (inode : OsfsInode) (bits : Bits)
    (free : Nat) :
    (sb.setInode ino inode).setBlockMap bits free = (sb.setBlockMap bits free).setInode ino inode :=
  (rfl)

@[simp]
theorem setInode_setInodeMap (sb : SbInfo) (ino : Nat) (inode : OsfsInode) (bits : Bits)
    (free : Nat) :
    (sb.setInode ino inode).setInodeMap bits free = (sb.setInodeMap bits free).setInode ino inode :=
  (rfl)

@[simp]
theorem setInodeMap_setData (sb : SbInfo) (bits : Bits) (free : Nat) (mem : Mem) :
    (sb.setInodeMap bits free).setData mem = (sb.setData mem).setInodeMap bits free :=
  (rfl)

@[simp]
theorem setInodeMap_setBlockMap (sb : SbInfo) (bits bits' : Bits) (free free' : Nat) :
    (sb.setInodeMap bits free).setBlockMap bits' free' =
      (sb.setBlockMap bits' free').setInodeMap bits free :=
  (rfl)

@[simp]
theorem setInodeMap_setInodeMap (sb : SbInfo) (bits bits' : Bits) (free free' : Nat) :
    (sb.setInodeMap bits free).setInodeMap bits' free' = sb.setInodeMap bits' free' :=
  (rfl)

@[simp]
theorem setBlockMap_setData (sb : SbInfo) (bits : Bits) (free : Nat) (mem : Mem) :
    (sb.setBlockMap bits free).setData mem = (sb.setData mem).setBlockMap bits free :=
  (rfl)

@[simp]
theorem setBlockMap_setBlockMap (sb : SbInfo) (bits bits' : Bits) (free free' : Nat) :
    (sb.setBlockMap bits free).setBlockMap bits' free' = sb.setBlockMap bits' free' :=
  (rfl)

@[simp]
theorem setInodeMap_eta (sb : SbInfo) : sb.setInodeMap sb.inodeBitmap sb.nrFreeInodes = sb :=
  (rfl)

@[simp]
theorem setBlockMap_eta (sb : SbInfo) : sb.setBlockMap sb.blockBitmap sb.nrFreeBlocks = sb :=
  (rfl)

end SbInfo

/-- What an operation returns: a value or a negative error code, and in both
cases the state it leaves behind. -/
abbrev Outcome (α : Type) := EStateM.Result Errno SbInfo α

/-! ## User memory -/

/-- A user buffer: its bytes, and for each offset how many bytes from there on a
copy can touch before it faults. -/
structure UserBuf where
  byte : Nat → UInt8
  reach : Nat → Nat

/-- No copy inside the first `len` bytes faults. -/
def UserBuf.Valid (buf : UserBuf) (len : Nat) : Prop :=
  ∀ off n, off + n ≤ len → n ≤ buf.reach off

/-- How many bytes of an `n`-byte copy at offset `off` are transferred. -/
def UserBuf.copied (buf : UserBuf) (off n : Nat) : Nat :=
  min n (buf.reach off)

/-- `copy_from_user(p, buf + off, n)`: the number of bytes not copied, and the
memory afterwards.  The kernel pads the part it could not copy with zeros. -/
def copyFromUser (mem : Mem) (p : Nat) (buf : UserBuf) (off n : Nat) : Nat × Mem :=
  (n - buf.copied off n,
    store mem p n fun i => if i < buf.copied off n then buf.byte (off + i) else 0)

/-- `copy_to_user(buf + off, p, n)`: the number of bytes not copied, and the bytes
delivered. -/
def copyToUser (mem : Mem) (p : Nat) (buf : UserBuf) (off n : Nat) : Nat × List UInt8 :=
  (n - buf.copied off n, (List.range (buf.copied off n)).map fun i => mem (p + i))

theorem UserBuf.copied_le (buf : UserBuf) (off n : Nat) : buf.copied off n ≤ n :=
  Nat.min_le_left _ _

/-- The byte address of a data block; the product is computed in 32 bits. -/
def blockAddr (block : Nat) : Nat :=
  u32 (block * blockSize)

theorem blockAddr_of_lt {block : Nat} (inArea : block < dataBlockCount) :
    blockAddr block = block * 1024 := by
  unfold dataBlockCount at inArea
  unfold blockAddr u32 blockSize
  omega

end NckuOs.Osfs
