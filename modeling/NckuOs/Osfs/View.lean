import NckuOs.Osfs.System

/-!
# What the views depend on

The directory is read off the first slots of its block, the extents of a file
off its table block.  Each view is therefore unchanged by a change elsewhere,
and these are the only facts about the byte layout that the later files use.
-/

set_option maxRecDepth 4000

namespace NckuOs.Osfs

open NckuOs.Bitmap
open NckuOs.ByteMemory
open NckuOs.RunLength

/-- Two memories agree on a data block. -/
def SameBlock (mem mem' : Mem) (block : Nat) : Prop :=
  Agree mem mem' (block * 1024) 1024

theorem SameBlock.refl (mem : Mem) (block : Nat) : SameBlock mem mem block :=
  Agree.refl mem _ _

theorem SameBlock.trans {first second third : Mem} {block : Nat}
    (left : SameBlock first second block) (right : SameBlock second third block) :
    SameBlock first third block :=
  Agree.trans left right

/-- A store inside one block is invisible in the others. -/
theorem SameBlock.store {mem : Mem} {p block other n : Nat} {bytes : Nat → UInt8} (off : Nat)
    (addr : p = block * 1024 + off) (inside : off + n ≤ 1024) (ne : other ≠ block) :
    SameBlock mem (store mem p n bytes) other := by
  apply Agree.store
  rcases Nat.lt_or_gt_of_ne ne with before | after
  · left
    omega
  · right
    omega

/-- Every byte of a block is zero. -/
def BlockZero (mem : Mem) (block : Nat) : Prop :=
  ∀ a, block * 1024 ≤ a → a < block * 1024 + 1024 → mem a = 0

theorem BlockZero.congr {mem mem' : Mem} {block : Nat} (zero : BlockZero mem block)
    (same : SameBlock mem mem' block) : BlockZero mem' block := by
  intro a low high
  rw [same a low high]
  exact zero a low high

/-! ## Extent tables -/

theorem osfsMaxExtents_eq : osfsMaxExtents = 127 :=
  rfl

theorem extentAddr_eq (hdr i : Nat) : extentAddr hdr i = hdr + 8 + 8 * i :=
  rfl

theorem hdrMagic_congr {mem mem' : Mem} {hdr : Nat} (agree : Agree mem mem' hdr 1024) :
    hdrMagic mem' hdr = hdrMagic mem hdr :=
  load32_congr (agree.mono (by omega) (by omega))

theorem hdrCount_congr {mem mem' : Mem} {hdr : Nat} (agree : Agree mem mem' hdr 1024) :
    hdrCount mem' hdr = hdrCount mem hdr :=
  load32_congr (agree.mono (by omega) (by omega))

theorem extentAt_congr {mem mem' : Mem} {hdr i : Nat}
    (agree : Agree mem mem' (extentAddr hdr i) 8) : extentAt mem' hdr i = extentAt mem hdr i := by
  have start := load32_congr (agree.mono (q := extentAddr hdr i) (k := 4) (by omega) (by omega))
  have len := load32_congr (agree.mono (q := extentAddr hdr i + 4) (k := 4) (by omega) (by omega))
  simp only [extentAt, start, len]

theorem loadExtents_congr {mem mem' : Mem} {hdr n : Nat}
    (agree : ∀ i < n, Agree mem mem' (extentAddr hdr i) 8) :
    loadExtents mem' hdr n = loadExtents mem hdr n := by
  apply List.map_congr_left
  intro i isMem
  exact extentAt_congr (agree i (List.mem_range.mp isMem))

/-- The header of a file's table block is valid. -/
def HeaderValid (sb : SbInfo) (ino : Nat) : Prop :=
  hdrMagic sb.dataBlocks (osfsGetExtentHeader sb ino) = osfsExtentMagic ∧
    hdrCount sb.dataBlocks (osfsGetExtentHeader sb ino) ≤ osfsMaxExtents

theorem extents_of_headerValid {sb : SbInfo} {ino : Nat} (valid : HeaderValid sb ino) :
    extents sb ino =
      loadExtents sb.dataBlocks (osfsGetExtentHeader sb ino)
        (hdrCount sb.dataBlocks (osfsGetExtentHeader sb ino)) := by
  simp [extents, valid.1]

theorem length_extents_of_headerValid {sb : SbInfo} {ino : Nat} (valid : HeaderValid sb ino) :
    (extents sb ino).length = hdrCount sb.dataBlocks (osfsGetExtentHeader sb ino) := by
  rw [extents_of_headerValid valid]
  simp [loadExtents]

/-- A table block of zeros has no magic number. -/
theorem hdrMagic_of_zero {mem : Mem} {block : Nat} (zero : BlockZero mem block) :
    hdrMagic mem (block * 1024) = 0 := by
  apply load32_eq_zero
  intro a low high
  exact zero a low (Nat.lt_of_lt_of_le high (Nat.add_le_add_left (by decide) _))

theorem extents_of_zero {sb : SbInfo} {ino : Nat}
    (inArea : (sb.inodeTable ino).iBlock < dataBlockCount)
    (zero : BlockZero sb.dataBlocks (sb.inodeTable ino).iBlock) : extents sb ino = [] := by
  have magic := hdrMagic_of_zero zero
  have differs : ¬(0 = osfsExtentMagic) := by decide
  simp only [extents, osfsGetExtentHeader, blockAddr_of_lt inArea, magic, if_neg differs]

/-- A file's extents are unchanged when its table block is. -/
theorem extents_congr {sb sb' : SbInfo} {ino : Nat}
    (table : (sb'.inodeTable ino).iBlock = (sb.inodeTable ino).iBlock)
    (inArea : (sb.inodeTable ino).iBlock < dataBlockCount)
    (readable : HeaderValid sb ino ∨ BlockZero sb.dataBlocks (sb.inodeTable ino).iBlock)
    (same : SameBlock sb.dataBlocks sb'.dataBlocks (sb.inodeTable ino).iBlock) :
    extents sb' ino = extents sb ino := by
  rcases readable with valid | zero
  · have hdrEq : osfsGetExtentHeader sb' ino = osfsGetExtentHeader sb ino := by
      simp [osfsGetExtentHeader, table]
    have agree : Agree sb.dataBlocks sb'.dataBlocks (osfsGetExtentHeader sb ino) 1024 := by
      rw [osfsGetExtentHeader, blockAddr_of_lt inArea]
      exact same
    have bounded := valid.2
    simp only [extents, hdrEq, hdrMagic_congr agree, hdrCount_congr agree]
    split
    · apply loadExtents_congr
      intro i below
      apply agree.mono
      · rw [extentAddr_eq]
        omega
      · rw [extentAddr_eq]
        rw [osfsMaxExtents_eq] at bounded
        omega
    · rfl
  · rw [extents_of_zero inArea zero, extents_of_zero (by rw [table]; exact inArea)]
    rw [table]
    exact zero.congr same

/-- Validity of a header is a matter of its block too. -/
theorem HeaderValid.congr {sb sb' : SbInfo} {ino : Nat} (valid : HeaderValid sb ino)
    (table : (sb'.inodeTable ino).iBlock = (sb.inodeTable ino).iBlock)
    (inArea : (sb.inodeTable ino).iBlock < dataBlockCount)
    (same : SameBlock sb.dataBlocks sb'.dataBlocks (sb.inodeTable ino).iBlock) :
    HeaderValid sb' ino := by
  have hdrEq : osfsGetExtentHeader sb' ino = osfsGetExtentHeader sb ino := by
    simp [osfsGetExtentHeader, table]
  have agree : Agree sb.dataBlocks sb'.dataBlocks (osfsGetExtentHeader sb ino) 1024 := by
    rw [osfsGetExtentHeader, blockAddr_of_lt inArea]
    exact same
  unfold HeaderValid
  rw [hdrEq, hdrMagic_congr agree, hdrCount_congr agree]
  exact valid

/-! ## The directory -/

theorem dirSlot_eq (base i : Nat) : dirSlot base i = base + 260 * i :=
  rfl

theorem maxDirEntries_eq : maxDirEntries = 3 :=
  rfl

theorem slotName_congr {mem mem' : Mem} {slot : Nat} (inArea : slot + 260 ≤ dataEnd)
    (short : (slotName mem slot).length < maxFilenameLen) (agree : Agree mem mem' slot 260) :
    slotName mem' slot = slotName mem slot := by
  unfold maxFilenameLen at short
  apply cstr_congr
  · have : (slotName mem slot).length < 255 := short
    change (slotName mem slot).length < dataEnd - slot
    omega
  · apply agree.mono (Nat.le_refl slot)
    change slot + ((slotName mem slot).length + 1) ≤ slot + 260
    omega

theorem slotInodeNo_congr {mem mem' : Mem} {slot : Nat} (agree : Agree mem mem' slot 260) :
    slotInodeNo mem' slot = slotInodeNo mem slot := by
  apply load32_congr
  apply agree.mono
  · exact Nat.le_add_right slot _
  · change slot + 256 + 4 ≤ slot + 260
    omega

/-- The directory's entries are unchanged when its slot in the inode table and
the used part of its block are. -/
theorem dirEntries_congr {sb sb' : SbInfo}
    (block : (sb'.inodeTable rootInode).iBlock = (sb.inodeTable rootInode).iBlock)
    (size : (sb'.inodeTable rootInode).iSize = (sb.inodeTable rootInode).iSize)
    (first : (sb.inodeTable rootInode).iBlock = 0)
    (few : dirEntryCount sb rootInode ≤ maxDirEntries)
    (short : ∀ entry ∈ dirEntries sb, entry.1.length < maxFilenameLen)
    (agree : Agree sb.dataBlocks sb'.dataBlocks 0 (260 * dirEntryCount sb rootInode)) :
    dirEntries sb' = dirEntries sb := by
  have countEq : dirEntryCount sb' rootInode = dirEntryCount sb rootInode := by
    simp [dirEntryCount, size]
  have base : dirBase sb rootInode = 0 := by
    simp [dirBase, first, blockAddr, u32]
  have base' : dirBase sb' rootInode = 0 := by
    simp [dirBase, block, first, blockAddr, u32]
  unfold dirEntries
  rw [countEq, base, base']
  apply List.map_congr_left
  intro i isMem
  have below := List.mem_range.mp isMem
  rw [maxDirEntries_eq] at few
  have slotAgree : Agree sb.dataBlocks sb'.dataBlocks (dirSlot 0 i) 260 := by
    apply agree.mono
    · omega
    · rw [dirSlot_eq]
      omega
  have nameShort : (slotName sb.dataBlocks (dirSlot 0 i)).length < maxFilenameLen := by
    apply short (slotName sb.dataBlocks (dirSlot 0 i), slotInodeNo sb.dataBlocks (dirSlot 0 i))
    rw [dirEntries, base]
    exact List.mem_map_of_mem isMem
  have inArea : dirSlot 0 i + 260 ≤ dataEnd := by
    rw [dirSlot_eq]
    unfold dataEnd dataBlockCount
    omega
  rw [slotName_congr inArea nameShort slotAgree, slotInodeNo_congr slotAgree]

end NckuOs.Osfs
