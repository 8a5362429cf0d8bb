import NckuOs.Osfs.Invariant
import Mathlib.Data.List.TakeWhile

/-!
# The directory as a list of names

The two name scans of `dir.c` compare lengths and then `strncmp` against fixed
slots of the directory block.  On a directory in order they look a name up in the
list of entries, and adding an entry appends to that list.
-/

set_option maxRecDepth 4000

namespace NckuOs.Osfs

open NckuOs.Bitmap
open NckuOs.ByteMemory
open NckuOs.RunLength

section Scan

variable {sb : SbInfo}

theorem Inv.dirBase_eq (inv : Inv sb) : dirBase sb rootInode = 0 := by
  simp [dirBase, inv.rootBlock, blockAddr, u32]

theorem length_dirEntries (sb : SbInfo) :
    (dirEntries sb).length = dirEntryCount sb rootInode := by
  simp [dirEntries]

/-- The directory's size counts its entries. -/
theorem Inv.dirSize_eq (inv : Inv sb) :
    (sb.inodeTable rootInode).iSize = sizeofDirEntry * (dirEntries sb).length := by
  obtain ⟨n, _, size⟩ := inv.dirSize
  rw [length_dirEntries, dirEntryCount, size, Nat.mul_div_cancel_left n (by decide)]

/-- The entry in a slot. -/
theorem Inv.dirEntry_mem (inv : Inv sb) {i : Nat} (below : i < dirEntryCount sb rootInode) :
    (slotName sb.dataBlocks (dirSlot 0 i), slotInodeNo sb.dataBlocks (dirSlot 0 i)) ∈
      dirEntries sb := by
  rw [dirEntries, inv.dirBase_eq]
  exact List.mem_map_of_mem (List.mem_range.mpr below)

/-- The slot of an entry. -/
theorem Inv.slot_of_mem (inv : Inv sb) {entry : DirEntry} (isMem : entry ∈ dirEntries sb) :
    ∃ i < dirEntryCount sb rootInode, slotName sb.dataBlocks (dirSlot 0 i) = entry.1 ∧
      slotInodeNo sb.dataBlocks (dirSlot 0 i) = entry.2 := by
  rw [dirEntries, inv.dirBase_eq] at isMem
  obtain ⟨i, inRange, rfl⟩ := List.mem_map.mp isMem
  exact ⟨i, List.mem_range.mp inRange, rfl, rfl⟩

/-- A used slot lies in the directory block. -/
theorem Inv.slot_end_le (inv : Inv sb) {i : Nat} (below : i < dirEntryCount sb rootInode) :
    dirSlot 0 i + 260 ≤ 1024 := by
  have few := inv.few
  rw [maxDirEntries_eq] at few
  rw [dirSlot_eq]
  omega

/-- The name test is equality of names, prefixes and long names included. -/
theorem Inv.slotMatches_iff (inv : Inv sb) {i : Nat} (below : i < dirEntryCount sb rootInode)
    (dentry : QStr) :
    slotMatches sb.dataBlocks (dirSlot 0 i) dentry.name = true ↔
      slotName sb.dataBlocks (dirSlot 0 i) = dentry.name := by
  have short := inv.shortNames _ (inv.dirEntry_mem below)
  have inBlock := inv.slot_end_le below
  have ends : (cstr sb.dataBlocks (dirSlot 0 i) (dataEnd - dirSlot 0 i)).length <
      dataEnd - dirSlot 0 i := by
    change (slotName sb.dataBlocks (dirSlot 0 i)).length < 255 at short
    change (slotName sb.dataBlocks (dirSlot 0 i)).length < 20480 - dirSlot 0 i
    omega
  rw [slotMatches, Bool.and_eq_true, decide_eq_true_iff]
  exact strncmpEq_iff_cstr dentry.noNul ends

theorem Inv.findSlot_eq_none_iff (inv : Inv sb) {dentry : QStr} :
    findSlot sb rootInode dentry.name = none ↔
      dentry.name ∉ (dirEntries sb).map Prod.fst := by
  rw [findSlot, inv.dirBase_eq, List.find?_eq_none]
  constructor
  · intro noMatch isMem
    obtain ⟨entry, entryMem, nameEq⟩ := List.mem_map.mp isMem
    obtain ⟨i, below, slotEq, _⟩ := inv.slot_of_mem entryMem
    apply noMatch i (List.mem_range.mpr below)
    rw [inv.slotMatches_iff below, slotEq, nameEq]
  · intro notMem i inRange isMatch
    have below := List.mem_range.mp inRange
    rw [inv.slotMatches_iff below] at isMatch
    apply notMem
    rw [← isMatch]
    exact List.mem_map_of_mem (inv.dirEntry_mem below)

theorem Inv.findSlot_eq_some (inv : Inv sb) {dentry : QStr} {i : Nat}
    (found : findSlot sb rootInode dentry.name = some i) :
    (dentry.name, slotInodeNo sb.dataBlocks (dirSlot 0 i)) ∈ dirEntries sb := by
  rw [findSlot, inv.dirBase_eq] at found
  have below := List.mem_range.mp (List.mem_of_find?_eq_some found)
  have isMatch := List.find?_some found
  rw [inv.slotMatches_iff below] at isMatch
  rw [← isMatch]
  exact inv.dirEntry_mem below

/-- Names identify entries. -/
theorem Inv.entry_unique (inv : Inv sb) {name : List UInt8} {ino ino' : Nat}
    (first : (name, ino) ∈ dirEntries sb) (second : (name, ino') ∈ dirEntries sb) : ino = ino' := by
  have equal := List.inj_on_of_nodup_map inv.namesNodup first second rfl
  exact (Prod.mk.inj equal).2

end Scan

/-! ## Writing an entry -/

section Entry

/-- The three stores of `osfs_add_dir_entry`. -/
def entryMem (mem : Mem) (slot : Nat) (dentry : QStr) (inodeNo : Nat) : Mem :=
  let named := store mem slot dentry.len fun i => (dentry.name.takeWhile (· ≠ 0)).getD i 0
  let closed := store named (slot + dentry.len) 1 fun _ => 0
  store32 closed (slot + offsetofInodeNo) inodeNo

variable {mem : Mem} {slot inodeNo : Nat} {dentry : QStr}

/-- `strncpy` meets no NUL in a name. -/
theorem takeWhile_name (dentry : QStr) : dentry.name.takeWhile (· ≠ 0) = dentry.name := by
  rw [List.takeWhile_eq_self_iff]
  intro c isMem
  rw [decide_eq_true_iff]
  rintro rfl
  exact dentry.noNul isMem

theorem entryMem_agree (short : dentry.len < maxFilenameLen) {q k : Nat}
    (disjoint : q + k ≤ slot ∨ slot + 260 ≤ q) :
    Agree mem (entryMem mem slot dentry inodeNo) q k := by
  unfold maxFilenameLen at short
  have offset : slot + offsetofInodeNo = slot + 256 := rfl
  have named : Agree mem
      (store mem slot dentry.len fun i => (dentry.name.takeWhile (· ≠ 0)).getD i 0) q k := by
    apply Agree.store
    omega
  refine named.trans (Agree.trans (Agree.store ?_) (Agree.store ?_))
  · omega
  · omega

theorem slotName_entryMem (short : dentry.len < maxFilenameLen) (inArea : slot + 260 ≤ dataEnd) :
    slotName (entryMem mem slot dentry inodeNo) slot = dentry.name := by
  unfold maxFilenameLen at short
  have offset : slot + offsetofInodeNo = slot + 256 := rfl
  have lenEq : dentry.len = dentry.name.length := rfl
  apply cstr_eq_of_nul dentry.noNul
  · omega
  · intro i below
    simp only [entryMem, store32, takeWhile_name]
    rw [store_of_not_mem (by omega), store_of_not_mem (by omega),
      store_of_mem (by omega) (by omega), Nat.add_sub_cancel_left]
  · simp only [entryMem, store32]
    rw [store_of_not_mem (by omega), store_of_mem (by omega) (by omega)]

theorem slotInodeNo_entryMem (small : inodeNo < 2 ^ 32) :
    slotInodeNo (entryMem mem slot dentry inodeNo) slot = inodeNo := by
  simp only [slotInodeNo, entryMem, load32_store32]
  exact Nat.mod_eq_of_lt small

end Entry

end NckuOs.Osfs
