import NckuOs.Osfs.Reachable

/-!
# Create and lookup agree

The directory of a reachable state lists the successful creations of its history,
in order, and `osfs_lookup` finds exactly those.
-/

set_option maxRecDepth 4000

namespace NckuOs.Osfs

open NckuOs.Bitmap
open NckuOs.ByteMemory
open NckuOs.RunLength
open NckuOs.Transition

/-- The entry that a call adds to the directory. -/
def Event.newEntries : Event → List DirEntry
  | .create dentry _ _ _ (.ok ino) => [(dentry.name, ino)]
  | _ => []

/-- In the history `events`, a creation of the name returned inode number `ino`. -/
def Created (events : List Event) (dentry : QStr) (ino : Nat) : Prop :=
  ∃ mode cred newInode, Event.create dentry mode cred newInode (.ok ino) ∈ events

theorem created_iff {events : List Event} {dentry : QStr} {ino : Nat} :
    Created events dentry ino ↔ (dentry.name, ino) ∈ events.flatMap Event.newEntries := by
  rw [List.mem_flatMap]
  constructor
  · rintro ⟨mode, cred, newInode, isMem⟩
    exact ⟨_, isMem, List.mem_cons_self⟩
  · rintro ⟨event, isMem, isEntry⟩
    cases event with
    | create other mode cred newInode ret =>
        cases ret with
        | error e => exact absurd isEntry List.not_mem_nil
        | ok no =>
            obtain ⟨nameEq, inoEq⟩ := Prod.mk.inj (List.mem_singleton.mp isEntry)
            have same : dentry = other := by
              cases dentry
              cases other
              simpa using nameEq
            rw [same, inoEq]
            exact ⟨mode, cred, newInode, isMem⟩
    | lookup => exact absurd isEntry List.not_mem_nil
    | read => exact absurd isEntry List.not_mem_nil
    | write => exact absurd isEntry List.not_mem_nil

/-- One call appends its entry to the directory. -/
theorem dirEntries_step {sb sb' : SbInfo} {event : Event} (inv : Inv sb)
    (step : Step sb event sb') : dirEntries sb' = dirEntries sb ++ event.newEntries := by
  cases step with
  | create dentry mode cred newInode regular =>
      rw [(osfsCreate_effect inv dentry regular cred newInode).entries]
      generalize createRet (osfsCreate sb rootDir dentry mode cred newInode) = ret
      cases ret <;> rfl
  | lookup => exact (List.append_nil _).symm
  | read ino buf len pos named _ =>
      rw [(osfsRead_result inv named buf len pos).effect.dirEntries_eq inv named]
      exact (List.append_nil _).symm
  | write ino buf len pos named _ =>
      rw [(osfsWrite_result inv named buf len pos).effect.dirEntries_eq inv named]
      exact (List.append_nil _).symm

/-- The directory lists the successful creations, oldest first. -/
theorem dirEntries_of_trace {events : List Event} {sb : SbInfo} (trace : OsfsTrace events sb) :
    dirEntries sb = events.flatMap Event.newEntries := by
  induction trace with
  | start mounted =>
      rw [osfsSystem_init_iff.mp mounted, dirEntries_mountedSbInfo]
      rfl
  | snoc earlier last ih =>
      rw [dirEntries_step (inv_of_trace earlier) last, ih, List.flatMap_append,
        List.flatMap_singleton]

section Lookup

variable {sb : SbInfo} {dentry : QStr}

theorem osfsLookup_of_not_mem (inv : Inv sb)
    (absent : dentry.name ∉ (dirEntries sb).map Prod.fst) (newInode : Bool) :
    osfsLookup sb rootInode dentry newInode = .ok none := by
  rw [osfsLookup, inv.findSlot_eq_none_iff.mpr absent]

/-- The numbers in the directory are inside the inode table, so `osfs_iget` only
fails when `new_inode` does. -/
theorem osfsIget_of_named (inv : Inv sb) {ino : Nat} (named : ino ∈ fileInos sb)
    (newInode : Bool) :
    osfsIget sb ino newInode =
      if newInode then
        .ok
          { iIno := ino
            iMode := (sb.inodeTable ino).iMode
            iUid := (sb.inodeTable ino).iUid
            iGid := (sb.inodeTable ino).iGid
            iNlink := 1
            iPrivate := some ino }
      else .error .ENOMEM := by
  have ok := inv.fileOk named
  have slot : osfsGetOsfsInode sb ino = some ino := by
    apply osfsGetOsfsInode_eq_some
    · exact Nat.lt_of_le_of_lt (Nat.zero_le _) ok.low
    · rw [inv.inodeCount_eq]
      exact ok.high
  rw [osfsIget, slot]

theorem osfsLookup_of_mem (inv : Inv sb) {ino : Nat} (isMem : (dentry.name, ino) ∈ dirEntries sb)
    (newInode : Bool) :
    osfsLookup sb rootInode dentry newInode = (osfsIget sb ino newInode).map some := by
  cases found : findSlot sb rootInode dentry.name with
  | none =>
      have absent := inv.findSlot_eq_none_iff.mp found
      exact absurd (List.mem_map_of_mem (f := Prod.fst) isMem) absent
  | some i =>
      have entry := inv.findSlot_eq_some found
      have inoEq := inv.entry_unique entry isMem
      rw [osfsLookup, found]
      simp only [inv.dirBase_eq, inoEq]
      cases osfsIget sb ino newInode <;> rfl

/-- A lookup that finds an inode finds the one that the directory names. -/
theorem osfsLookup_eq_some_iff (inv : Inv sb) {ino : Nat} :
    (∃ inode, osfsLookup sb rootInode dentry true = .ok (some inode) ∧ inode.iIno = ino) ↔
      (dentry.name, ino) ∈ dirEntries sb := by
  constructor
  · rintro ⟨inode, found, rfl⟩
    by_cases isName : dentry.name ∈ (dirEntries sb).map Prod.fst
    · obtain ⟨⟨name, no⟩, isMem, rfl⟩ := List.mem_map.mp isName
      have named : no ∈ fileInos sb := List.mem_map_of_mem isMem
      rw [osfsLookup_of_mem inv isMem, osfsIget_of_named inv named, if_pos rfl] at found
      cases found
      exact isMem
    · rw [osfsLookup_of_not_mem inv isName] at found
      cases found
  · intro isMem
    have named : ino ∈ fileInos sb := List.mem_map_of_mem isMem
    rw [osfsLookup_of_mem inv isMem, osfsIget_of_named inv named, if_pos rfl]
    exact ⟨_, rfl, rfl⟩

/-- Any other lookup finds nothing, or fails because `new_inode` did. -/
theorem osfsLookup_of_isName (inv : Inv sb)
    (isName : dentry.name ∈ (dirEntries sb).map Prod.fst) (newInode : Bool) :
    (∃ inode, osfsLookup sb rootInode dentry newInode = .ok (some inode)) ∨
      osfsLookup sb rootInode dentry newInode = .error .ENOMEM := by
  obtain ⟨⟨name, no⟩, isMem, rfl⟩ := List.mem_map.mp isName
  have named : no ∈ fileInos sb := List.mem_map_of_mem isMem
  rw [osfsLookup_of_mem inv isMem, osfsIget_of_named inv named]
  cases newInode with
  | true => exact .inl ⟨_, rfl⟩
  | false => exact .inr rfl

theorem osfsLookup_eq_none_iff (inv : Inv sb) {newInode : Bool} :
    osfsLookup sb rootInode dentry newInode = .ok none ↔
      dentry.name ∉ (dirEntries sb).map Prod.fst := by
  constructor
  · intro missed isName
    rcases osfsLookup_of_isName inv isName newInode with ⟨inode, found⟩ | failed
    · rw [found] at missed
      cases missed
    · rw [failed] at missed
      cases missed
  · intro absent
    exact osfsLookup_of_not_mem inv absent newInode

theorem osfsLookup_ne_EFAULT (inv : Inv sb) (newInode : Bool) :
    osfsLookup sb rootInode dentry newInode ≠ .error .EFAULT := by
  by_cases isName : dentry.name ∈ (dirEntries sb).map Prod.fst
  · rcases osfsLookup_of_isName inv isName newInode with ⟨inode, found⟩ | failed
    · simp [found]
    · simp [failed]
  · simp [osfsLookup_of_not_mem inv isName newInode]

end Lookup

/-- After every history, `osfs_lookup` finds a name exactly when a creation of it
succeeded, and finds the number that creation allocated; names and numbers are
distinct, every number is a taken regular inode inside the table, and the size of
the directory counts its entries. -/
theorem lookup_finds_created {events : List Event} {sb : SbInfo} (trace : OsfsTrace events sb) :
    (∀ dentry ino, (∃ inode, osfsLookup sb rootInode dentry true = .ok (some inode) ∧
        inode.iIno = ino) ↔ Created events dentry ino) ∧
      (∀ dentry newInode, osfsLookup sb rootInode dentry newInode = .ok none ↔
        ∀ ino, ¬Created events dentry ino) ∧
      (∀ dentry newInode, osfsLookup sb rootInode dentry newInode ≠ .error .EFAULT) ∧
      ((dirEntries sb).map Prod.fst).Nodup ∧ (fileInos sb).Nodup ∧
      (∀ ino ∈ fileInos sb, rootInode < ino ∧ ino < sb.inodeCount ∧ sb.inodeBitmap ino = true ∧
        sIsreg (sb.inodeTable ino).iMode = true) ∧
      (sb.inodeTable rootInode).iSize = sizeofDirEntry * (dirEntries sb).length ∧
      (sb.inodeTable rootInode).iSize ≤ blockSize := by
  have inv := inv_of_trace trace
  have entries := dirEntries_of_trace trace
  refine ⟨?_, ?_, ?_, inv.namesNodup, inv.inosNodup, ?_, inv.dirSize_eq, ?_⟩
  · intro dentry ino
    rw [created_iff, ← entries]
    exact osfsLookup_eq_some_iff inv
  · intro dentry newInode
    rw [osfsLookup_eq_none_iff inv]
    simp only [created_iff, ← entries, List.mem_map, Prod.exists, exists_and_right,
      exists_eq_right, not_exists]
  · intro dentry newInode
    exact osfsLookup_ne_EFAULT inv newInode
  · intro ino named
    have ok := inv.fileOk named
    refine ⟨ok.low, ?_, ok.taken, ok.regular⟩
    rw [inv.inodeCount_eq]
    exact ok.high
  · have few := inv.few
    rw [maxDirEntries_eq, ← length_dirEntries] at few
    rw [inv.dirSize_eq]
    unfold sizeofDirEntry blockSize
    omega

theorem lookup_finds_created_oneFile :
    ∃ inode, osfsLookup oneFile rootInode nameA true = .ok (some inode) ∧ inode.iIno = 2 :=
  ((lookup_finds_created oneFile_trace).1 nameA 2).mpr
    ⟨0o100644, superuser, true, List.mem_cons_self⟩

end NckuOs.Osfs
