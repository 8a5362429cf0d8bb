import NckuOs.Osfs.Names
import NckuOs.Osfs.Sequential
import NckuOs.Osfs.Volume

/-!
# osfs refines its volume

The volume of a reachable state, and each call as the volume's operation on it.
-/

set_option maxRecDepth 4000

namespace NckuOs.Osfs

open NckuOs.Bitmap
open NckuOs.ByteMemory
open NckuOs.RunLength
open NckuOs.Transition

/-- A directory entry with what its inode says and what its blocks hold. -/
def volumeFile (sb : SbInfo) (entry : DirEntry) : VolumeFile where
  name := entry.1
  ino := entry.2
  mode := (sb.inodeTable entry.2).iMode
  owner := ⟨(sb.inodeTable entry.2).iUid, (sb.inodeTable entry.2).iGid⟩
  view := fileView sb entry.2

def volume (sb : SbInfo) : Volume where
  nextIno := inodeCount + 1 - sb.nrFreeInodes
  freeBlocks := sb.nrFreeBlocks
  files := (dirEntries sb).map (volumeFile sb)

section View

variable {sb sb' : SbInfo} {f : Nat}

theorem volume_find (named : f ∈ fileInos sb) :
    ∃ name, (volume sb).find f = some (volumeFile sb (name, f)) := by
  have scan : (volume sb).find f =
      ((dirEntries sb).find? fun entry => entry.2 = f).map (volumeFile sb) := by
    simp only [Volume.find, volume, List.find?_map]
    rfl
  cases found : (dirEntries sb).find? fun entry => entry.2 = f with
  | none =>
      rcases List.mem_map.mp named with ⟨entry, isMem, isFile⟩
      have other := List.find?_eq_none.mp found entry isMem
      simp [isFile] at other
  | some entry =>
      have isFile : entry.2 = f := by simpa using List.find?_some found
      refine ⟨entry.1, ?_⟩
      rw [scan, found, ← isFile]
      rfl

theorem FileEffect.refl (inv : Inv sb) (f : Nat) : FileEffect f sb sb :=
  ⟨inv, [], .of_same_map rfl rfl rfl rfl rfl (fun _ _ => rfl) rfl rfl rfl
    fun block _ => SameBlock.refl _ block⟩

/-- The volume after a call on one file. -/
theorem volume_of_fileEffect (inv : Inv sb) (named : f ∈ fileInos sb)
    (effect : FileEffect f sb sb') (owner : SameOwner f sb sb') :
    volume sb' =
      { (volume sb).setView f (fileView sb' f) with freeBlocks := sb'.nrFreeBlocks } := by
  rcases effect.step with ⟨_, step⟩
  have files : (dirEntries sb).map (volumeFile sb') =
      ((dirEntries sb).map (volumeFile sb)).map fun file =>
        if file.ino = f then { file with view := fileView sb' f } else file := by
    rw [List.map_map]
    apply List.map_congr_left
    intro entry isMem
    have entryNamed : entry.2 ∈ fileInos sb := List.mem_map_of_mem isMem
    by_cases isFile : entry.2 = f
    · simp only [Function.comp, volumeFile, isFile, if_true, step.iMode_eq, owner.uid, owner.gid]
    · simp only [Function.comp, volumeFile, isFile, if_false, effect.other_slot isFile,
        effect.other_fileView inv named entryNamed isFile]
  simp only [volume, Volume.setView, step.nrFreeInodes_eq, effect.dirEntries_eq inv named, files]

end View

/-! ## Reading and writing -/

section Files

variable {sb : SbInfo} {f len pos : Nat} {buf : UserBuf}

theorem ReadOutput.read_eq {view : FileView} {ret : Except Errno Nat} {ppos : Nat}
    {out : List UInt8} (output : ReadOutput view buf len pos ret ppos out) :
    view.read buf len pos = (ret, out) := by
  unfold FileView.read
  cases output with
  | behind atEnd => rw [if_pos atEnd]
  | done inFile passes =>
      rw [if_neg (Nat.not_le.mpr inFile), stopOf_eq_none_iff.mpr passes]
  | stopped inFile stopsAt =>
      rw [if_neg (Nat.not_le.mpr inFile), stopOf_of_stopsAt stopsAt]

theorem volume_read (inv : Inv sb) (named : f ∈ fileInos sb) :
    (volume sb).read f buf len pos =
        ((osfsRead sb (openInode sb f) buf len pos).ret,
          (osfsRead sb (openInode sb f) buf len pos).out) ∧
      volume (osfsRead sb (openInode sb f) buf len pos).sb = volume sb := by
  have result := osfsRead_result inv named buf len pos
  have owner : SameOwner f sb (osfsRead sb (openInode sb f) buf len pos).sb :=
    .of_slot (congrFun (osfsRead_inodeTable ..) f)
  rcases volume_find named with ⟨name, found⟩
  constructor
  · rw [Volume.read, found]
    exact result.output.read_eq
  · have kept : (volume sb).setView f (fileView sb f) = volume sb := by
      exact (volume_of_fileEffect inv named (.refl inv f) (.of_slot rfl)).symm
    rw [volume_of_fileEffect inv named result.effect owner, result.free, result.view_eq]
    exact kept

theorem WriteResult.write_eq {r : IoResult} (result : WriteResult sb f buf len pos r) :
    (fileView sb f).write (room sb f) buf len pos = (r.ret, fileView r.sb f) ∧
      r.sb.nrFreeBlocks + (fileView r.sb f).blocks = sb.nrFreeBlocks + (fileView sb f).blocks := by
  unfold FileView.write
  cases result with
  | gap positive beyond progress =>
      refine ⟨?_, progress.free⟩
      rw [if_pos ⟨positive, beyond⟩, progress.view_eq]
  | done within passes progress =>
      refine ⟨?_, progress.free⟩
      have noGap : ¬(0 < len ∧ (fileView sb f).blocks < filePos pos / 1024) := by
        omega
      rw [if_neg noGap, stopOf_eq_none_iff.mpr passes, progress.view_eq]
  | stopped within stopsAt progress =>
      refine ⟨?_, progress.free⟩
      have noGap : ¬(0 < len ∧ (fileView sb f).blocks < filePos pos / 1024) := by
        omega
      rw [if_neg noGap, stopOf_of_stopsAt stopsAt, progress.view_eq]

theorem sameOwner_keptByWrite (first : SbInfo) (f : Nat) :
    KeptByWrite f (SameOwner f first) where
  append sb sb' block _ owner _ appended _ :=
    owner.trans ⟨by rw [appended.slot], by rw [appended.slot]⟩
  same sb sb' _ same owner := owner.trans same

theorem volume_write (inv : Inv sb) (named : f ∈ fileInos sb) :
    (volume sb).write f buf len pos =
      ((osfsWrite sb (openInode sb f) buf len pos).ret,
        volume (osfsWrite sb (openInode sb f) buf len pos).sb) := by
  have result := osfsWrite_result inv named buf len pos
  have owner := (sameOwner_keptByWrite sb f).osfsWrite inv named (.of_slot rfl) buf len pos
  rcases result.write_eq with ⟨wrote, free⟩
  rcases volume_find named with ⟨name, found⟩
  have view : (volumeFile sb (name, f)).view = fileView sb f := rfl
  have blocks : (volume sb).freeBlocks = sb.nrFreeBlocks := rfl
  have roomEq : (fileView sb f).blocks + sb.nrFreeBlocks = room sb f := rfl
  have freeEq : (osfsWrite sb (openInode sb f) buf len pos).sb.nrFreeBlocks =
      sb.nrFreeBlocks + (fileView sb f).blocks -
        (fileView (osfsWrite sb (openInode sb f) buf len pos).sb f).blocks := by
    omega
  simp only [Volume.write, found, view, blocks, roomEq, wrote]
  rw [volume_of_fileEffect inv named result.effect owner, freeEq]

end Files

/-! ## Creating -/

section Create

variable {sb sb' : SbInfo} {dentry : QStr} {mode : Nat} {cred : Cred} {newInode : Bool}

/-- A directory scan reads the owner's slot and the data area. -/
theorem dirScan_congr {parent : Nat} (owner : sb'.inodeTable parent = sb.inodeTable parent)
    (data : sb'.dataBlocks = sb.dataBlocks) (name : List UInt8) :
    dirEntryCount sb' parent = dirEntryCount sb parent ∧
      findSlot sb' parent name = findSlot sb parent name := by
  have count : dirEntryCount sb' parent = dirEntryCount sb parent := by
    simp only [dirEntryCount, owner]
  refine ⟨count, ?_⟩
  simp only [findSlot, count, dirBase, owner, data]

theorem osfsCreateFinish_ret {parent slot : Nat} (ne : parent ≠ slot) (sb : SbInfo)
    (dentry : QStr) (inode : Inode) (block : Nat) :
    createRet (osfsCreateFinish sb parent dentry inode slot block) =
      if maxDirEntries ≤ dirEntryCount sb parent then .error .ENOSPC
      else if (findSlot sb parent dentry.name).isSome then .error .EEXIST
      else .ok inode.iIno := by
  unfold osfsCreateFinish
  dsimp only
  generalize written : sb.setInode slot _ = filled
  have owner : filled.inodeTable parent = sb.inodeTable parent := by
    rw [← written, SbInfo.setInode_of_ne ne]
  have data : filled.dataBlocks = sb.dataBlocks := by
    rw [← written, SbInfo.setInode_dataBlocks]
  rcases dirScan_congr owner data dentry.name with ⟨count, scan⟩
  simp only [osfsAddDirEntry, count, scan]
  by_cases full : maxDirEntries ≤ dirEntryCount sb parent
  · rw [if_pos full, if_pos full]
    rfl
  · rw [if_neg full, if_neg full]
    cases findSlot sb parent dentry.name <;> rfl

/-- What a creation leaves follows from what it returns. -/
theorem Volume.createIn_snd (volume : Volume) (dentry : QStr) (mode : Nat) (cred : Cred)
    (newInode : Bool) :
    (volume.createIn dentry mode cred newInode).2 =
      match (volume.createIn dentry mode cred newInode).1 with
      | .ok ino =>
          { nextIno := volume.nextIno + 1
            freeBlocks := volume.freeBlocks - 1
            files := volume.files ++ [⟨dentry.name, ino, mode, cred, .empty⟩] }
      | .error .ENOMEM => { volume with nextIno := volume.nextIno + 1 }
      | .error _ => volume := by
  unfold createIn
  split_ifs <;> rfl

theorem SameFiles.volume_eq (same : SameFiles sb sb') :
    volume sb' = { volume sb with nextIno := inodeCount + 1 - sb'.nrFreeInodes } := by
  have files : (dirEntries sb').map (volumeFile sb') = (dirEntries sb).map (volumeFile sb) := by
    rw [same.dirEntries_eq]
    apply List.map_congr_left
    intro entry isMem
    have named : entry.2 ∈ fileInos sb := List.mem_map_of_mem isMem
    simp only [volumeFile, same.files_eq _ named, same.fileView_eq named]
  simp only [volume, files, same.nrFreeBlocks_eq]

/-- A number that is taken is the next one no more. -/
theorem Inv.nextIno_taken (inv : Inv sb) {ino : Nat} (high : ino < inodeCount)
    (clear : sb.inodeBitmap ino = false) :
    inodeCount + 1 - u32Dec sb.nrFreeInodes = (volume sb).nextIno + 1 := by
  have lowered := (u32Dec_countClear high (by decide) clear).1
  have bound := countClear_le sb.inodeBitmap inodeCount
  rw [← inv.freeInodes] at lowered bound
  change _ = inodeCount + 1 - sb.nrFreeInodes + 1
  omega

theorem Creates.volume_eq {ino block : Nat} (creates : Creates sb dentry mode ino block) :
    volume (createdState sb dentry mode cred ino block) =
      { nextIno := (volume sb).nextIno + 1
        freeBlocks := (volume sb).freeBlocks - 1
        files := (volume sb).files ++ [⟨dentry.name, ino, mode, cred, .empty⟩] } := by
  have next := creates.inv.nextIno_taken creates.high creates.clear
  have free := (u32Dec_nrFreeBlocks creates.inv creates.inArea creates.blockClear).1
  have old : (dirEntries sb).map (volumeFile (createdState sb dentry mode cred ino block)) =
      (dirEntries sb).map (volumeFile sb) := by
    apply List.map_congr_left
    intro entry isMem
    have named : entry.2 ∈ fileInos sb := List.mem_map_of_mem isMem
    simp only [volumeFile, creates.old_slot named, creates.old_fileView named]
  have new : volumeFile (createdState sb dentry mode cred ino block) (dentry.name, ino) =
      ⟨dentry.name, ino, mode, cred, .empty⟩ := by
    simp only [volumeFile, creates.new_slot, creates.new_fileView]
    rfl
  have nextEq : (volume (createdState sb dentry mode cred ino block)).nextIno =
      (volume sb).nextIno + 1 := by
    rw [← next]
    simp [volume, createdState]
  have freeEq : (volume (createdState sb dentry mode cred ino block)).freeBlocks =
      (volume sb).freeBlocks - 1 := by
    simp only [volume, createdState, SbInfo.setInode_nrFreeBlocks, SbInfo.setInodeMap_nrFreeBlocks,
      SbInfo.setBlockMap_nrFreeBlocks]
    omega
  have filesEq : (volume (createdState sb dentry mode cred ino block)).files =
      (volume sb).files ++ [⟨dentry.name, ino, mode, cred, .empty⟩] := by
    simp only [volume, creates.dirEntries_eq, List.map_append, List.map_singleton, old, new]
  rw [← nextEq, ← freeEq, ← filesEq]

section InDir

variable (inv : Inv sb) (layout : Sequential sb)
include inv layout

theorem nextIno_of_firstClear {ino : Nat}
    (first : firstClear sb.inodeBitmap 1 inodeCount = some ino) : ino = (volume sb).nextIno :=
  (layout.filled inv).1.eq_of_firstClear first

/-- A clear number and a clear block are what a creation needs. -/
theorem not_exhausted {ino : Nat} (low : 1 ≤ ino) (high : ino < inodeCount)
    (clear : sb.inodeBitmap ino = false) (free : sb.nrFreeBlocks ≠ 0) :
    ¬(inodeCount ≤ (volume sb).nextIno ∨ (volume sb).freeBlocks = 0) := by
  have filled : FilledFrom 1 (volume sb).nextIno sb.inodeBitmap := (layout.filled inv).1
  rintro (full | noBlock)
  · have taken := (filled.2 ino).mpr ⟨low, Nat.lt_of_lt_of_le high full⟩
    rw [clear] at taken
    exact Bool.false_ne_true taken
  · exact free noBlock

theorem osfsCreateIn_ret (regular : sIsreg mode = true) :
    createRet (osfsCreateIn sb rootInode dentry mode cred newInode) =
      ((volume sb).createIn dentry mode cred newInode).1 := by
  have first := osfsNewInode_takesFirst sb mode cred newInode
  have result := osfsNewInode_result inv regular cred newInode
  have filled : FilledFrom 1 (volume sb).nextIno sb.inodeBitmap := (layout.filled inv).1
  rw [osfsCreateIn]
  generalize osfsNewInode sb mode cred newInode = r at first result ⊢
  cases result with
  | refused exhausted =>
      have guard : inodeCount ≤ (volume sb).nextIno ∨ (volume sb).freeBlocks = 0 := by
        rcases exhausted with full | noBlock
        · left
          by_contra below
          have taken := full (volume sb).nextIno filled.1 (Nat.not_le.mp below)
          exact Nat.lt_irrefl _ ((filled.2 _).mp taken).2
        · exact .inr noBlock
      rw [Volume.createIn, if_pos guard]
      rfl
  | @lost ino low high clear free failed =>
      rw [Volume.createIn, if_neg (not_exhausted inv layout low high clear free), if_pos failed]
      rfl
  | @made ino block low high clear inArea blockClear given =>
      have free : sb.nrFreeBlocks ≠ 0 := by
        have counted := (u32Dec_countClear inArea (by decide) blockClear).1
        rw [← inv.freeBlocks] at counted
        omega
      have isNext : ino = (volume sb).nextIno := by
        have taken := first.inode ino
        rw [resultState_ok, newInodeState, SbInfo.setInode_inodeBitmap,
          SbInfo.setInodeMap_inodeBitmap, setBit_self, clear, inv.inodeCount_eq] at taken
        exact nextIno_of_firstClear inv layout ((taken rfl).resolve_left (by simp))
      have present : ¬¬((newInodeState sb mode cred ino block).inodeTable ino).iBlocks ≠ 0 := by
        rw [newInodeState, SbInfo.setInode_self]
        exact not_not_intro Nat.one_ne_zero
      have neRoot := (inv.ne_root_of_clear clear).symm
      have isSlot : (freshInode mode cred ino).iPrivate = some ino := rfl
      have isIno : (freshInode mode cred ino).iIno = ino := rfl
      simp only [isSlot, SbInfo.setInodeMap_inodeTable, present, and_false, if_false]
      rw [osfsCreateFinish_ret neRoot]
      generalize pending : SbInfo.setInode _ ino _ = sb'
      have owner : sb'.inodeTable rootInode = sb.inodeTable rootInode := by
        rw [← pending, SbInfo.setInode_of_ne neRoot, SbInfo.setInodeMap_inodeTable, newInodeState,
          SbInfo.setInode_of_ne neRoot, SbInfo.setInodeMap_inodeTable,
          SbInfo.setBlockMap_inodeTable]
      have data : sb'.dataBlocks = sb.dataBlocks := by
        rw [← pending]
        simp [newInodeState]
      rcases dirScan_congr owner data dentry.name with ⟨count, scan⟩
      have entries : (volume sb).files.length = dirEntryCount sb rootInode := by
        rw [← length_dirEntries]
        exact List.length_map _
      have names : (findSlot sb rootInode dentry.name).isSome ↔
          dentry.name ∈ (volume sb).files.map VolumeFile.name := by
        have same : (volume sb).files.map VolumeFile.name = (dirEntries sb).map Prod.fst := by
          simp [volume, volumeFile, Function.comp_def]
        rw [same, ← not_iff_not, ← inv.findSlot_eq_none_iff, Option.not_isSome_iff_eq_none]
      have notFailed : newInode ≠ false := by
        rw [given]
        exact Bool.noConfusion
      rw [Volume.createIn, if_neg (not_exhausted inv layout low high clear free),
        if_neg notFailed, count, scan, entries, ← isNext, isIno]
      simp only [names]
      split_ifs <;> rfl

/-- A creation in a directory that has its block is the volume's. -/
theorem osfsCreateIn_volume (allocated : (sb.inodeTable rootInode).iBlocks ≠ 0)
    (short : dentry.len < maxFilenameLen) (regular : sIsreg mode = true) :
    (volume sb).createIn dentry mode cred newInode =
      (createRet (osfsCreateIn sb rootInode dentry mode cred newInode),
        volume (resultState (osfsCreateIn sb rootInode dentry mode cred newInode))) := by
  have ret := @osfsCreateIn_ret sb dentry mode cred newInode inv layout regular
  have result := osfsCreateIn_result inv dentry regular cred newInode
  apply Prod.ext ret.symm
  rw [Volume.createIn_snd, ← ret]
  generalize osfsCreateIn sb rootInode dentry mode cred newInode = r at result ⊢
  cases result with
  | refused _ => rfl
  | @lost ino low high clear free failed =>
      have next := inv.nextIno_taken high clear
      simp only [createRet, resultState_error, (sameFiles_takenState sb ino).volume_eq]
      rw [← next, takenState, SbInfo.setInodeMap_nrFreeInodes]
  | @rolledBack _ ino slot clear given reason =>
      have same := (sameFiles_setInode inv slot clear).volume_eq
      rw [SbInfo.setInode_nrFreeInodes] at same
      simp only [createRet, resultState_error, same]
      cases reason <;> rfl
  | @created ino block low high clear inArea blockClear notFull fresh =>
      have creates : Creates sb dentry mode ino block :=
        ⟨inv, allocated, regular, short, low, high, clear, inArea, blockClear, notFull, fresh⟩
      exact creates.volume_eq.symm

/-- A directory has its block exactly when a block is taken. -/
theorem allocated_iff :
    (sb.inodeTable rootInode).iBlocks = 0 ↔ sb.nrFreeBlocks = dataBlockCount := by
  have filled := (layout.filled inv).2
  have bound := countClear_le sb.blockBitmap dataBlockCount
  rw [← inv.freeBlocks] at bound
  have taken : sb.blockBitmap 0 = true ↔ sb.nrFreeBlocks < dataBlockCount := by
    rw [filled.2]
    omega
  constructor
  · intro none
    have clear := inv.clear_of_fresh none 0 (by decide)
    have notBelow : ¬sb.nrFreeBlocks < dataBlockCount := by
      rw [← taken, clear]
      exact Bool.false_ne_true
    omega
  · intro all
    by_contra some
    have owned : 0 ∈ ownedBlocks sb := by
      apply List.mem_append_left
      rw [rootBlocks, if_neg some, inv.rootBlock]
      exact List.mem_cons_self
    have below := taken.mp ((inv.bitmap 0).mp owned).2
    omega

theorem volume_withRootBlock : volume (withRootBlock sb) = (volume sb).withDir := by
  have enters := entersDir_withRootBlock inv
  have iff := allocated_iff inv layout
  by_cases none : (sb.inodeTable rootInode).iBlocks = 0
  · have all : (volume sb).freeBlocks = dataBlockCount := iff.mp none
    have left := enters.fresh none
    have noEntry := inv.dirEntries_of_fresh none
    have free : (withRootBlock sb).nrFreeBlocks = dataBlockCount - 1 := by omega
    rw [Volume.withDir, if_pos all]
    simp only [volume, enters.dirEntries_eq, noEntry, enters.nrFreeInodes_eq, free, List.map_nil]
  · have some : ¬(volume sb).freeBlocks = dataBlockCount := fun all => none (iff.mpr all)
    rw [Volume.withDir, if_neg some, enters.unchanged none]

theorem volume_create (regular : sIsreg mode = true) :
    (volume sb).create dentry mode cred newInode =
      (createRet (osfsCreate sb rootDir dentry mode cred newInode),
        volume (resultState (osfsCreate sb rootDir dentry mode cred newInode))) := by
  rw [osfsCreate_eq inv, Volume.create]
  by_cases long : maxFilenameLen ≤ dentry.len
  · rw [if_pos long, if_pos long]
    rfl
  · rw [if_neg long, if_neg long, ← volume_withRootBlock inv layout]
    have enters := entersDir_withRootBlock inv
    exact osfsCreateIn_volume enters.inv (layout.withRootBlock inv) enters.allocated
      (Nat.not_le.mp long) regular

end InDir

theorem volume_lookup (inv : Inv sb) (dentry : QStr) (newInode : Bool) :
    (volume sb).lookup dentry newInode = osfsLookup sb rootInode dentry newInode := by
  have scan : ((volume sb).files.find? fun file => file.name = dentry.name) =
      ((dirEntries sb).find? fun entry => entry.1 = dentry.name).map (volumeFile sb) := by
    simp only [volume, List.find?_map]
    rfl
  rw [Volume.lookup, scan]
  cases found : (dirEntries sb).find? fun entry => entry.1 = dentry.name with
  | none =>
      have absent : dentry.name ∉ (dirEntries sb).map Prod.fst := by
        intro isName
        rcases List.mem_map.mp isName with ⟨entry, isMem, same⟩
        have other := List.find?_eq_none.mp found entry isMem
        simp [same] at other
      rw [osfsLookup_of_not_mem inv absent]
      rfl
  | some entry =>
      have same : entry.1 = dentry.name := by simpa using List.find?_some found
      have isMem := List.mem_of_find?_eq_some found
      have isEntry : (dentry.name, entry.2) ∈ dirEntries sb := by
        rw [← same]
        exact isMem
      have named : entry.2 ∈ fileInos sb := List.mem_map_of_mem isMem
      rw [osfsLookup_of_mem inv isEntry, osfsIget_of_named inv named]
      cases newInode <;> rfl

end Create

/-! ## The refinement -/

theorem volume_mountedSbInfo : volume mountedSbInfo = .fresh := by
  simp only [volume, dirEntries_mountedSbInfo, Volume.fresh, List.map_nil]
  rfl

/-- Every call on a reachable state is the volume's. -/
theorem osfs_refines_volume :
    Refines osfsSystem volumeMachine Event.call Event.reply volume where
  start state mounted := by
    rw [osfsSystem_init_iff.mp mounted]
    exact volume_mountedSbInfo
  step state event next reachable step := by
    have inv := inv_of_reachable reachable
    have layout := sequential_of_reachable reachable
    cases step with
    | create dentry mode cred newInode regular =>
        simp only [volumeMachine, Event.call, Volume.step, volume_create inv layout regular,
          Event.reply]
    | lookup dentry newInode =>
        simp only [volumeMachine, Event.call, Volume.step, volume_lookup inv, Event.reply]
    | read ino buf len pos named _ =>
        rcases @volume_read state ino len pos buf inv named with ⟨delivered, kept⟩
        simp only [volumeMachine, Event.call, Volume.step, delivered, kept, Event.reply]
    | write ino buf len pos named _ =>
        have wrote := @volume_write state ino len pos buf inv named
        simp only [volumeMachine, Event.call, Volume.step, wrote, Event.reply]

/-- The replies of a mount are those of a volume that starts empty and is asked the same,
whatever numbers, blocks and extents osfs came to use. -/
theorem replies_of_volume {events : List Event} {sb : SbInfo} (trace : OsfsTrace events sb) :
    volumeMachine.run .fresh (events.map Event.call) = (events.map Event.reply, volume sb) :=
  osfs_refines_volume.run trace

theorem replies_of_volume_oneFile :
    (volumeMachine.run .fresh [.create nameA 0o100644 superuser true]).1 = [.create (.ok 2)] := by
  have run := replies_of_volume oneFile_trace
  exact congrArg Prod.fst run

end NckuOs.Osfs
