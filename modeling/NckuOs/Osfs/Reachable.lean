import NckuOs.Osfs.CreateInv
import NckuOs.Osfs.Read

/-!
# Every reachable state is in order

A fresh mount is in order, and each call of the VFS keeps it so: this file states
what each kind of call does to the directory and to the files, and derives the
invariant of every reachable state.
-/

set_option maxRecDepth 4000

namespace NckuOs.Osfs

open NckuOs.Bitmap
open NckuOs.ByteMemory
open NckuOs.RunLength
open NckuOs.Transition

/-! ## The mount -/

theorem mountedSbInfo_root :
    mountedSbInfo.inodeTable rootInode =
      { OsfsInode.zero with iIno := rootInode, iMode := rootDir.iMode, iLinksCount := 2 } := by
  simp [mountedSbInfo]

theorem dirEntries_mountedSbInfo : dirEntries mountedSbInfo = [] := by
  have count : dirEntryCount mountedSbInfo rootInode = 0 := by
    rw [dirEntryCount, mountedSbInfo_root]
    rfl
  rw [dirEntries, count]
  rfl

theorem inv_mountedSbInfo : Inv mountedSbInfo := by
  have noEntry := dirEntries_mountedSbInfo
  have noFile : fileInos mountedSbInfo = [] := by
    rw [fileInos, noEntry]
    rfl
  have noBlock : rootBlocks mountedSbInfo = [] := by
    rw [rootBlocks, mountedSbInfo_root]
    rfl
  have unowned : ownedBlocks mountedSbInfo = [] := by
    rw [ownedBlocks, noBlock, noFile]
    rfl
  have inodeBits : mountedSbInfo.inodeBitmap = setBit (fun _ => false) rootInode := by
    simp [mountedSbInfo, clearedSbInfo]
  have blockBits : mountedSbInfo.blockBitmap = fun _ => false := by
    simp [mountedSbInfo, clearedSbInfo]
  constructor
  case inodeCount_eq => simp [mountedSbInfo, clearedSbInfo]
  case blockCount_eq => simp [mountedSbInfo, clearedSbInfo]
  case rootBlock =>
    rw [mountedSbInfo_root]
    rfl
  case rootFresh =>
    intro _
    constructor
    · rw [mountedSbInfo_root]
      rfl
    · intro ino taken
      rw [inodeBits, setBit_eq_true_iff] at taken
      simpa using taken
  case rootTaken =>
    rw [inodeBits]
    exact setBit_self _ _
  case dirSize =>
    refine ⟨0, Nat.zero_le _, ?_⟩
    rw [mountedSbInfo_root]
    rfl
  case shortNames => simp [noEntry]
  case namesNodup => simp [noEntry]
  case inosNodup => simp [noFile]
  case files => simp [noFile]
  case owned => simp [unowned]
  case bitmap => simp [unowned, blockBits]
  case freeZero =>
    intro block _ _ a _ _
    simp [mountedSbInfo, clearedSbInfo]
  case freeBlocks =>
    rw [blockBits]
    simp only [mountedSbInfo, clearedSbInfo, SbInfo.setInodeMap_nrFreeBlocks,
      SbInfo.setInode_nrFreeBlocks]
    decide
  case freeInodes =>
    rw [inodeBits]
    simp only [mountedSbInfo, clearedSbInfo, SbInfo.setInodeMap_nrFreeInodes]
    decide

/-! ## Creation -/

/-- What `osfs_create` of `name` does to the directory and the files. -/
structure CreateEffect (sb : SbInfo) (name : List UInt8) (ret : Except Errno Nat)
    (sb' : SbInfo) : Prop where
  inv : Inv sb'
  entries : dirEntries sb' = dirEntries sb ++ match ret with
    | .ok ino => [(name, ino)]
    | .error _ => []
  slots : ∀ g ∈ fileInos sb, sb'.inodeTable g = sb.inodeTable g
  tables : ∀ g ∈ fileInos sb, extents sb' g = extents sb g
  data : ∀ g ∈ fileInos sb, ∀ block ∈ fileBlocks sb g,
    SameBlock sb.dataBlocks sb'.dataBlocks block
  views : ∀ g ∈ fileInos sb, fileView sb' g = fileView sb g
  fresh : ∀ ino, ret = .ok ino → ino ∉ fileInos sb ∧ fileView sb' ino = ⟨0, 0, fun _ => 0⟩

namespace CreateEffect

variable {sb sb' : SbInfo} {name : List UInt8} {e : Errno}

/-- A failed creation that leaves the directory and all files alone. -/
theorem of_sameFiles (same : SameFiles sb sb') (inv : Inv sb') :
    CreateEffect sb name (.error e) sb' where
  inv := inv
  entries := by rw [same.dirEntries_eq, List.append_nil]
  slots := same.files_eq
  tables _ named := same.extents_eq named
  data _ _ block _ := by
    rw [same.data_eq]
    exact SameBlock.refl _ block
  views _ named := same.fileView_eq named
  fresh _ isOk := nomatch isOk

/-- The directory's own block comes before anything else. -/
theorem of_entersDir {ret : Except Errno Nat} {sbDir : SbInfo} (inv : Inv sb)
    (enters : EntersDir sb sbDir) (effect : CreateEffect sbDir name ret sb') :
    CreateEffect sb name ret sb' := by
  by_cases allocated : (sb.inodeTable rootInode).iBlocks = 0
  · have noFile : fileInos sb = [] := by
      rw [fileInos, inv.dirEntries_of_fresh allocated]
      rfl
    constructor
    case inv => exact effect.inv
    case entries =>
      rw [← enters.dirEntries_eq]
      exact effect.entries
    case slots => simp [noFile]
    case tables => simp [noFile]
    case data => simp [noFile]
    case views => simp [noFile]
    case fresh =>
      intro ino isOk
      rw [noFile]
      exact ⟨List.not_mem_nil, (effect.fresh ino isOk).2⟩
  · rw [enters.unchanged allocated] at effect
    exact effect

end CreateEffect

section Create

variable {sb : SbInfo} {dentry : QStr} {mode : Nat} {cred : Cred} {newInode : Bool}

/-- The view of a file that was just created. -/
theorem Creates.new_fileView {ino block : Nat} (creates : Creates sb dentry mode ino block) :
    fileView (createdState sb dentry mode cred ino block) ino = ⟨0, 0, fun _ => 0⟩ := by
  have noBlock : blockMap (createdState sb dentry mode cred ino block) ino = [] := by
    rw [blockMap, creates.new_extents, expand_nil]
  simp only [fileView, noBlock, List.length_nil, Nat.not_lt_zero, if_false, creates.new_slot]
  rfl

theorem CreateInResult.effect {r : Outcome Inode} (inv : Inv sb)
    (allocated : (sb.inodeTable rootInode).iBlocks ≠ 0) (regular : sIsreg mode = true)
    (short : dentry.len < maxFilenameLen)
    (result : CreateInResult sb dentry mode cred newInode r) :
    CreateEffect sb dentry.name (createRet r) (resultState r) := by
  cases result with
  | refused _ =>
      have same : SameFiles sb sb := ⟨rfl, rfl, rfl, rfl, rfl, rfl, fun _ _ => rfl⟩
      exact .of_sameFiles same inv
  | @lost ino low high clear _ _ =>
      have same := sameFiles_takenState sb ino
      apply CreateEffect.of_sameFiles same
      apply same.inv inv allocated
      · intro other taken
        rw [takenState, SbInfo.setInodeMap_inodeBitmap, setBit_eq_true_iff]
        exact .inr taken
      · rw [takenState, SbInfo.setInodeMap_inodeBitmap, SbInfo.setInodeMap_nrFreeInodes]
        exact u32Dec_nrFreeInodes inv high clear
  | @rolledBack _ ino slot clear _ _ =>
      have same := sameFiles_setInode inv slot clear
      apply CreateEffect.of_sameFiles same
      apply same.inv inv allocated
      · intro other taken
        rw [SbInfo.setInode_inodeBitmap]
        exact taken
      · rw [SbInfo.setInode_inodeBitmap, SbInfo.setInode_nrFreeInodes]
        exact inv.freeInodes
  | @created ino block low high clear inArea blockClear notFull fresh =>
      have creates : Creates sb dentry mode ino block :=
        ⟨inv, allocated, regular, short, low, high, clear, inArea, blockClear, notFull, fresh⟩
      constructor
      case inv => exact creates.inv_createdState
      case entries => exact creates.dirEntries_eq
      case slots => exact fun g named => creates.old_slot named
      case tables => exact fun g named => creates.old_extents named
      case data => exact fun g named block isMem => creates.old_sameBlock named isMem
      case views => exact fun g named => creates.old_fileView named
      case fresh =>
        intro other isOk
        have isNew : ino = other := Except.ok.inj isOk
        rw [← isNew]
        exact ⟨inv.not_mem_of_clear clear, creates.new_fileView⟩

/-- Every call of `osfs_create` from a state in order. -/
theorem osfsCreate_effect (inv : Inv sb) (dentry : QStr) (regular : sIsreg mode = true)
    (cred : Cred) (newInode : Bool) :
    CreateEffect sb dentry.name (createRet (osfsCreate sb rootDir dentry mode cred newInode))
      (resultState (osfsCreate sb rootDir dentry mode cred newInode)) := by
  have result := osfsCreate_result inv dentry regular cred newInode
  generalize osfsCreate sb rootDir dentry mode cred newInode = r at result ⊢
  cases result with
  | tooLong _ =>
      have same : SameFiles sb sb := ⟨rfl, rfl, rfl, rfl, rfl, rfl, fun _ _ => rfl⟩
      exact .of_sameFiles same inv
  | inDir short inner =>
      have enters := entersDir_withRootBlock inv
      exact .of_entersDir inv enters (inner.effect enters.inv enters.allocated regular short)

end Create

/-! ## Reads and writes -/

/-- What a call on the named file `f` does to the directory and the files. -/
structure FileEffect (f : Nat) (sb sb' : SbInfo) : Prop where
  inv : Inv sb'
  step : ∃ new, FileStep f new sb sb'

namespace FileEffect

variable {sb sb' : SbInfo} {f g : Nat}

theorem dirEntries_eq (effect : FileEffect f sb sb') (inv : Inv sb) (named : f ∈ fileInos sb) :
    dirEntries sb' = dirEntries sb := by
  obtain ⟨_, step⟩ := effect.step
  exact step.dirEntries_eq inv named

theorem fileInos_eq (effect : FileEffect f sb sb') (inv : Inv sb) (named : f ∈ fileInos sb) :
    fileInos sb' = fileInos sb := by
  rw [fileInos, fileInos, effect.dirEntries_eq inv named]

theorem other_slot (effect : FileEffect f sb sb') (ne : g ≠ f) :
    sb'.inodeTable g = sb.inodeTable g := by
  obtain ⟨_, step⟩ := effect.step
  exact step.others g ne

theorem other_extents (effect : FileEffect f sb sb') (inv : Inv sb) (named : f ∈ fileInos sb)
    (gNamed : g ∈ fileInos sb) (ne : g ≠ f) : extents sb' g = extents sb g := by
  obtain ⟨_, step⟩ := effect.step
  exact step.other_extents inv named gNamed ne

theorem other_fileView (effect : FileEffect f sb sb') (inv : Inv sb) (named : f ∈ fileInos sb)
    (gNamed : g ∈ fileInos sb) (ne : g ≠ f) : fileView sb' g = fileView sb g := by
  obtain ⟨_, step⟩ := effect.step
  have map_eq : blockMap sb' g = blockMap sb g ++ [] := by
    rw [List.append_nil]
    exact step.other_blockMap inv named gNamed ne
  have bytes : (fileView sb' g).bytes = (fileView sb g).bytes := by
    apply bytes_eq_of_sameBlock map_eq
    · intro block isMem
      exact step.other_sameBlock inv named gNamed ne (List.mem_cons_of_mem _ isMem)
    · simp
  simp only [fileView, FileView.mk.injEq] at bytes ⊢
  refine ⟨by rw [step.others g ne], by rw [step.other_blockMap inv named gNamed ne], bytes⟩

end FileEffect

theorem Progress.effect {sb sb' : SbInfo} {f : Nat} {view : FileView}
    (progress : Progress sb sb' f view) : FileEffect f sb sb' :=
  ⟨progress.ready.inv, progress.step⟩

theorem WriteResult.effect {sb : SbInfo} {f len pos : Nat} {buf : UserBuf} {r : IoResult}
    (result : WriteResult sb f buf len pos r) : FileEffect f sb r.sb := by
  cases result with
  | gap _ _ progress => exact progress.effect
  | done _ _ progress => exact progress.effect
  | stopped _ _ progress => exact progress.effect

theorem ReadResult.effect {sb : SbInfo} {f len pos : Nat} {buf : UserBuf} {r : IoResult}
    (result : ReadResult sb f buf len pos r) : FileEffect f sb r.sb :=
  ⟨result.inv, [], result.step⟩

/-! ## The invariant of a mount -/

/-- One call keeps the invariant. -/
theorem inv_step {sb sb' : SbInfo} {event : Event} (inv : Inv sb) (step : Step sb event sb') :
    Inv sb' := by
  cases step with
  | create dentry mode cred newInode regular =>
      exact (osfsCreate_effect inv dentry regular cred newInode).inv
  | lookup dentry newInode => exact inv
  | read ino buf len pos named _ => exact (osfsRead_result inv named buf len pos).inv
  | write ino buf len pos named _ => exact (osfsWrite_result inv named buf len pos).effect.inv

/-- Every reachable state is in order. -/
theorem inv_of_reachable {sb : SbInfo} (reachable : OsfsReachable sb) : Inv sb := by
  apply reachable.invariant (P := Inv)
  · intro state mounted
    rw [osfsSystem_init_iff.mp mounted]
    exact inv_mountedSbInfo
  · intro state event next inv step
    exact inv_step inv step

theorem inv_of_trace {events : List Event} {sb : SbInfo} (trace : OsfsTrace events sb) : Inv sb :=
  inv_of_reachable ⟨events, trace⟩

/-! ## A mount with a few files

Short runs that the concrete instances of later files start from. -/

/-- A name of one byte. -/
def nameA : QStr := ⟨[97], by decide, by decide⟩

/-- The root user. -/
def superuser : Cred := ⟨0, 0⟩

/-- A fresh mount after one file was created. -/
def oneFile : SbInfo :=
  resultState (osfsCreate mountedSbInfo rootDir nameA 0o100644 superuser true)

theorem oneFile_trace :
    OsfsTrace [.create nameA 0o100644 superuser true (.ok 2)] oneFile := by
  have ret : createRet (osfsCreate mountedSbInfo rootDir nameA 0o100644 superuser true) =
      .ok 2 := by
    decide +kernel
  rw [← ret]
  have mounted : OsfsTrace [] mountedSbInfo := .start (osfsSystem_init_iff.mpr rfl)
  exact mounted.snoc (.create nameA 0o100644 superuser true (by decide))

theorem oneFile_reachable : OsfsReachable oneFile :=
  ⟨_, oneFile_trace⟩

theorem oneFile_named : 2 ∈ fileInos oneFile := by
  have inos : fileInos oneFile = [2] := by decide +kernel
  rw [inos]
  exact List.mem_cons_self

/-- A buffer of equal bytes that never faults. -/
def constBuf (c : UInt8) : UserBuf where
  byte _ := c
  reach _ := loffLimit

theorem constBuf_valid {c : UInt8} {len : Nat} (small : len < loffLimit) :
    (constBuf c).Valid len := by
  intro off n inside
  simp only [constBuf]
  omega

/-- A buffer of equal bytes that faults after the first `n`. -/
def faultAfter (c : UInt8) (n : Nat) : UserBuf where
  byte _ := c
  reach off := n - off

/-- The name of a second file. -/
def nameB : QStr := ⟨[98], by decide, by decide⟩

/-- Two files, without a byte. -/
def twoFiles : SbInfo :=
  resultState (osfsCreate oneFile rootDir nameB 0o100644 superuser true)

theorem twoFiles_reachable : OsfsReachable twoFiles :=
  oneFile_reachable.snoc (.create nameB 0o100644 superuser true (by decide))

/-- A write of one byte. -/
def writeByte (sb : SbInfo) (f pos : Nat) : SbInfo :=
  (osfsWrite sb (openInode sb f) (constBuf 7) 1 pos).sb

/-- The files in turn: a block for the one, a block for the other, and a second block for the
first, which so has two extents. -/
def twoExtents : SbInfo :=
  writeByte (writeByte (writeByte twoFiles 2 0) 3 0) 2 1024

theorem twoExtents_reachable : OsfsReachable twoExtents := by
  have named : 2 ∈ fileInos twoFiles := by decide +kernel
  have namedOther : 3 ∈ fileInos (writeByte twoFiles 2 0) := by decide +kernel
  have namedAgain : 2 ∈ fileInos (writeByte (writeByte twoFiles 2 0) 3 0) := by decide +kernel
  have first := twoFiles_reachable.snoc (.write 2 (constBuf 7) 1 0 named (by decide))
  have second := first.snoc (.write 3 (constBuf 7) 1 0 namedOther (by decide))
  exact second.snoc (.write 2 (constBuf 7) 1 1024 namedAgain (by decide))

theorem twoExtents_inos : fileInos twoExtents = [2, 3] := by
  decide +kernel

/-- Blocks 1 and 2 are the tables of the files. -/
example : blockMap twoExtents 2 = [3, 5] ∧ blockMap twoExtents 3 = [4] := by decide +kernel

end NckuOs.Osfs
