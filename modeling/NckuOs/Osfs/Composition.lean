import NckuOs.Osfs.Holes
import NckuOs.Osfs.Refined

/-!
# How the calls of a mount compose

Two states with one volume cannot be told apart.  So whatever is shown of the calls of a
volume holds of osfs: writes to two files may change places, and a write may be taken
apart.  A reader gets the file.
-/

namespace NckuOs.Osfs

open NckuOs.ByteMemory
open NckuOs.Transition

/-! ## What cannot be told apart -/

/-- From states with one volume the same calls make the same history. -/
theorem same_volume_same_history {left right left' right' : SbInfo} {events events' : List Event}
    (leftReachable : OsfsReachable left) (rightReachable : OsfsReachable right)
    (sameVolume : volume left = volume right)
    (leftRun : Trace (osfsSystem.resume left) events left')
    (rightRun : Trace (osfsSystem.resume right) events' right')
    (sameCalls : events.map Event.call = events'.map Event.call) :
    events = events' ∧ volume left' = volume right' := by
  rcases osfs_refines_volume.indistinguishable leftReachable rightReachable sameVolume leftRun
    rightRun sameCalls with ⟨sameReplies, sameEnd⟩
  refine ⟨?_, sameEnd⟩
  apply List.ext_getElem
  · simpa using congrArg List.length sameCalls
  · intro i below below'
    apply Event.eq_of_call_reply
    · have calls := List.getElem_of_eq sameCalls (by simpa using below)
      simpa using calls
    · have replies := List.getElem_of_eq sameReplies (by simpa using below)
      simpa using replies

/-- A read of a fresh file writes its table's header, which nobody can see. -/
theorem same_volume_same_history_oneFile :
    createRet (osfsCreate oneFile rootDir nameB 0o100644 superuser true) =
      createRet (osfsCreate (osfsRead oneFile (openInode oneFile 2) (constBuf 0) 1 0).sb rootDir
        nameB 0o100644 superuser true) := by
  have inv := inv_of_reachable oneFile_reachable
  have readReachable : OsfsReachable (osfsRead oneFile (openInode oneFile 2) (constBuf 0) 1 0).sb :=
    oneFile_reachable.snoc (.read 2 (constBuf 0) 1 0 oneFile_named (by decide))
  have sameVolume := (@volume_read oneFile 2 1 0 (constBuf 0) inv oneFile_named).2
  have first : Step oneFile _ _ := .create nameB 0o100644 superuser true (by decide)
  have second : Step (osfsRead oneFile (openInode oneFile 2) (constBuf 0) 1 0).sb _ _ :=
    .create nameB 0o100644 superuser true (by decide)
  have history := same_volume_same_history oneFile_reachable readReachable sameVolume.symm
    ((@Trace.here _ _ osfsSystem _).snoc first) ((@Trace.here _ _ osfsSystem _).snoc second)
    (by simp only [List.nil_append, List.map_cons, List.map_nil, Event.call])
  exact (Event.create.inj (List.singleton_inj.mp history.1)).2.2.2.2

/-! ## Writes that succeed -/

section Write

variable {room room' q len n : Nat} {buf : UserBuf}

theorem Passes.blocksTo_le (passes : Passes room q len buf) : blocksTo q len ≤ room := by
  unfold blocksTo
  split
  · exact Nat.zero_le room
  · have inRoom := passes.end_le (by omega)
    omega

/-- Of the room it is only the blocks up to the end that matter. -/
theorem Passes.of_room (passes : Passes room q len buf) (enough : blocksTo q len ≤ room') :
    Passes room' q len buf := by
  rintro j start (noRoom | faults)
  · have inside := start.1
    unfold blocksTo at enough
    split at enough <;> omega
  · exact passes j start (.inr faults)

theorem passes_iff_of_valid (valid : buf.Valid len) :
    Passes room q len buf ↔ blocksTo q len ≤ room := by
  constructor
  · exact Passes.blocksTo_le
  · intro enough
    by_cases none : len = 0
    · rw [none]
      exact passes_zero
    · apply passes_of_valid valid
      rw [blocksTo, if_neg none] at enough
      omega

/-- What a write that succeeds makes of a file. -/
def FileView.afterWrite (view : FileView) (buf : UserBuf) (len pos : Nat) : FileView :=
  (view.store (filePos pos) len buf.byte).grow (pos + len)

/-- A write succeeds. -/
structure WriteOk (view : FileView) (room : Nat) (buf : UserBuf) (len pos : Nat) : Prop where
  within : len = 0 ∨ filePos pos / 1024 ≤ view.blocks
  passes : Passes room (filePos pos) len buf

theorem FileView.write_of_ok {view : FileView} {pos : Nat} (ok : WriteOk view room buf len pos) :
    view.write room buf len pos = (.ok len, view.afterWrite buf len pos) := by
  have within := ok.within
  have noGap : ¬(0 < len ∧ view.blocks < filePos pos / 1024) := by omega
  rw [FileView.write, if_neg noGap, stopOf_eq_none_iff.mpr ok.passes]
  rfl

theorem FileView.ok_of_write {view : FileView} {pos : Nat}
    (ok : (view.write room buf len pos).1 = .ok n) : n = len ∧ WriteOk view room buf len pos := by
  unfold FileView.write at ok
  split at ok
  · cases ok
  · rename_i noGap
    split at ok
    · rename_i passes
      refine ⟨(Except.ok.inj ok).symm, ?_, stopOf_eq_none_iff.mp passes⟩
      omega
    · cases ok

end Write

/-! ## Writes to two files -/

namespace Volume

variable {v : Volume} {f g : Nat} {file : VolumeFile}

theorem find_ino (found : v.find f = some file) : file.ino = f := by
  simpa using List.find?_some found

theorem find_setView (v : Volume) (f g : Nat) (view : FileView) :
    (v.setView f view).find g = (v.find g).map fun file =>
      if file.ino = f then { file with view } else file := by
  simp only [find, setView, List.find?_map]
  congr 2
  funext file
  by_cases isFile : file.ino = f <;> simp [isFile]

theorem find_setView_self (found : v.find f = some file) (view : FileView) :
    (v.setView f view).find f = some { file with view } := by
  rw [find_setView, found, Option.map_some, if_pos (find_ino found)]

theorem find_setView_of_ne (ne : g ≠ f) (view : FileView) :
    (v.setView f view).find g = v.find g := by
  rw [find_setView]
  cases found : v.find g with
  | none => rfl
  | some file =>
      have other : ¬file.ino = f := by
        rw [find_ino found]
        exact ne
      rw [Option.map_some, if_neg other]

theorem setView_setView (v : Volume) (f : Nat) (first second : FileView) :
    (v.setView f first).setView f second = v.setView f second := by
  simp only [setView, List.map_map]
  congr 2
  funext file
  by_cases isFile : file.ino = f <;> simp [isFile]

theorem setView_comm (ne : g ≠ f) (v : Volume) (left right : FileView) :
    (v.setView f left).setView g right = (v.setView g right).setView f left := by
  simp only [setView, List.map_map]
  congr 2
  funext file
  by_cases isF : file.ino = f
  · have notG : ¬file.ino = g := by omega
    simp [isF, Ne.symm ne]
  · by_cases isG : file.ino = g <;> simp [isF, isG, ne]

section Ok

variable {buf : UserBuf} {len pos n : Nat}

/-- The volume after a write that succeeds. -/
def afterWrite (v : Volume) (f : Nat) (view : FileView) (buf : UserBuf) (len pos : Nat) : Volume :=
  { v.setView f (view.afterWrite buf len pos) with
    freeBlocks := v.freeBlocks + view.blocks - max view.blocks (blocksTo (filePos pos) len) }

theorem write_of_ok (found : v.find f = some file)
    (ok : WriteOk file.view (file.view.blocks + v.freeBlocks) buf len pos) :
    v.write f buf len pos = (.ok len, v.afterWrite f file.view buf len pos) := by
  simp only [write, found, FileView.write_of_ok ok]
  rfl

theorem ok_of_write (ok : (v.write f buf len pos).1 = .ok n) :
    ∃ file, v.find f = some file ∧ n = len ∧
      WriteOk file.view (file.view.blocks + v.freeBlocks) buf len pos := by
  unfold write at ok
  split at ok
  · cases ok
  · rename_i file found
    exact ⟨file, found, FileView.ok_of_write ok⟩

theorem write_ok_iff (found : v.find f = some file) :
    (v.write f buf len pos).1 = .ok len ↔
      WriteOk file.view (file.view.blocks + v.freeBlocks) buf len pos := by
  constructor
  · intro ok
    rcases ok_of_write ok with ⟨other, isFile, _, wrote⟩
    rw [found, Option.some.injEq] at isFile
    rw [isFile]
    exact wrote
  · intro ok
    rw [write_of_ok found ok]

end Ok

/-- Two writes that succeed one after the other may change places. -/
theorem write_comm {bufF bufG : UserBuf} {lenF posF lenG posG m n : Nat} (ne : g ≠ f)
    (first : (v.write f bufF lenF posF).1 = .ok m)
    (second : ((v.write f bufF lenF posF).2.write g bufG lenG posG).1 = .ok n) :
    (v.write g bufG lenG posG).1 = .ok n ∧
      ((v.write g bufG lenG posG).2.write f bufF lenF posF).1 = .ok m ∧
      ((v.write g bufG lenG posG).2.write f bufF lenF posF).2 =
        ((v.write f bufF lenF posF).2.write g bufG lenG posG).2 := by
  rcases ok_of_write first with ⟨file, found, rfl, okF⟩
  rw [write_of_ok found okF] at second ⊢
  rcases ok_of_write second with ⟨other, found', rfl, okG⟩
  rw [write_of_ok found' okG]
  have foundG : v.find g = some other := by
    rw [← found']
    exact (find_setView_of_ne ne _).symm
  have needF := okF.passes.blocksTo_le
  have needG := okG.passes.blocksTo_le
  simp only [afterWrite] at okG needG
  -- What the first write has taken, the second has done without.
  have okG' : WriteOk other.view (other.view.blocks + v.freeBlocks) bufG n posG :=
    ⟨okG.within, okG.passes.of_room (by omega)⟩
  rw [write_of_ok foundG okG']
  have foundF : (v.afterWrite g other.view bufG n posG).find f = some file := by
    rw [← found]
    exact find_setView_of_ne (Ne.symm ne) _
  have okF' : WriteOk file.view
      (file.view.blocks + (v.afterWrite g other.view bufG n posG).freeBlocks) bufF m posF := by
    refine ⟨okF.within, okF.passes.of_room ?_⟩
    simp only [afterWrite]
    omega
  rw [write_of_ok foundF okF']
  refine ⟨rfl, rfl, ?_⟩
  have files := setView_comm ne v (file.view.afterWrite bufF m posF)
    (other.view.afterWrite bufG n posG)
  simp only [afterWrite, setView, mk.injEq] at files ⊢
  refine ⟨trivial, ?_, files.2.2.symm⟩
  omega

end Volume

section Commute

variable {sb : SbInfo} {f g : Nat}

/-- When two writes to different files succeed one after the other, they also succeed in
the other order, and nobody can tell afterwards which order it was. -/
theorem writes_commute {bufF bufG : UserBuf} {lenF posF lenG posG m n : Nat}
    (reachable : OsfsReachable sb) (fNamed : f ∈ fileInos sb) (gNamed : g ∈ fileInos sb)
    (ne : g ≠ f) :
    let afterF := (osfsWrite sb (openInode sb f) bufF lenF posF).sb
    let afterG := (osfsWrite sb (openInode sb g) bufG lenG posG).sb
    let thenG := osfsWrite afterF (openInode afterF g) bufG lenG posG
    let thenF := osfsWrite afterG (openInode afterG f) bufF lenF posF
    (osfsWrite sb (openInode sb f) bufF lenF posF).ret = .ok m → thenG.ret = .ok n →
      (osfsWrite sb (openInode sb g) bufG lenG posG).ret = .ok n ∧ thenF.ret = .ok m ∧
        volume thenF.sb = volume thenG.sb := by
  intro afterF afterG thenG thenF firstOk secondOk
  have inv := inv_of_reachable reachable
  have effectF := (osfsWrite_result inv fNamed bufF lenF posF).effect
  have effectG := (osfsWrite_result inv gNamed bufG lenG posG).effect
  have gStill : g ∈ fileInos afterF := by
    rw [effectF.fileInos_eq inv fNamed]
    exact gNamed
  have fStill : f ∈ fileInos afterG := by
    rw [effectG.fileInos_eq inv gNamed]
    exact fNamed
  have writeF := @volume_write sb f lenF posF bufF inv fNamed
  have writeG := @volume_write sb g lenG posG bufG inv gNamed
  have writeG' := @volume_write afterF g lenG posG bufG effectF.inv gStill
  have writeF' := @volume_write afterG f lenF posF bufF effectG.inv fStill
  have first : ((volume sb).write f bufF lenF posF).1 = .ok m := by
    rw [writeF]
    exact firstOk
  have second : (((volume sb).write f bufF lenF posF).2.write g bufG lenG posG).1 = .ok n := by
    rw [writeF, writeG']
    exact secondOk
  have swapped := Volume.write_comm ne first second
  rw [writeF, writeG, writeG', writeF'] at swapped
  exact swapped

/-- The blocks differ, the volume does not. -/
theorem writes_commute_twoFiles :
    let afterF := (osfsWrite twoFiles (openInode twoFiles 2) (constBuf 7) 1 0).sb
    let afterG := (osfsWrite twoFiles (openInode twoFiles 3) (constBuf 8) 1 0).sb
    let thenG := osfsWrite afterF (openInode afterF 3) (constBuf 8) 1 0
    let thenF := osfsWrite afterG (openInode afterG 2) (constBuf 7) 1 0
    volume thenF.sb = volume thenG.sb ∧ blockMap thenF.sb 2 = [4] ∧ blockMap thenG.sb 2 = [3] := by
  intro afterF afterG thenG thenF
  have inos : fileInos twoFiles = [2, 3] := by decide +kernel
  have fNamed : 2 ∈ fileInos twoFiles := by simp [inos]
  have gNamed : 3 ∈ fileInos twoFiles := by simp [inos]
  have swapped := @writes_commute twoFiles 2 3 (constBuf 7) (constBuf 8) 1 0 1 0 1 1
    twoFiles_reachable fNamed gNamed (by decide) (by decide +kernel) (by decide +kernel)
  refine ⟨swapped.2.2, ?_, ?_⟩
  · decide +kernel
  · decide +kernel

end Commute

/-! ## A write in pieces -/

section Pieces

variable {v : Volume} {f n m len pos : Nat} {file : VolumeFile} {buf : UserBuf}

theorem writeOk_iff_of_valid {view : FileView} {room : Nat} (valid : buf.Valid len) :
    WriteOk view room buf len pos ↔
      (len = 0 ∨ filePos pos / 1024 ≤ view.blocks) ∧ blocksTo (filePos pos) len ≤ room := by
  constructor
  · rintro ⟨within, passes⟩
    exact ⟨within, passes.blocksTo_le⟩
  · rintro ⟨within, enough⟩
    exact ⟨within, (passes_iff_of_valid valid).mpr enough⟩

/-- What fits in the room does not come to where the block index wraps. -/
theorem filePos_add_of_room {room : Nat} (bounded : room < 2 ^ 32)
    (enough : blocksTo (filePos pos) n ≤ room) : filePos (pos + n) = filePos pos + n := by
  apply filePos_add
  have inside : filePos pos < 2 ^ 42 := by
    rw [filePos_eq]
    exact Nat.mod_lt pos (by decide)
  unfold blocksTo at enough
  split_ifs at enough <;> omega

theorem UserBuf.Valid.shift (valid : buf.Valid (n + m)) : (buf.shift n).Valid m := by
  intro off k inside
  exact valid (n + off) k (by omega)

theorem FileView.afterWrite_afterWrite (view : FileView)
    (next : filePos (pos + n) = filePos pos + n) :
    (view.afterWrite buf n pos).afterWrite (buf.shift n) m (pos + n) =
      view.afterWrite buf (n + m) pos := by
  have pieces := FileView.store_store view (filePos pos) n m buf.byte
  calc (view.afterWrite buf n pos).afterWrite (buf.shift n) m (pos + n)
      = (((view.store (filePos pos) n buf.byte).store (filePos pos + n) m
          (buf.shift n).byte).grow (pos + n)).grow (pos + n + m) := by
        rw [FileView.afterWrite, FileView.afterWrite, next]
        rfl
    _ = (view.store (filePos pos) (n + m) buf.byte).grow (pos + n + m) := by
        rw [FileView.grow_grow _ (Nat.le_add_right (pos + n) m), ← pieces]
        rfl
    _ = view.afterWrite buf (n + m) pos := by
        rw [FileView.afterWrite, Nat.add_assoc]

/-- The blocks suffice for the whole when they suffice for both pieces. -/
theorem blocksTo_pieces (blocks free pos n m : Nat) :
    (n + m = 0 ∨ pos / 1024 ≤ blocks) ∧ blocksTo pos (n + m) ≤ blocks + free ↔
      ((n = 0 ∨ pos / 1024 ≤ blocks) ∧ blocksTo pos n ≤ blocks + free) ∧
        (m = 0 ∨ (pos + n) / 1024 ≤ max blocks (blocksTo pos n)) ∧
        blocksTo (pos + n) m ≤
          max blocks (blocksTo pos n) + (free + blocks - max blocks (blocksTo pos n)) := by
  unfold blocksTo
  split_ifs <;> omega

/-- A write of two pieces is the write of the first and then of the second. -/
theorem Volume.write_write (found : v.find f = some file) (valid : buf.Valid (n + m))
    (bounded : file.view.blocks + v.freeBlocks < 2 ^ 32) :
    ((v.write f buf (n + m) pos).1 = .ok (n + m) ↔
        (v.write f buf n pos).1 = .ok n ∧
          ((v.write f buf n pos).2.write f (buf.shift n) m (pos + n)).1 = .ok m) ∧
      ((v.write f buf (n + m) pos).1 = .ok (n + m) →
        ((v.write f buf n pos).2.write f (buf.shift n) m (pos + n)).2 =
          (v.write f buf (n + m) pos).2) := by
  have validFirst := valid.mono (Nat.le_add_right n m)
  have grown : (file.view.afterWrite buf n pos).blocks =
      max file.view.blocks (blocksTo (filePos pos) n) := rfl
  have foundRest : (v.afterWrite f file.view buf n pos).find f =
      some { file with view := file.view.afterWrite buf n pos } := find_setView_self found _
  have arithmetic := blocksTo_pieces file.view.blocks v.freeBlocks (filePos pos) n m
  rw [write_ok_iff found, writeOk_iff_of_valid valid, arithmetic]
  -- Both sides begin with the first piece.
  have rest : WriteOk file.view (file.view.blocks + v.freeBlocks) buf n pos →
      filePos (pos + n) = filePos pos + n ∧
      (((v.write f buf n pos).2.write f (buf.shift n) m (pos + n)).1 = .ok m ↔
        (m = 0 ∨ (filePos pos + n) / 1024 ≤ max file.view.blocks (blocksTo (filePos pos) n)) ∧
          blocksTo (filePos pos + n) m ≤ max file.view.blocks (blocksTo (filePos pos) n) +
            (v.freeBlocks + file.view.blocks -
              max file.view.blocks (blocksTo (filePos pos) n))) := by
    intro ok
    have next := filePos_add_of_room bounded ok.passes.blocksTo_le
    rw [write_of_ok found ok, write_ok_iff foundRest, writeOk_iff_of_valid valid.shift]
    simp only [grown, afterWrite, next, true_and]
  constructor
  · rw [write_ok_iff found, writeOk_iff_of_valid validFirst]
    constructor
    · rintro ⟨first, second⟩
      exact ⟨first, (rest ((writeOk_iff_of_valid validFirst).mpr first)).2.mpr second⟩
    · rintro ⟨first, second⟩
      exact ⟨first, (rest ((writeOk_iff_of_valid validFirst).mpr first)).2.mp second⟩
  · rintro ⟨first, second⟩
    have firstOk := (writeOk_iff_of_valid validFirst).mpr first
    have wholeOk : WriteOk file.view (file.view.blocks + v.freeBlocks) buf (n + m) pos :=
      (writeOk_iff_of_valid valid).mpr (arithmetic.mpr ⟨first, second⟩)
    rcases rest firstOk with ⟨next, second_iff⟩
    have restOk := second_iff.mpr second
    rw [write_of_ok found firstOk] at restOk ⊢
    rw [write_of_ok foundRest ((write_ok_iff foundRest).mp restOk), write_of_ok found wholeOk]
    have views := @FileView.afterWrite_afterWrite n m pos buf file.view next
    have files := setView_setView v f (file.view.afterWrite buf n pos)
      (file.view.afterWrite buf (n + m) pos)
    simp only [afterWrite, views, grown, next, setView, mk.injEq] at files ⊢
    refine ⟨trivial, ?_, files.2.2⟩
    unfold blocksTo
    split_ifs <;> omega

/-- The calls of a write in pieces of the given lengths. -/
def writePieces (f : Nat) (buf : UserBuf) (pos : Nat) : List Nat → List Call
  | [] => []
  | len :: lens => .write f buf len pos :: writePieces f (buf.shift len) (pos + len) lens

/-- What every piece returns when all succeed. -/
def pieceReplies (lens : List Nat) : List Reply :=
  lens.map fun len => .write (.ok len)

/-- A write succeeds when its pieces do, and then leaves what they leave. -/
theorem Volume.run_writePieces {lens : List Nat} (nonempty : lens ≠ [])
    (found : v.find f = some file) (valid : buf.Valid lens.sum)
    (bounded : file.view.blocks + v.freeBlocks < 2 ^ 32) :
    ((volumeMachine.run v (writePieces f buf pos lens)).1 = pieceReplies lens ↔
        (v.write f buf lens.sum pos).1 = .ok lens.sum) ∧
      ((v.write f buf lens.sum pos).1 = .ok lens.sum →
        (volumeMachine.run v (writePieces f buf pos lens)).2 = (v.write f buf lens.sum pos).2) := by
  induction lens generalizing v buf pos file with
  | nil => exact absurd rfl nonempty
  | cons n lens ih =>
      rw [List.sum_cons] at valid ⊢
      have first : (volumeMachine.run v (writePieces f buf pos (n :: lens))) =
          (.write (v.write f buf n pos).1 ::
              (volumeMachine.run (v.write f buf n pos).2
                (writePieces f (buf.shift n) (pos + n) lens)).1,
            (volumeMachine.run (v.write f buf n pos).2
              (writePieces f (buf.shift n) (pos + n) lens)).2) := rfl
      have replies : pieceReplies (n :: lens) = .write (.ok n) :: pieceReplies lens := rfl
      rw [first, replies, List.cons_eq_cons, Reply.write.injEq]
      by_cases last : lens = []
      · subst last
        rw [List.sum_nil, Nat.add_zero]
        exact ⟨and_iff_left rfl, fun _ => rfl⟩
      · rcases write_write found valid bounded with ⟨succeeds, state⟩
        rw [succeeds]
        by_cases firstOk : (v.write f buf n pos).1 = .ok n
        · have ok := (write_ok_iff found).mp firstOk
          have enough := ok.passes.blocksTo_le
          have foundRest : (v.write f buf n pos).2.find f =
              some { file with view := file.view.afterWrite buf n pos } := by
            rw [write_of_ok found ok]
            exact find_setView_self found _
          -- what the first piece takes is no longer free
          have boundedRest : (file.view.afterWrite buf n pos).blocks +
              (v.write f buf n pos).2.freeBlocks < 2 ^ 32 := by
            rw [write_of_ok found ok]
            change max file.view.blocks (blocksTo (filePos pos) n) + (v.freeBlocks +
              file.view.blocks - max file.view.blocks (blocksTo (filePos pos) n)) < 2 ^ 32
            omega
          rcases ih last foundRest valid.shift boundedRest with ⟨rest, restState⟩
          constructor
          · rw [rest]
          · rintro ⟨_, secondOk⟩
            rw [restState secondOk, state (succeeds.mpr ⟨firstOk, secondOk⟩)]
        · constructor
          · constructor
            · intro both
              exact absurd both.1 firstOk
            · intro both
              exact absurd both.1 firstOk
          · intro both
            exact absurd both.1 firstOk

/-- A file comes to have far fewer blocks than there are block indices. -/
theorem Inv.room_lt {sb : SbInfo} (inv : Inv sb) (named : f ∈ fileInos sb) :
    room sb f < 2 ^ 32 := by
  have blocks : (fileView sb f).blocks < dataBlockCount := inv.length_blockMap_lt named
  have free : sb.nrFreeBlocks ≤ dataBlockCount := by
    rw [inv.freeBlocks]
    exact Bitmap.countClear_le _ _
  unfold dataBlockCount at blocks free
  unfold room
  omega

/-- A write of a readable buffer succeeds exactly when it does in pieces of any lengths,
one after the other, and then nobody can tell afterwards how it was written. -/
theorem write_in_pieces {sb sb' : SbInfo} {events : List Event} {lens : List Nat}
    (reachable : OsfsReachable sb) (named : f ∈ fileInos sb) (nonempty : lens ≠ [])
    (valid : buf.Valid lens.sum) (run : Trace (osfsSystem.resume sb) events sb')
    (pieces : events.map Event.call = writePieces f buf pos lens) :
    (events.map Event.reply = pieceReplies lens ↔
        (osfsWrite sb (openInode sb f) buf lens.sum pos).ret = .ok lens.sum) ∧
      (events.map Event.reply = pieceReplies lens →
        volume sb' = volume (osfsWrite sb (openInode sb f) buf lens.sum pos).sb) := by
  have inv := inv_of_reachable reachable
  have whole := @volume_write sb f lens.sum pos buf inv named
  have refined := (osfs_refines_volume.resume reachable run).2
  rcases volume_find named with ⟨name, found⟩
  have taken := @Volume.run_writePieces _ _ pos _ _ lens nonempty found valid
    (inv.room_lt named)
  rw [← pieces, refined, whole] at taken
  exact ⟨taken.1, fun replies => taken.2 (taken.1.mp replies)⟩

/-- One byte, and then two. -/
theorem write_in_pieces_oneFile :
    ∃ sb', OsfsReachable sb' ∧
      volume sb' = volume (osfsWrite oneFile (openInode oneFile 2) (constBuf 7) 3 0).sb := by
  have first : Step oneFile _ _ := .write 2 (constBuf 7) 1 0 oneFile_named (by decide)
  have named : 2 ∈ fileInos (osfsWrite oneFile (openInode oneFile 2) (constBuf 7) 1 0).sb := by
    decide +kernel
  have second : Step _ _ _ := .write 2 ((constBuf 7).shift 1) 2 1 named (by decide)
  refine ⟨_, (oneFile_reachable.snoc first).snoc second, ?_⟩
  have taken := @write_in_pieces 2 0 (constBuf 7) oneFile _ _ [1, 2] oneFile_reachable oneFile_named
    (by decide) (constBuf_valid (by decide))
    (((@Trace.here _ _ osfsSystem _).snoc first).snoc second) rfl
  exact taken.2 (taken.1.mpr (by decide +kernel))

end Pieces

/-! ## A reader -/

section Reader

variable {sb sb' : SbInfo} {f : Nat}

/-- The event does not write file `f`. -/
def Event.Spares (f : Nat) : Event → Prop
  | .write ino _ _ _ _ => ino ≠ f
  | _ => True

/-- The bytes a call delivers. -/
def Event.out : Event → List UInt8
  | .read _ _ _ _ _ out => out
  | _ => []

/-- How many bytes a read asks for. -/
def Event.asked : Event → Nat
  | .read _ _ len _ _ _ => len
  | _ => 0

/-- Reads of file `f` that succeed, each at the offset the one before has left. -/
def ReadsOn (f : Nat) : Nat → List Event → Prop
  | _, [] => True
  | pos, .read ino _ _ p (.ok n) _ :: later => ino = f ∧ p = pos ∧ ReadsOn f (pos + n) later
  | _, _ => False

/-- As long as a file is not written, whatever else happens, its view stays. -/
theorem fileView_of_spares (reachable : OsfsReachable sb) (named : f ∈ fileInos sb)
    {events : List Event} (run : Trace (osfsSystem.resume sb) events sb')
    (spares : ∀ event ∈ events, event.Spares f) :
    OsfsReachable sb' ∧ f ∈ fileInos sb' ∧ fileView sb' f = fileView sb f := by
  induction run with
  | start initial =>
      have same := (initial : _ = sb)
      rw [same]
      exact ⟨reachable, named, rfl⟩
  | @snoc events middle event next _ step ih =>
      rcases ih fun past isMem => spares past (List.mem_append_left _ isMem) with
        ⟨here, stillNamed, same⟩
      have inv := inv_of_reachable here
      have namedNext : f ∈ fileInos next := by
        rw [fileInos, dirEntries_step inv step, List.map_append]
        exact List.mem_append_left _ stillNamed
      refine ⟨here.snoc step, namedNext, ?_⟩
      rw [← same]
      cases fileChange_of_step inv step namedNext with
      | kept _ view => exact view
      | born absent _ => exact absurd stillNamed absent
      | wrote _ isWrite _ _ =>
          have spared := spares event (List.mem_append_right _ (List.mem_singleton_self _))
          rw [isWrite] at spared
          exact absurd rfl spared

/-- Every read of the file in such a run delivers a part of it. -/
theorem read_of_spares (reachable : OsfsReachable sb) (named : f ∈ fileInos sb)
    {events : List Event} (run : Trace (osfsSystem.resume sb) events sb')
    (spares : ∀ event ∈ events, event.Spares f) {buf : UserBuf} {len pos n : Nat}
    {out : List UInt8} (isRead : .read f buf len pos (.ok n) out ∈ events) :
    n = (fileView sb f).readLen len pos ∧ out = (fileView sb f).slice pos n := by
  induction run with
  | start => exact absurd isRead List.not_mem_nil
  | @snoc events middle event next earlier step ih =>
      have sparesEarlier : ∀ past ∈ events, past.Spares f :=
        fun past isMem => spares past (List.mem_append_left _ isMem)
      rcases List.mem_append.mp isRead with past | last
      · exact ih sparesEarlier past
      · rcases fileView_of_spares reachable named earlier sparesEarlier with
          ⟨here, stillNamed, same⟩
        have result := (osfsRead_result (inv_of_reachable here) stillNamed buf len pos).output
        rw [same] at result
        have isLast := List.mem_singleton.mp last
        have stepped : Step middle event next := step
        cases stepped with
        | create => cases isLast
        | lookup => cases isLast
        | write => cases isLast
        | read =>
            rcases Event.read.inj isLast with ⟨rfl, rfl, rfl, rfl, ret, delivered⟩
            rw [← ret, ← delivered] at result
            have whole := result.of_ok
            exact ⟨whole.1, whole.2.1⟩

theorem ReadsOn.cons_cases {event : Event} {later : List Event} {pos : Nat}
    (readsOn : ReadsOn f pos (event :: later)) :
    ∃ buf len n out, event = .read f buf len pos (.ok n) out ∧ ReadsOn f (pos + n) later := by
  cases event with
  | create => exact readsOn.elim
  | lookup => exact readsOn.elim
  | write => exact readsOn.elim
  | read ino buf len p ret out =>
      cases ret with
      | error e => exact readsOn.elim
      | ok n =>
          rcases readsOn with ⟨rfl, rfl, others⟩
          exact ⟨buf, len, n, out, rfl, others⟩

/-- Parts that follow each other make up one slice, up to the end of the file. -/
theorem slice_of_readsOn {view : FileView} {reads : List Event} {pos : Nat}
    (readsOn : ReadsOn f pos reads)
    (parts : ∀ buf len p n out, Event.read f buf len p (.ok n) out ∈ reads →
      n = view.readLen len p ∧ out = view.slice p n) :
    reads.flatMap Event.out = view.slice pos (view.readLen (reads.map Event.asked).sum pos) := by
  induction reads generalizing pos with
  | nil => simp [FileView.readLen, FileView.slice]
  | cons event later ih =>
      rcases readsOn.cons_cases with ⟨buf, len, n, out, rfl, others⟩
      rcases parts buf len pos n out List.mem_cons_self with ⟨count, delivered⟩
      have rest := ih others fun buf len p n out isMem =>
        parts buf len p n out (List.mem_cons_of_mem _ isMem)
      have total : view.readLen ((Event.read f buf len pos (.ok n) out :: later).map
          Event.asked).sum pos = n + view.readLen (later.map Event.asked).sum (pos + n) := by
        simp only [List.map_cons, List.sum_cons, Event.asked, FileView.readLen] at count ⊢
        omega
      rw [List.flatMap_cons, rest, total, FileView.slice_add, ← delivered]
      rfl

/-- A reader that goes on where its last read has left gets the file, from its first
offset on, as far as it asks or the file goes.  What others do in between does not matter,
unless they write the file. -/
theorem reader_gets_file {events reads : List Event} {pos : Nat} (reachable : OsfsReachable sb)
    (named : f ∈ fileInos sb) (run : Trace (osfsSystem.resume sb) events sb')
    (spares : ∀ event ∈ events, event.Spares f) (isReader : reads.Sublist events)
    (readsOn : ReadsOn f pos reads) :
    reads.flatMap Event.out =
      (fileView sb f).slice pos ((fileView sb f).readLen (reads.map Event.asked).sum pos) := by
  apply slice_of_readsOn readsOn
  intro buf len p n out isRead
  exact read_of_spares reachable named run spares (isReader.subset isRead)

/-- Two reads of 1000 bytes at a file of 1500. -/
theorem reader_gets_file_filledFile :
    let afterRead := (osfsRead filledFile (openInode filledFile 2) (constBuf 0) 1000 0).sb
    (osfsRead filledFile (openInode filledFile 2) (constBuf 0) 1000 0).out ++
        (osfsRead afterRead (openInode afterRead 2) (constBuf 0) 1000 1000).out =
      (fileView filledFile 2).slice 0 1500 := by
  intro afterRead
  have reachable : OsfsReachable filledFile :=
    oneFile_reachable.snoc (.write 2 (constBuf 7) 1500 0 oneFile_named (by decide))
  have named : 2 ∈ fileInos filledFile := by decide +kernel
  have stillNamed : 2 ∈ fileInos afterRead := by decide +kernel
  have first : Step filledFile _ _ := .read 2 (constBuf 0) 1000 0 named (by decide)
  have second : Step afterRead _ _ := .read 2 (constBuf 0) 1000 1000 stillNamed (by decide)
  have firstRet : (osfsRead filledFile (openInode filledFile 2) (constBuf 0) 1000 0).ret =
      .ok 1000 := by
    decide +kernel
  have secondRet : (osfsRead afterRead (openInode afterRead 2) (constBuf 0) 1000 1000).ret =
      .ok 500 := by
    decide +kernel
  have length : (fileView filledFile 2).readLen (1000 + (1000 + 0)) 0 = 1500 := by
    decide +kernel
  rw [firstRet] at first
  rw [secondRet] at second
  have run := ((@Trace.here _ _ osfsSystem _).snoc first).snoc second
  have gets := @reader_gets_file filledFile _ 2 _ _ 0 reachable named run
    (by simp [Event.Spares]) (List.Sublist.refl _) (by simp [ReadsOn])
  simpa [Event.out, Event.asked, length] using gets

end Reader

end NckuOs.Osfs
