import NckuOs.Osfs.Names

/-!
# What a user of one file can rely on

Two results about the content of files: a successful write is what later reads
return and nothing else in the file changes, and no call touches a file it is
not about.
-/

set_option maxRecDepth 4000

namespace NckuOs.Osfs

open NckuOs.Bitmap
open NckuOs.ByteMemory
open NckuOs.RunLength
open NckuOs.Transition

/-! ## Isolation -/

/-- The file that a call reads or writes. -/
def Event.file : Event → Option Nat
  | .read ino _ _ _ _ _ => some ino
  | .write ino _ _ _ _ => some ino
  | _ => none

/-- File `g` is the same in both states: its size, its count of blocks, its
extent table, the content of its blocks, and everything a read of it returns. -/
structure SameFile (sb sb' : SbInfo) (g : Nat) : Prop where
  size : (sb'.inodeTable g).iSize = (sb.inodeTable g).iSize
  blocks : (sb'.inodeTable g).iBlocks = (sb.inodeTable g).iBlocks
  table : (sb'.inodeTable g).iBlock = (sb.inodeTable g).iBlock ∧ extents sb' g = extents sb g
  data : ∀ block ∈ fileBlocks sb g, SameBlock sb.dataBlocks sb'.dataBlocks block
  reads : ∀ buf len pos,
    (osfsRead sb' (openInode sb' g) buf len pos).ret =
        (osfsRead sb (openInode sb g) buf len pos).ret ∧
      (osfsRead sb' (openInode sb' g) buf len pos).ppos =
        (osfsRead sb (openInode sb g) buf len pos).ppos ∧
      (osfsRead sb' (openInode sb' g) buf len pos).out =
        (osfsRead sb (openInode sb g) buf len pos).out

section SameFile

variable {sb sb' : SbInfo} {f g : Nat}

/-- Files with equal views read alike. -/
theorem reads_eq_of_fileView_eq (inv : Inv sb) (inv' : Inv sb') (named : g ∈ fileInos sb)
    (named' : g ∈ fileInos sb') (views : fileView sb' g = fileView sb g) (buf : UserBuf)
    (len pos : Nat) :
    (osfsRead sb' (openInode sb' g) buf len pos).ret =
        (osfsRead sb (openInode sb g) buf len pos).ret ∧
      (osfsRead sb' (openInode sb' g) buf len pos).ppos =
        (osfsRead sb (openInode sb g) buf len pos).ppos ∧
      (osfsRead sb' (openInode sb' g) buf len pos).out =
        (osfsRead sb (openInode sb g) buf len pos).out := by
  have before := (osfsRead_result inv named buf len pos).output
  have after := (osfsRead_result inv' named' buf len pos).output
  rw [views] at after
  exact after.unique before

theorem CreateEffect.sameFile {name : List UInt8} {ret : Except Errno Nat} (inv : Inv sb)
    (effect : CreateEffect sb name ret sb') (named : g ∈ fileInos sb) : SameFile sb sb' g where
  size := by rw [effect.slots g named]
  blocks := by rw [effect.slots g named]
  table := ⟨by rw [effect.slots g named], effect.tables g named⟩
  data := effect.data g named
  reads := by
    have stillNamed : g ∈ fileInos sb' := by
      rw [fileInos, effect.entries, List.map_append]
      exact List.mem_append_left _ named
    exact reads_eq_of_fileView_eq inv effect.inv named stillNamed (effect.views g named)

theorem FileEffect.sameFile (inv : Inv sb) (effect : FileEffect f sb sb')
    (fNamed : f ∈ fileInos sb) (named : g ∈ fileInos sb) (ne : g ≠ f) : SameFile sb sb' g where
  size := by rw [effect.other_slot ne]
  blocks := by rw [effect.other_slot ne]
  table := ⟨by rw [effect.other_slot ne], effect.other_extents inv fNamed named ne⟩
  data := by
    obtain ⟨_, step⟩ := effect.step
    intro block isMem
    exact step.other_sameBlock inv fNamed named ne isMem
  reads := by
    have stillNamed : g ∈ fileInos sb' := by
      rw [effect.fileInos_eq inv fNamed]
      exact named
    exact reads_eq_of_fileView_eq inv effect.inv named stillNamed
      (effect.other_fileView inv fNamed named ne)

end SameFile

/-- From every reachable state, a call leaves every file but the one it reads or
writes as it is, and the directory too, up to the entry that a successful
creation appends. -/
theorem other_files_unchanged {sb sb' : SbInfo} {event : Event} (reachable : OsfsReachable sb)
    (step : Step sb event sb') :
    (∀ g ∈ fileInos sb, event.file ≠ some g → SameFile sb sb' g) ∧
      dirEntries sb' = dirEntries sb ++ event.newEntries := by
  have inv := inv_of_reachable reachable
  refine ⟨?_, dirEntries_step inv step⟩
  intro g named other
  cases step with
  | create dentry mode cred newInode regular =>
      exact (osfsCreate_effect inv dentry regular cred newInode).sameFile inv named
  | lookup =>
      exact ⟨rfl, rfl, ⟨rfl, rfl⟩, fun _ _ => SameBlock.refl _ _, fun _ _ _ => ⟨rfl, rfl, rfl⟩⟩
  | read ino buf len pos fNamed _ =>
      have ne : g ≠ ino := by
        rintro rfl
        exact other rfl
      exact (osfsRead_result inv fNamed buf len pos).effect.sameFile inv fNamed named ne
  | write ino buf len pos fNamed _ =>
      have ne : g ≠ ino := by
        rintro rfl
        exact other rfl
      exact (osfsWrite_result inv fNamed buf len pos).effect.sameFile inv fNamed named ne

theorem other_files_unchanged_oneFile :
    SameFile oneFile
      (resultState (osfsCreate oneFile rootDir nameB 0o100644 superuser true)) 2 :=
  (other_files_unchanged oneFile_reachable
    (.create nameB 0o100644 superuser true (by decide))).1 2 oneFile_named (by decide)

/-! ## Read after write -/

/-- The view after a successful write below 4 GiB. -/
def FileView.written (view : FileView) (pos len : Nat) (bytes : Nat → UInt8) : FileView where
  size := max view.size (pos + len)
  blocks := max view.blocks (blocksTo pos len)
  bytes := ByteMemory.store view.bytes pos len bytes

section ReadAfterWrite

variable {sb sb' : SbInfo} {f len pos n : Nat} {buf : UserBuf} {r : IoResult}

theorem progress_of_write_ok (inv : Inv sb) (named : f ∈ fileInos sb) (small : pos + len < 2 ^ 32)
    (write : osfsWrite sb (openInode sb f) buf len pos = r) (ok : r.ret = .ok n) :
    n = len ∧ r.ppos = pos + len ∧
      Progress sb r.sb f ((fileView sb f).written pos len buf.byte) := by
  have result := osfsWrite_result inv named buf len pos
  rw [write] at result
  cases result with
  | gap => cases ok
  | stopped => cases ok
  | done _ _ progress =>
      have noWrap : filePos pos = pos := filePos_of_lt (by omega)
      rw [noWrap, FileView.grow_of_lt small] at progress
      exact ⟨(Except.ok.inj ok).symm, rfl, progress⟩

/-- A written range is mapped. -/
theorem FileView.written_mapped {view : FileView} {bytes : Nat → UInt8} (positive : 0 < len) :
    pos + len ≤ (view.written pos len bytes).blocks * 1024 := by
  have nonzero : len ≠ 0 := by omega
  simp only [FileView.written, blocksTo, if_neg nonzero]
  omega

/-- A read inside the range of the write returns its bytes. -/
theorem read_written {rbuf : UserBuf} {rlen rpos : Nat} (positive : 0 < len)
    (progress : Progress sb sb' f ((fileView sb f).written pos len buf.byte))
    (valid : rbuf.Valid rlen) (low : pos ≤ rpos) (high : rpos + rlen ≤ pos + len) :
    (osfsRead sb' (openInode sb' f) rbuf rlen rpos).ret = .ok rlen ∧
      (osfsRead sb' (openInode sb' f) rbuf rlen rpos).out =
        (List.range rlen).map fun i => buf.byte (rpos - pos + i) := by
  have output := (osfsRead_result progress.ready.inv progress.ready.named rbuf rlen rpos).output
  rw [progress.view_eq] at output
  have whole : ((fileView sb f).written pos len buf.byte).readLen rlen rpos = rlen := by
    simp only [FileView.readLen, FileView.written]
    omega
  have mapped : pos + len ≤ ((fileView sb f).written pos len buf.byte).blocks * 1024 :=
    FileView.written_mapped positive
  obtain ⟨ret, _, out⟩ := output.of_valid valid (by omega)
  rw [whole] at ret out
  refine ⟨ret, out.trans ?_⟩
  apply List.map_congr_left
  intro i isMem
  have below := List.mem_range.mp isMem
  have stored : ((fileView sb f).written pos len buf.byte).bytes (rpos + i) =
      buf.byte (rpos + i - pos) := store_of_mem (by omega) (by omega)
  rw [stored]
  congr 1
  omega

/-- A read that succeeded before the write succeeds after it, and differs inside
the range of the write only. -/
theorem read_unwritten {rbuf : UserBuf} {rlen rpos m : Nat} (inv : Inv sb)
    (named : f ∈ fileInos sb) (positive : 0 < len)
    (progress : Progress sb sb' f ((fileView sb f).written pos len buf.byte))
    (valid : rbuf.Valid rlen) (before : (osfsRead sb (openInode sb f) rbuf rlen rpos).ret = .ok m) :
    ∃ m', m ≤ m' ∧ (osfsRead sb' (openInode sb' f) rbuf rlen rpos).ret = .ok m' ∧
      ∀ i < m, rpos + i < pos ∨ pos + len ≤ rpos + i →
        (osfsRead sb' (openInode sb' f) rbuf rlen rpos).out[i]? =
          (osfsRead sb (openInode sb f) rbuf rlen rpos).out[i]? := by
  have old := (osfsRead_result inv named rbuf rlen rpos).output
  have output := (osfsRead_result progress.ready.inv progress.ready.named rbuf rlen rpos).output
  rw [progress.view_eq] at output
  have mapped : pos + len ≤ ((fileView sb f).written pos len buf.byte).blocks * 1024 :=
    FileView.written_mapped positive
  rw [before] at old
  obtain ⟨oldLen, oldOut, oldMapped⟩ := old.of_ok
  have oldBlocks : (fileView sb f).blocks ≤
      ((fileView sb f).written pos len buf.byte).blocks := Nat.le_max_left _ _
  have newSize : ((fileView sb f).written pos len buf.byte).size =
      max (fileView sb f).size (pos + len) := rfl
  obtain ⟨ret, _, out⟩ := output.of_valid valid (by
    intro some
    unfold FileView.readLen at some oldLen ⊢
    omega)
  have longer : m ≤ ((fileView sb f).written pos len buf.byte).readLen rlen rpos := by
    unfold FileView.readLen at oldLen ⊢
    omega
  refine ⟨_, longer, ret, ?_⟩
  intro i below outside
  have unwritten : ((fileView sb f).written pos len buf.byte).bytes (rpos + i) =
      (fileView sb f).bytes (rpos + i) := store_of_not_mem outside
  rw [out, oldOut, FileView.slice_getElem? (Nat.lt_of_lt_of_le below longer),
    FileView.slice_getElem? below, unwritten]

/-- A write of `len > 0` bytes below 4 GiB that does not fail writes all of them:
`*ppos` advances by `len`, the size grows to cover the range, later reads inside
the range return the bytes written, and every byte outside it that a read could
return is returned as before. -/
theorem read_after_write (reachable : OsfsReachable sb) (named : f ∈ fileInos sb)
    (positive : 0 < len) (small : pos + len < 2 ^ 32)
    (write : osfsWrite sb (openInode sb f) buf len pos = r) (ok : r.ret = .ok n) :
    n = len ∧ r.ppos = pos + len ∧
      (r.sb.inodeTable f).iSize = max (sb.inodeTable f).iSize (pos + len) ∧
      (∀ rbuf rlen rpos, rbuf.Valid rlen → pos ≤ rpos → rpos + rlen ≤ pos + len →
        (osfsRead r.sb (openInode r.sb f) rbuf rlen rpos).ret = .ok rlen ∧
          (osfsRead r.sb (openInode r.sb f) rbuf rlen rpos).out =
            (List.range rlen).map fun i => buf.byte (rpos - pos + i)) ∧
      ∀ rbuf rlen rpos m, rbuf.Valid rlen →
        (osfsRead sb (openInode sb f) rbuf rlen rpos).ret = .ok m →
        ∃ m', m ≤ m' ∧ (osfsRead r.sb (openInode r.sb f) rbuf rlen rpos).ret = .ok m' ∧
          ∀ i < m, rpos + i < pos ∨ pos + len ≤ rpos + i →
            (osfsRead r.sb (openInode r.sb f) rbuf rlen rpos).out[i]? =
              (osfsRead sb (openInode sb f) rbuf rlen rpos).out[i]? := by
  have inv := inv_of_reachable reachable
  obtain ⟨wrote, advanced, progress⟩ := progress_of_write_ok inv named small write ok
  refine ⟨wrote, advanced, congrArg FileView.size progress.view_eq, ?_, ?_⟩
  · intro rbuf rlen rpos valid low high
    exact read_written positive progress valid low high
  · intro rbuf rlen rpos m valid before
    exact read_unwritten inv named positive progress valid before

/-- Three bytes written across the first block boundary are read back. -/
theorem read_after_write_oneFile :
    (osfsRead (osfsWrite oneFile (openInode oneFile 2) (constBuf 7) 1030 0).sb
        (openInode (osfsWrite oneFile (openInode oneFile 2) (constBuf 7) 1030 0).sb 2)
        (constBuf 0) 3 1022).out = [7, 7, 7] := by
  have ok : (osfsWrite oneFile (openInode oneFile 2) (constBuf 7) 1030 0).ret = .ok 1030 := by
    decide +kernel
  have small : 3 < loffLimit := by decide
  have contract := read_after_write oneFile_reachable oneFile_named (by decide) (by decide) rfl ok
  exact (contract.2.2.2.1 (constBuf 0) 3 1022 (constBuf_valid small) (by decide) (by decide)).2

end ReadAfterWrite

end NckuOs.Osfs
