import NckuOs.Osfs.FileContract

/-!
# Sizes, mappings and holes over whole runs

`i_size` is set from the final position alone and the mapping grows inside the
write loop.  The two stay in step, and unwritten bytes read as zeros, on the runs
whose writes meet the conditions stated here; a write outside them breaks the
property it is a condition of.
-/

set_option maxRecDepth 4000

namespace NckuOs.Osfs

open NckuOs.Bitmap
open NckuOs.ByteMemory
open NckuOs.RunLength
open NckuOs.Transition

/-- What one call does to the view of file `g`. -/
inductive FileChange (sb sb' : SbInfo) (event : Event) (g : Nat) : Prop
  | kept (named : g ∈ fileInos sb) (view : fileView sb' g = fileView sb g)
  | born (absent : g ∉ fileInos sb) (view : fileView sb' g = ⟨0, 0, fun _ => 0⟩)
  | wrote {buf : UserBuf} {len pos : Nat} {r : IoResult} (named : g ∈ fileInos sb)
      (isWrite : event = .write g buf len pos r.ret) (state : sb' = r.sb)
      (result : WriteResult sb g buf len pos r)

theorem fileChange_of_step {sb sb' : SbInfo} {event : Event} {g : Nat} (inv : Inv sb)
    (step : Step sb event sb') (named' : g ∈ fileInos sb') : FileChange sb sb' event g := by
  cases step with
  | create dentry mode cred newInode regular =>
      have effect := osfsCreate_effect inv dentry regular cred newInode
      by_cases named : g ∈ fileInos sb
      · exact .kept named (effect.views g named)
      · apply FileChange.born named
        apply (effect.fresh g _).2
        rw [fileInos, effect.entries, List.map_append, List.mem_append] at named'
        rcases named' with old | isNew
        · exact absurd old named
        · generalize createRet (osfsCreate sb rootDir dentry mode cred newInode) = ret at isNew ⊢
          cases ret with
          | error e => exact absurd isNew List.not_mem_nil
          | ok ino => rw [List.mem_singleton.mp isNew]
  | lookup => exact .kept named' rfl
  | read ino buf len pos fNamed _ =>
      have result := osfsRead_result inv fNamed buf len pos
      rw [result.effect.fileInos_eq inv fNamed] at named'
      apply FileChange.kept named'
      by_cases same : g = ino
      · rw [same]
        exact result.view_eq
      · exact result.effect.other_fileView inv fNamed named' same
  | write ino buf len pos fNamed _ =>
      have result := osfsWrite_result inv fNamed buf len pos
      rw [result.effect.fileInos_eq inv fNamed] at named'
      by_cases same : g = ino
      · subst same
        exact .wrote named' rfl rfl result
      · exact .kept named' (result.effect.other_fileView inv fNamed named' same)

/-! ## The size stays inside the mapping -/

/-- A write of no bytes keeps the size inside the mapped blocks: its position is
not behind the end of the file, or what becomes of it in 32 bits is mapped. -/
def SizeKept (sb : SbInfo) : Event → Prop
  | .write f _ len pos _ =>
      len = 0 → pos ≤ (sb.inodeTable f).iSize ∨ u32 pos ≤ blockSize * (blockMap sb f).length
  | _ => True

/-- The size of a file is inside its mapped blocks. -/
def FileView.Mapped (view : FileView) : Prop :=
  view.size ≤ 1024 * view.blocks

theorem FileView.mapped_store {view : FileView} {q n : Nat} {bytes : Nat → UInt8}
    (mapped : view.Mapped) : (view.store q n bytes).Mapped := by
  have more : view.blocks ≤ (view.store q n bytes).blocks := Nat.le_max_left _ _
  have size : (view.store q n bytes).size = view.size := rfl
  unfold Mapped at *
  omega

theorem FileView.mapped_grow {view : FileView} {pos : Nat} (mapped : view.Mapped)
    (inside : pos ≤ view.size ∨ u32 pos ≤ 1024 * view.blocks) : (view.grow pos).Mapped := by
  unfold Mapped grow at *
  simp only
  split
  case isTrue larger =>
    rcases inside with notLarger | fits
    · omega
    · exact fits
  case isFalse => exact mapped

/-- Where a write ends, in 32 bits, is inside the blocks it has mapped. -/
theorem u32_end_le {view : FileView} {len pos : Nat} {bytes : Nat → UInt8} (positive : 0 < len) :
    u32 (pos + len) ≤ 1024 * (view.store (filePos pos) len bytes).blocks := by
  have nonzero : len ≠ 0 := by omega
  have noMore : u32 (pos + len) ≤ filePos pos + len := by
    rw [filePos_eq]
    unfold u32
    omega
  simp only [FileView.store, blocksTo, if_neg nonzero]
  omega

theorem mapped_of_write {sb : SbInfo} {g len pos : Nat} {buf : UserBuf} {r : IoResult}
    (mapped : (fileView sb g).Mapped) (kept : SizeKept sb (.write g buf len pos r.ret))
    (result : WriteResult sb g buf len pos r) : (fileView r.sb g).Mapped := by
  cases result with
  | gap _ _ progress =>
      rw [progress.view_eq]
      exact mapped
  | stopped _ _ progress =>
      rw [progress.view_eq]
      exact FileView.mapped_store mapped
  | done _ _ progress =>
      rw [progress.view_eq]
      apply FileView.mapped_grow (FileView.mapped_store mapped)
      rcases Nat.eq_zero_or_pos len with none | some
      · subst none
        rw [Nat.add_zero, FileView.store_zero]
        exact kept rfl
      · exact .inr (u32_end_le some)

/-- Every file of a state is inside its mapping. -/
def AllMapped (sb : SbInfo) : Prop :=
  ∀ g ∈ fileInos sb, (fileView sb g).Mapped

theorem allMapped_step {sb sb' : SbInfo} {event : Event} (inv : Inv sb) (all : AllMapped sb)
    (step : Step sb event sb') (kept : SizeKept sb event) : AllMapped sb' := by
  intro g named'
  cases fileChange_of_step inv step named' with
  | kept named view =>
      rw [view]
      exact all g named
  | born _ view =>
      rw [view]
      exact Nat.zero_le _
  | wrote named isWrite state result =>
      subst state
      rw [isWrite] at kept
      exact mapped_of_write (all g named) kept result

theorem allMapped_of_reachable {sb : SbInfo}
    (reachable : Reachable (osfsSystem.restrict SizeKept) sb) : AllMapped sb := by
  obtain ⟨events, trace⟩ := reachable
  induction trace with
  | start mounted =>
      intro g named
      rw [osfsSystem_init_iff.mp mounted, fileInos, dirEntries_mountedSbInfo] at named
      exact absurd named List.not_mem_nil
  | snoc earlier last ih => exact allMapped_step (inv_of_trace earlier.of_restrict) ih last.1 last.2

/-- The condition is exact: a write outside it leaves a file whose size is not
inside its mapping. -/
theorem not_mapped_of_not_sizeKept {sb : SbInfo} {g len pos : Nat} {buf : UserBuf}
    {ret : Except Errno Nat} (inv : Inv sb) (named : g ∈ fileInos sb)
    (outside : ¬SizeKept sb (.write g buf len pos ret)) :
    ¬(fileView (osfsWrite sb (openInode sb g) buf len pos).sb g).Mapped := by
  simp only [SizeKept, Classical.not_imp, not_or, Nat.not_le] at outside
  obtain ⟨none, behind, unmapped⟩ := outside
  subst none
  have result := osfsWrite_result inv named buf 0 pos
  generalize osfsWrite sb (openInode sb g) buf 0 pos = r at result ⊢
  cases result with
  | gap positive => exact absurd positive (Nat.lt_irrefl 0)
  | stopped _ stopsAt => exact absurd stopsAt.start.1 (Nat.not_lt_zero _)
  | done _ _ progress =>
      rw [progress.view_eq, Nat.add_zero, FileView.store_zero]
      intro mapped
      have size : ((fileView sb g).grow pos).size = u32 pos := if_pos behind
      have inside : u32 pos ≤ 1024 * (fileView sb g).blocks := by
        rw [← size]
        exact mapped
      exact absurd unmapped (Nat.not_lt.mpr inside)

/-- In a file inside its mapping a read into a valid buffer delivers everything
between its position and the end of the file. -/
theorem ReadOutput.of_mapped {view : FileView} {buf : UserBuf} {len pos ppos : Nat}
    {ret : Except Errno Nat} {out : List UInt8} (mapped : view.Mapped) (valid : buf.Valid len)
    (output : ReadOutput view buf len pos ret ppos out) :
    ret = .ok (view.readLen len pos) ∧ out = view.slice pos (view.readLen len pos) := by
  have enough : 0 < view.readLen len pos → pos + view.readLen len pos ≤ view.blocks * 1024 := by
    unfold FileView.Mapped at mapped
    unfold FileView.readLen
    omega
  obtain ⟨returned, _, delivered⟩ := output.of_valid valid enough
  exact ⟨returned, delivered⟩

/-- On a run whose zero-length writes meet `SizeKept`, the size of every file is
inside its extents, and reads return what is left of the file. -/
theorem size_in_extents {sb : SbInfo} {f : Nat}
    (reachable : Reachable (osfsSystem.restrict SizeKept) sb) (named : f ∈ fileInos sb) :
    (sb.inodeTable f).iSize ≤ blockSize * ((extents sb f).map Run.len).sum ∧
      ∀ buf len pos, buf.Valid len →
        (osfsRead sb (openInode sb f) buf len pos).ret ≠ .error Errno.EIO ∧
          (osfsRead sb (openInode sb f) buf len pos).ret =
            .ok (if (sb.inodeTable f).iSize ≤ pos then 0
              else min len ((sb.inodeTable f).iSize - pos)) := by
  have inv := inv_of_reachable reachable.of_restrict
  have mapped := allMapped_of_reachable reachable f named
  constructor
  · rw [← length_expand]
    exact mapped
  · intro buf len pos valid
    have output := (osfsRead_result inv named buf len pos).output
    obtain ⟨ret, _⟩ := output.of_mapped mapped valid
    have readLen : (fileView sb f).readLen len pos =
        if (sb.inodeTable f).iSize ≤ pos then 0 else min len ((sb.inodeTable f).iSize - pos) := by
      have size : (fileView sb f).size = (sb.inodeTable f).iSize := rfl
      unfold FileView.readLen
      rw [size]
      split <;> omega
    rw [ret, readLen]
    constructor
    · intro isError
      cases isError
    · rfl

theorem oneFile_sizeKept : Reachable (osfsSystem.restrict SizeKept) oneFile := by
  have mounted : Reachable (osfsSystem.restrict SizeKept) mountedSbInfo :=
    .start (osfsSystem_init_iff.mpr rfl)
  exact mounted.snoc ⟨.create nameA 0o100644 superuser true (by decide), trivial⟩

/-- The state after a write of 1500 bytes to the one file. -/
def filledFile : SbInfo :=
  (osfsWrite oneFile (openInode oneFile 2) (constBuf 7) 1500 0).sb

theorem size_in_extents_filledFile :
    (osfsRead filledFile (openInode filledFile 2) (constBuf 0) 1000 1000).ret = .ok 500 := by
  have wrote : Step oneFile (.write 2 (constBuf 7) 1500 0
      (osfsWrite oneFile (openInode oneFile 2) (constBuf 7) 1500 0).ret) filledFile :=
    .write 2 (constBuf 7) 1500 0 oneFile_named (by decide)
  have reachable : Reachable (osfsSystem.restrict SizeKept) filledFile :=
    oneFile_sizeKept.snoc ⟨wrote, fun none => absurd none (by decide)⟩
  have named : 2 ∈ fileInos filledFile := by decide +kernel
  have small : 1000 < loffLimit := by decide
  have size : (filledFile.inodeTable 2).iSize = 1500 := by decide +kernel
  have read := (size_in_extents reachable named).2 (constBuf 0) 1000 1000 (constBuf_valid small)
  rw [size] at read
  exact read.2

/-- A write of no bytes behind the end sets the size of a file that has no block,
and reads of it fail from then on. -/
theorem size_behind_extents :
    ¬∀ sb, OsfsReachable sb → ∀ f ∈ fileInos sb,
      (sb.inodeTable f).iSize ≤ blockSize * ((extents sb f).map Run.len).sum ∧
        ∀ buf len pos, buf.Valid len →
          (osfsRead sb (openInode sb f) buf len pos).ret ≠ .error Errno.EIO ∧
            (osfsRead sb (openInode sb f) buf len pos).ret =
              .ok (if (sb.inodeTable f).iSize ≤ pos then 0
                else min len ((sb.inodeTable f).iSize - pos)) := by
  intro all
  have reachable : OsfsReachable (osfsWrite oneFile (openInode oneFile 2) (constBuf 7) 0 5000).sb :=
    oneFile_reachable.snoc (.write 2 (constBuf 7) 0 5000 oneFile_named (by decide))
  have named : 2 ∈ fileInos (osfsWrite oneFile (openInode oneFile 2) (constBuf 7) 0 5000).sb := by
    decide +kernel
  have small : 1 < loffLimit := by decide
  have reads := ((all _ reachable 2 named).2 (constBuf 0) 1 0 (constBuf_valid small)).1
  apply reads
  decide +kernel

/-! ## Unwritten bytes -/

/-- The byte at offset `x` of file `f` is in the range of a successful write. -/
def Event.Covers (f x : Nat) : Event → Prop
  | .write ino _ _ pos (.ok n) => ino = f ∧ pos ≤ x ∧ x < pos + n
  | _ => False

/-- Some successful write of the history covers the byte. -/
def Covered (events : List Event) (f x : Nat) : Prop :=
  ∃ event ∈ events, event.Covers f x

theorem covered_snoc_iff {events : List Event} {event : Event} {f x : Nat} :
    Covered (events ++ [event]) f x ↔ Covered events f x ∨ event.Covers f x := by
  simp only [Covered, List.mem_append, List.mem_singleton]
  constructor
  · rintro ⟨other, old | rfl, covers⟩
    · exact .inl ⟨other, old, covers⟩
    · exact .inr covers
  · rintro (⟨other, old, covers⟩ | covers)
    · exact ⟨other, .inl old, covers⟩
    · exact ⟨event, .inr rfl, covers⟩

/-- A write keeps unwritten bytes at zero: when it stores everything it ends below
4 GiB, and when it stops on the way it turns no zero of the file into something
else. -/
structure ZerosKept (sb : SbInfo) (f : Nat) (buf : UserBuf) (len pos : Nat) : Prop where
  below : (len = 0 ∨ filePos pos / 1024 ≤ (fileView sb f).blocks) →
    Passes (room sb f) (filePos pos) len buf → pos + len < 2 ^ 32
  zeros : filePos pos / 1024 ≤ (fileView sb f).blocks →
    ∀ j, StopsAt (room sb f) (filePos pos) len buf j →
      ∀ i < storedLen (room sb f) (filePos pos) len j,
        storedByte buf j i ≠ 0 → (fileView sb f).bytes (filePos pos + i) ≠ 0

/-- The condition on the calls of a run. -/
def HolesKept (sb : SbInfo) (event : Event) : Prop :=
  SizeKept sb event ∧
    match event with
    | .write f buf len pos _ => ZerosKept sb f buf len pos
    | _ => True

/-- What holds of a file whose unwritten bytes are zeros. -/
structure ZeroFilled (events : List Event) (f : Nat) (view : FileView) : Prop where
  behind : ∀ x, view.size ≤ x → view.bytes x = 0
  holes : ∀ x, ¬Covered events f x → view.bytes x = 0

theorem ZeroFilled.snoc {events : List Event} {event : Event} {f : Nat} {view : FileView}
    (filled : ZeroFilled events f view) : ZeroFilled (events ++ [event]) f view where
  behind := filled.behind
  holes x uncovered := filled.holes x fun covered => uncovered (covered_snoc_iff.mpr (.inl covered))

/-- A write of the whole range below 4 GiB covers what it stores. -/
theorem ZeroFilled.write {events : List Event} {f len pos : Nat} {view : FileView} {buf : UserBuf}
    (filled : ZeroFilled events f view) (small : pos + len < 2 ^ 32) :
    ZeroFilled (events ++ [.write f buf len pos (.ok len)]) f
      ((view.store (filePos pos) len buf.byte).grow (pos + len)) := by
  have noWrap : filePos pos = pos := filePos_of_lt (by omega)
  have elsewhere {x : Nat} (outside : x < pos ∨ pos + len ≤ x) :
      ((view.store pos len buf.byte).grow (pos + len)).bytes x = view.bytes x :=
    store_of_not_mem outside
  rw [noWrap]
  constructor
  case behind =>
    intro x behind
    rw [FileView.grow_of_lt small] at behind
    have old : view.size ≤ x := Nat.le_trans (Nat.le_max_left _ _) behind
    have outside : pos + len ≤ x := Nat.le_trans (Nat.le_max_right _ _) behind
    rw [elsewhere (.inr outside)]
    exact filled.behind x old
  case holes =>
    intro x uncovered
    rw [covered_snoc_iff, not_or] at uncovered
    rw [elsewhere]
    · exact filled.holes x uncovered.1
    · by_contra inside
      rw [not_or, Nat.not_lt, Nat.not_le] at inside
      exact uncovered.2 ⟨rfl, inside.1, inside.2⟩

/-- Stored bytes that are not zero where there was a zero are the only danger. -/
theorem ZeroFilled.store {events : List Event} {f q n : Nat} {view : FileView}
    {bytes : Nat → UInt8} (filled : ZeroFilled events f view)
    (kept : ∀ i < n, bytes i ≠ 0 → view.bytes (q + i) ≠ 0) :
    ZeroFilled events f (view.store q n bytes) := by
  have zero {x : Nat} (old : view.bytes x = 0) : (view.store q n bytes).bytes x = 0 := by
    by_cases inside : q ≤ x ∧ x < q + n
    · have stored : (view.store q n bytes).bytes x = bytes (x - q) :=
        store_of_mem inside.1 inside.2
      rw [stored]
      by_contra nonzero
      have there := kept (x - q) (by omega) nonzero
      rw [Nat.add_sub_cancel' inside.1] at there
      exact there old
    · have same : (view.store q n bytes).bytes x = view.bytes x := store_of_not_mem (by omega)
      rw [same, old]
  exact ⟨fun x behind => zero (filled.behind x behind),
    fun x uncovered => zero (filled.holes x uncovered)⟩

theorem zeroFilled_of_write {events : List Event} {sb : SbInfo} {g len pos : Nat} {buf : UserBuf}
    {r : IoResult} (filled : ZeroFilled events g (fileView sb g))
    (kept : ZerosKept sb g buf len pos) (result : WriteResult sb g buf len pos r) :
    ZeroFilled (events ++ [.write g buf len pos r.ret]) g (fileView r.sb g) := by
  cases result with
  | gap _ _ progress =>
      rw [progress.view_eq]
      exact filled.snoc
  | done within passes progress =>
      rw [progress.view_eq]
      exact filled.write (kept.below within passes)
  | stopped within stopsAt progress =>
      rw [progress.view_eq]
      exact (filled.store (kept.zeros within _ stopsAt)).snoc

/-- The histories whose calls keep the zeros. -/
abbrev ZeroTrace (events : List Event) (sb : SbInfo) : Prop :=
  Trace (osfsSystem.restrict HolesKept) events sb

theorem zeroFilled_of_trace {events : List Event} {sb : SbInfo} (trace : ZeroTrace events sb) :
    ∀ g ∈ fileInos sb, ZeroFilled events g (fileView sb g) := by
  induction trace with
  | start mounted =>
      intro g named
      rw [osfsSystem_init_iff.mp mounted, fileInos, dirEntries_mountedSbInfo] at named
      exact absurd named List.not_mem_nil
  | snoc earlier last ih =>
      intro g named'
      cases fileChange_of_step (inv_of_trace earlier.of_restrict) last.1 named' with
      | kept named view =>
          rw [view]
          exact (ih g named).snoc
      | born _ view =>
          rw [view]
          exact ⟨fun _ _ => rfl, fun _ _ => rfl⟩
      | wrote named isWrite state result =>
          subst state
          have kept := last.2.2
          rw [isWrite] at kept ⊢
          exact zeroFilled_of_write (ih g named) kept result

theorem ZeroTrace.sizeKept {events : List Event} {sb : SbInfo} (trace : ZeroTrace events sb) :
    Reachable (osfsSystem.restrict SizeKept) sb := by
  induction trace with
  | start mounted => exact .start mounted
  | snoc _ last ih => exact ih.snoc ⟨last.1, last.2.1⟩

section HolesReadZero

variable {events : List Event} {sb sb' : SbInfo} {f len pos n : Nat} {buf : UserBuf}

/-- A read into a valid buffer, byte by byte. -/
theorem read_getElem? (trace : ZeroTrace events sb) (named : f ∈ fileInos sb)
    (valid : buf.Valid len) (pos : Nat) :
    (osfsRead sb (openInode sb f) buf len pos).ret = .ok (min len ((sb.inodeTable f).iSize - pos)) ∧
      ∀ i < min len ((sb.inodeTable f).iSize - pos),
        (osfsRead sb (openInode sb f) buf len pos).out[i]? =
          some ((fileView sb f).bytes (pos + i)) := by
  have inv := inv_of_trace trace.of_restrict
  have mapped := allMapped_of_reachable trace.sizeKept f named
  have output := (osfsRead_result inv named buf len pos).output
  obtain ⟨ret, out⟩ := output.of_mapped mapped valid
  refine ⟨ret, ?_⟩
  intro i below
  rw [out]
  exact FileView.slice_getElem? below

/-- What a successful write has made of the bytes behind the old end. -/
theorem grown_byte (trace : ZeroTrace events sb) (named : f ∈ fileInos sb)
    (step : Step sb (.write f buf len pos (.ok n)) sb')
    (kept : HolesKept sb (.write f buf len pos (.ok n))) {x : Nat}
    (behind : (sb.inodeTable f).iSize ≤ x) :
    (fileView sb' f).bytes x = if pos ≤ x ∧ x < pos + len then buf.byte (x - pos) else 0 := by
  have inv := inv_of_trace trace.of_restrict
  have old : (fileView sb f).bytes x = 0 := (zeroFilled_of_trace trace f named).behind x behind
  generalize isWrite : Event.write f buf len pos (.ok n) = event at step
  cases step with
  | create => cases isWrite
  | lookup => cases isWrite
  | read => cases isWrite
  | write ino wbuf wlen wpos _ _ =>
      obtain ⟨rfl, rfl, rfl, rfl, ret⟩ := Event.write.inj isWrite
      have result := osfsWrite_result inv named buf len pos
      generalize osfsWrite sb (openInode sb f) buf len pos = r at result ret ⊢
      cases result with
      | gap => cases ret
      | stopped => cases ret
      | done within passes progress =>
          have small := kept.2.below within passes
          have noWrap : filePos pos = pos := filePos_of_lt (by omega)
          rw [progress.view_eq, noWrap]
          split
          case isTrue inside => exact store_of_mem inside.1 inside.2
          case isFalse outside =>
            have same : (((fileView sb f).store pos len buf.byte).grow (pos + len)).bytes x =
                (fileView sb f).bytes x := store_of_not_mem (by omega)
            rw [same, old]

/-- On a run whose writes meet `HolesKept`, every byte below the size that no
successful write covers is read as zero, and what a write makes readable are its
own bytes and zeros. -/
theorem holes_read_zero (trace : ZeroTrace events sb) (named : f ∈ fileInos sb) :
    (∀ buf len pos, buf.Valid len →
      (osfsRead sb (openInode sb f) buf len pos).ret =
          .ok (min len ((sb.inodeTable f).iSize - pos)) ∧
        ∀ i < min len ((sb.inodeTable f).iSize - pos), ¬Covered events f (pos + i) →
          (osfsRead sb (openInode sb f) buf len pos).out[i]? = some 0) ∧
      ∀ wbuf wlen wpos n sb', Step sb (.write f wbuf wlen wpos (.ok n)) sb' →
        HolesKept sb (.write f wbuf wlen wpos (.ok n)) →
        ∀ buf len pos, buf.Valid len → ∀ i < len, (sb.inodeTable f).iSize ≤ pos + i →
          pos + i < (sb'.inodeTable f).iSize →
          (osfsRead sb' (openInode sb' f) buf len pos).out[i]? =
            some (if wpos ≤ pos + i ∧ pos + i < wpos + wlen then wbuf.byte (pos + i - wpos)
              else 0) := by
  constructor
  · intro buf len pos valid
    obtain ⟨ret, out⟩ := read_getElem? trace named valid pos
    refine ⟨ret, ?_⟩
    intro i below uncovered
    rw [out i below, (zeroFilled_of_trace trace f named).holes _ uncovered]
  · intro wbuf wlen wpos n sb' step kept buf len pos valid i below behind inFile
    have trace' : ZeroTrace (events ++ [.write f wbuf wlen wpos (.ok n)]) sb' :=
      trace.snoc ⟨step, kept⟩
    have named' : f ∈ fileInos sb' := by
      have inv := inv_of_trace trace.of_restrict
      rw [fileInos, dirEntries_step inv step, List.map_append]
      exact List.mem_append_left _ named
    obtain ⟨_, out⟩ := read_getElem? trace' named' valid pos
    rw [out i (by omega), grown_byte trace named step kept behind]

end HolesReadZero

theorem oneFile_zeroTrace :
    ZeroTrace [.create nameA 0o100644 superuser true (.ok 2)] oneFile := by
  have ret : createRet (osfsCreate mountedSbInfo rootDir nameA 0o100644 superuser true) =
      .ok 2 := by
    decide +kernel
  rw [← ret]
  have mounted : ZeroTrace [] mountedSbInfo := .start (osfsSystem_init_iff.mpr rfl)
  exact mounted.snoc ⟨.create nameA 0o100644 superuser true (by decide), trivial, trivial⟩

/-- The state after a write of one byte with a gap before it. -/
def gapFile : SbInfo :=
  (osfsWrite oneFile (openInode oneFile 2) (constBuf 7) 1 1000).sb

/-- The byte before the one written is in a hole. -/
theorem holes_read_zero_gapFile :
    (osfsRead gapFile (openInode gapFile 2) (constBuf 9) 2 999).out[0]? = some 0 := by
  have ret : (osfsWrite oneFile (openInode oneFile 2) (constBuf 7) 1 1000).ret = .ok 1 := by
    decide +kernel
  have wrote : Step oneFile (.write 2 (constBuf 7) 1 1000 (.ok 1)) gapFile := by
    rw [← ret]
    exact .write 2 (constBuf 7) 1 1000 oneFile_named (by decide)
  have small : 1 < loffLimit := by decide
  have enough : filePos 1000 + 1 ≤ room oneFile 2 * 1024 := by decide +kernel
  have zeros : ZerosKept oneFile 2 (constBuf 7) 1 1000 := by
    constructor
    case below => exact fun _ _ => by decide
    case zeros =>
      intro _ j stopsAt
      exact absurd (passes_of_valid (constBuf_valid small) enough) stopsAt.not_passes
  have trace := oneFile_zeroTrace.snoc ⟨wrote, fun none => absurd none (by decide), zeros⟩
  have named : 2 ∈ fileInos gapFile := by decide +kernel
  have size : (gapFile.inodeTable 2).iSize = 1001 := by decide +kernel
  have valid : (constBuf 9).Valid 2 := constBuf_valid (by decide)
  apply ((holes_read_zero trace named).1 (constBuf 9) 2 999 valid).2 0
  · rw [size]
    decide
  · rintro ⟨event, isMem, covers⟩
    simp only [List.cons_append, List.nil_append, List.mem_cons, List.not_mem_nil,
      or_false] at isMem
    rcases isMem with rfl | rfl
    · exact covers
    · exact absurd covers.2.1 (by decide)

/-- The state after a write of two bytes whose buffer faults after the first. -/
def strayFile : SbInfo :=
  (osfsWrite oneFile (openInode oneFile 2) (faultAfter 88 1) 2 0).sb

/-- A write that fails in its first chunk leaves a byte behind, and the next
successful write makes it readable. -/
theorem failed_write_shows :
    ¬∀ events sb, OsfsTrace events sb → ∀ f ∈ fileInos sb, ∀ buf len pos, buf.Valid len →
      (osfsRead sb (openInode sb f) buf len pos).ret =
          .ok (min len ((sb.inodeTable f).iSize - pos)) ∧
        ∀ i < min len ((sb.inodeTable f).iSize - pos), ¬Covered events f (pos + i) →
          (osfsRead sb (openInode sb f) buf len pos).out[i]? = some 0 := by
  intro all
  have fails : (osfsWrite oneFile (openInode oneFile 2) (faultAfter 88 1) 2 0).ret =
      .error .EFAULT := by
    decide +kernel
  have first : OsfsTrace ([.create nameA 0o100644 superuser true (.ok 2)] ++
      [.write 2 (faultAfter 88 1) 2 0 (.error .EFAULT)]) strayFile := by
    rw [← fails]
    exact oneFile_trace.snoc (.write 2 (faultAfter 88 1) 2 0 oneFile_named (by decide))
  have named : 2 ∈ fileInos strayFile := by decide +kernel
  have succeeds : (osfsWrite strayFile (openInode strayFile 2) (constBuf 89) 1 1).ret = .ok 1 := by
    decide +kernel
  have second := first.snoc (.write 2 (constBuf 89) 1 1 named (by decide))
  rw [succeeds] at second
  have named' :
      2 ∈ fileInos (osfsWrite strayFile (openInode strayFile 2) (constBuf 89) 1 1).sb := by
    decide +kernel
  have valid : (constBuf 0).Valid 1 := constBuf_valid (by decide)
  have inFile : 0 < min 1
      (((osfsWrite strayFile (openInode strayFile 2) (constBuf 89) 1 1).sb.inodeTable 2).iSize -
        0) := by
    decide +kernel
  have uncovered : ¬Covered
      ([.create nameA 0o100644 superuser true (.ok 2)] ++
        [.write 2 (faultAfter 88 1) 2 0 (.error .EFAULT)] ++
        [.write 2 (constBuf 89) 1 1 (.ok 1)]) 2 (0 + 0) := by
    rintro ⟨event, isMem, covers⟩
    simp only [List.cons_append, List.nil_append, List.mem_cons, List.not_mem_nil,
      or_false] at isMem
    rcases isMem with rfl | rfl | rfl
    · exact covers
    · exact covers
    · exact absurd covers.2.1 (by decide)
  have zero := (all _ _ second 2 named' (constBuf 0) 1 0 valid).2 0 inFile uncovered
  exact absurd zero (by decide +kernel)

end NckuOs.Osfs
