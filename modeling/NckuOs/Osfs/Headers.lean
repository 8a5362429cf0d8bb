import NckuOs.Osfs.Reachable

/-!
# Which blocks are extent tables

A table is recognised by the magic number at the start of a block that `osfs_create` does
not clear.  In every reachable state that is enough: a file's table block carries a valid
header, or the file has never been written and the block is still zero.
-/

set_option maxRecDepth 4000

namespace NckuOs.Osfs

open NckuOs.ByteMemory
open NckuOs.Transition

/-- The table block is the only block of the file, and it lists no extent. -/
def MapsNothing (sb : SbInfo) (f : Nat) : Prop :=
  (sb.inodeTable f).iBlocks = 1 ∧ hdrCount sb.dataBlocks (osfsGetExtentHeader sb f) = 0

/-- The error code that sends `osfs_read` and `osfs_write` on to the single-block path. -/
def FallsThrough (extent : IoResult) : Prop :=
  extent.ret = .error .EOPNOTSUPP

variable {sb sb' : SbInfo} {f : Nat} {inode : Inode}

theorem hdrCount_of_zero {mem : Mem} {block : Nat} (zero : BlockZero mem block) :
    hdrCount mem (block * 1024) = 0 := by
  apply load32_eq_zero
  intro a low high
  apply zero a
  · omega
  · omega

/-- A file in order has a valid header, or has no size and maps nothing. -/
theorem Inv.header (inv : Inv sb) (named : f ∈ fileInos sb) :
    (sb.inodeTable f).iSize = 0 ∧ MapsNothing sb f ∨ HeaderValid sb f := by
  have ok := inv.fileOk named
  rcases ok.table with valid | ⟨zero, empty⟩
  · exact .inr valid
  · left
    refine ⟨empty, ?_, ?_⟩
    · have noBlock : blockMap sb f = [] := by
        rw [blockMap, extents_of_zero (inv.table_lt named) zero]
        rfl
      rw [ok.blocks, noBlock]
      rfl
    · rw [inv.hdr_eq named]
      exact hdrCount_of_zero zero

/-! ## The extent path -/

/-- The extent path takes of an inode only the slot that `i_private` points to. -/
theorem osfsExtentDoRead_private (slot : inode.iPrivate = some f) (buf : UserBuf)
    (len pos : Nat) :
    osfsExtentDoRead sb inode buf len pos = osfsExtentDoRead sb (openInode sb f) buf len pos := by
  simp only [osfsExtentDoRead, slot, openInode]

theorem osfsExtentDoWrite_private (slot : inode.iPrivate = some f) (buf : UserBuf)
    (len pos : Nat) :
    osfsExtentDoWrite sb inode buf len pos =
      osfsExtentDoWrite sb (openInode sb f) buf len pos := by
  simp only [osfsExtentDoWrite, slot, openInode]

theorem not_fallsThrough_read (inv : Inv sb) (named : f ∈ fileInos sb)
    (slot : inode.iPrivate = some f) (buf : UserBuf) (len pos : Nat) :
    ¬FallsThrough (osfsExtentDoRead sb inode buf len pos) := by
  rw [osfsExtentDoRead_private slot]
  exact (osfsExtentDoRead_result inv named buf len pos).output.ne_EOPNOTSUPP

theorem not_fallsThrough_write (inv : Inv sb) (named : f ∈ fileInos sb)
    (slot : inode.iPrivate = some f) (buf : UserBuf) (len pos : Nat) :
    ¬FallsThrough (osfsExtentDoWrite sb inode buf len pos) := by
  rw [osfsExtentDoWrite_private slot]
  exact (osfsExtentDoWrite_result inv named buf len pos).ne_EOPNOTSUPP

/-! ## Resets -/

/-- A read of a file with a valid header changes nothing. -/
theorem osfsExtentDoRead_unchanged (valid : HeaderValid sb f) (slot : inode.iPrivate = some f)
    (buf : UserBuf) (len pos : Nat) : (osfsExtentDoRead sb inode buf len pos).sb = sb := by
  simp only [osfsExtentDoRead, slot, valid.1, ne_eq, not_true_eq_false, if_false]
  split
  next => rfl
  next =>
    split
    next => rfl
    next =>
      split
      next => rfl
      next => rfl

/-- Neither does ensuring that it has a table. -/
theorem osfsExtentEnsureTable_unchanged (inv : Inv sb) (named : f ∈ fileInos sb)
    (valid : HeaderValid sb f) : resultState (osfsExtentEnsureTable sb f) = sb := by
  rcases osfsExtentEnsureTable_spec inv named with ⟨sb', ensured, spec⟩
  rw [ensured]
  exact spec.unchanged valid

theorem blockMap_prefix_of_extents (same : extents sb' f = extents sb f) :
    blockMap sb f <+: blockMap sb' f := by
  have kept : blockMap sb' f = blockMap sb f := congrArg RunLength.expand same
  exact kept ▸ List.prefix_rfl

/-- A call on one file appends to its map and leaves the others. -/
theorem FileEffect.blockMap_prefix {g : Nat} (effect : FileEffect g sb sb') (inv : Inv sb)
    (gNamed : g ∈ fileInos sb) (named : f ∈ fileInos sb) :
    blockMap sb f <+: blockMap sb' f := by
  by_cases same : f = g
  · rcases effect.step with ⟨new, fileStep⟩
    rw [same, fileStep.map_eq]
    exact List.prefix_append _ _
  · exact blockMap_prefix_of_extents (effect.other_extents inv gNamed named same)

/-- No call takes a block out of a file's map. -/
theorem blockMap_prefix_of_step (inv : Inv sb) {event : Event} (step : Step sb event sb')
    (named : f ∈ fileInos sb) : blockMap sb f <+: blockMap sb' f := by
  cases step with
  | create dentry mode cred newInode regular =>
      have effect := osfsCreate_effect inv dentry regular cred newInode
      exact blockMap_prefix_of_extents (effect.tables f named)
  | lookup dentry newInode => exact List.prefix_rfl
  | read g buf len pos gNamed _ =>
      exact (osfsRead_result inv gNamed buf len pos).effect.blockMap_prefix inv gNamed named
  | write g buf len pos gNamed _ =>
      exact (osfsWrite_result inv gNamed buf len pos).effect.blockMap_prefix inv gNamed named

/-- In every reachable state a file has a valid header, or no size and no block; reading
and writing it stay on the extent path; and no table that maps a block is reset. -/
theorem headers_valid (reachable : OsfsReachable sb) (named : f ∈ fileInos sb) :
    ((sb.inodeTable f).iSize = 0 ∧ MapsNothing sb f ∨ HeaderValid sb f) ∧
      (∀ inode buf len pos, inode.iPrivate = some f →
        ¬FallsThrough (osfsExtentDoRead sb inode buf len pos) ∧
          ¬FallsThrough (osfsExtentDoWrite sb inode buf len pos)) ∧
      (¬MapsNothing sb f → resultState (osfsExtentEnsureTable sb f) = sb ∧
        ∀ inode buf len pos, inode.iPrivate = some f →
          (osfsExtentDoRead sb inode buf len pos).sb = sb) ∧
      ∀ event sb', Step sb event sb' → blockMap sb f <+: blockMap sb' f := by
  have inv := inv_of_reachable reachable
  have header := inv.header named
  refine ⟨header, ?_, ?_, ?_⟩
  · intro inode buf len pos slot
    exact ⟨not_fallsThrough_read inv named slot buf len pos,
      not_fallsThrough_write inv named slot buf len pos⟩
  · intro live
    have valid : HeaderValid sb f := by
      rcases header with ⟨_, nothing⟩ | valid
      · exact absurd nothing live
      · exact valid
    refine ⟨osfsExtentEnsureTable_unchanged inv named valid, ?_⟩
    intro inode buf len pos slot
    exact osfsExtentDoRead_unchanged valid slot buf len pos
  · intro event sb' step
    exact blockMap_prefix_of_step inv step named

/-- A file with two extents: its table is valid and stays. -/
theorem headers_valid_twoExtents :
    HeaderValid twoExtents 2 ∧ ¬MapsNothing twoExtents 2 ∧
      resultState (osfsExtentEnsureTable twoExtents 2) = twoExtents ∧
      ∀ buf len pos,
        ¬FallsThrough (osfsExtentDoWrite twoExtents (openInode twoExtents 2) buf len pos) := by
  have named : 2 ∈ fileInos twoExtents := by
    rw [twoExtents_inos]
    exact List.mem_cons_self
  have live : ¬MapsNothing twoExtents 2 := by
    unfold MapsNothing
    decide +kernel
  rcases headers_valid twoExtents_reachable named with ⟨header, stays, kept, _⟩
  have valid : HeaderValid twoExtents 2 := by
    rcases header with ⟨_, nothing⟩ | valid
    · exact absurd nothing live
    · exact valid
  refine ⟨valid, live, (kept live).1, ?_⟩
  intro buf len pos
  exact (stays (openInode twoExtents 2) buf len pos rfl).2

end NckuOs.Osfs
