import Mathlib.Logic.Function.Basic
import NckuOs.Lib.Transition
import NckuOs.Osfs.Super

/-!
# Mounting and unmounting

What `osfs_fill_super` obtains is given back by its own error branches, by
`d_make_root`, and by `osfs_kill_superblock`, which the kernel calls when a mount has
failed and when a filesystem is unmounted.  The region and the root inode of a mount go
by its number.
-/

namespace NckuOs.Osfs

open NckuOs.Transition

/-- How often `vfree` was called on the region of each mount, and how often a reference
to its root inode was dropped. -/
structure Released where
  vfrees : Nat → Nat
  iputs : Nat → Nat

/-- `vfree`. -/
def Released.vfree (released : Released) (region : Nat) : Released :=
  { released with
    vfrees := Function.update released.vfrees region (released.vfrees region + 1) }

/-- `iput`. -/
def Released.iput (released : Released) (root : Nat) : Released :=
  { released with iputs := Function.update released.iputs root (released.iputs root + 1) }

/-- The fields of `struct super_block` that osfs sets: the region, and the inode of
`s_root`. -/
structure SuperBlock where
  sFsInfo : Option Nat
  sRoot : Option Nat

/-- Which of the kernel services succeed. -/
structure MountAnswer where
  vmalloc : Bool
  newInode : Bool
  dMakeRoot : Bool
  deriving DecidableEq, Repr

/-- What a call of `osfs_fill_super` leaves. -/
structure Filled where
  ret : Except Errno Unit
  sb : SuperBlock
  released : Released

/-- `osfs_fill_super` of mount `n`.  When `d_make_root` fails it drops the inode itself. -/
def fillSuper (n : Nat) (answer : MountAnswer) (released : Released) : Filled :=
  if !answer.vmalloc then ⟨.error .ENOMEM, ⟨none, none⟩, released⟩
  else if !answer.newInode then ⟨.error .ENOMEM, ⟨some n, none⟩, released.vfree n⟩
  else
    match osfsGetOsfsInode clearedSbInfo rootInode with
    | none => ⟨.error Errno.EIO, ⟨some n, none⟩, (released.iput n).vfree n⟩
    | some _ =>
        if !answer.dMakeRoot then
          ⟨.error .ENOMEM, ⟨some n, none⟩, ((released.iput n).iput n).vfree n⟩
        else ⟨.ok (), ⟨some n, some n⟩, released⟩

/-- `osfs_kill_superblock`. -/
def osfsKillSuperblock (sb : SuperBlock) (released : Released) : SuperBlock × Released :=
  match sb.sFsInfo with
  | some region => (⟨none, sb.sRoot⟩, released.vfree region)
  | none => (sb, released)

/-- The calls do what the mounted state is made of. -/
theorem fillSuper_ret (n : Nat) (answer : MountAnswer) (released : Released) :
    (fillSuper n answer released).ret =
      (osfsFillSuper answer.vmalloc answer.newInode answer.dMakeRoot).map fun _ => () := by
  unfold fillSuper osfsFillSuper
  split
  · rfl
  · split
    · rfl
    · cases osfsGetOsfsInode clearedSbInfo rootInode with
      | none => rfl
      | some _ =>
          dsimp only
          split
          · rfl
          · rfl

/-! ## Histories of mounts -/

/-- A mount: how the kernel answered it, and whether its superblock lives. -/
structure Mount where
  answer : MountAnswer
  sb : SuperBlock
  alive : Bool

/-- All mounts so far, in their order. -/
structure Mounts where
  mounts : List Mount
  released : Released

inductive MountEvent
  | mount (answer : MountAnswer)
  | unmount (n : Nat)

/-- `mount_nodev` with `osfs_fill_super`: a superblock that could not be filled is
killed. -/
def osfsMount (state : Mounts) (answer : MountAnswer) : Mounts :=
  let filled := fillSuper state.mounts.length answer state.released
  match filled.ret with
  | .ok () => ⟨state.mounts ++ [⟨answer, filled.sb, true⟩], filled.released⟩
  | .error _ =>
      let killed := osfsKillSuperblock filled.sb filled.released
      ⟨state.mounts ++ [⟨answer, killed.1, false⟩], killed.2⟩

/-- An unmount kills the superblock; what it does not give back is not given back. -/
def osfsUnmount (state : Mounts) (n : Nat) : Option Mounts :=
  match state.mounts[n]? with
  | none => none
  | some mount =>
      if mount.alive then
        let killed := osfsKillSuperblock mount.sb state.released
        some ⟨state.mounts.set n { mount with sb := killed.1, alive := false }, killed.2⟩
      else none

/-- Before the first mount. -/
def noMounts : Mounts :=
  ⟨[], fun _ => 0, fun _ => 0⟩

/-- Every sequence of mounts and unmounts. -/
def mountSystem : System Mounts MountEvent where
  init state := state = noMounts
  step state event state' :=
    match event with
    | .mount answer => state' = osfsMount state answer
    | .unmount n => osfsUnmount state n = some state'

/-! ## The books of a mount -/

/-- How often the region of a mount is freed. -/
def MountAnswer.vfrees (answer : MountAnswer) (alive : Bool) : Nat :=
  if answer.vmalloc = false ∨ alive = true then 0
  else if answer.newInode && answer.dMakeRoot then 1
  else 2

/-- How often its root inode is dropped. -/
def MountAnswer.iputs (answer : MountAnswer) : Nat :=
  if answer.vmalloc && answer.newInode && !answer.dMakeRoot then 2 else 0

/-- What is known of mount `n`. -/
structure Booked (released : Released) (n : Nat) (mount : Mount) : Prop where
  fsInfo : mount.alive = true → mount.sb.sFsInfo = some n
  succeeded : mount.alive = true →
    mount.answer.vmalloc = true ∧ mount.answer.newInode = true ∧ mount.answer.dMakeRoot = true
  vfrees : released.vfrees n = mount.answer.vfrees mount.alive
  iputs : released.iputs n = mount.answer.iputs

/-- Every mount is booked, and nothing is released for one that is still to come. -/
structure MountInv (state : Mounts) : Prop where
  booked : ∀ n mount, state.mounts[n]? = some mount → Booked state.released n mount
  unused : ∀ n, state.mounts.length ≤ n →
    state.released.vfrees n = 0 ∧ state.released.iputs n = 0

/-- Nothing is released for any mount but `n`. -/
structure OnlyFor (n : Nat) (released released' : Released) : Prop where
  vfrees : ∀ m, m ≠ n → released'.vfrees m = released.vfrees m
  iputs : ∀ m, m ≠ n → released'.iputs m = released.iputs m

theorem OnlyFor.refl (n : Nat) (released : Released) : OnlyFor n released released where
  vfrees _ _ := rfl
  iputs _ _ := rfl

theorem OnlyFor.vfree {n : Nat} {released released' : Released}
    (only : OnlyFor n released released') : OnlyFor n released (released'.vfree n) where
  vfrees m other := (Function.update_of_ne other _ _).trans (only.vfrees m other)
  iputs := only.iputs

theorem OnlyFor.iput {n : Nat} {released released' : Released}
    (only : OnlyFor n released released') : OnlyFor n released (released'.iput n) where
  vfrees := only.vfrees
  iputs m other := (Function.update_of_ne other _ _).trans (only.iputs m other)

/-- What is released for one mount leaves the books of another. -/
theorem Booked.frame {n m : Nat} {released released' : Released} {mount : Mount}
    (booked : Booked released m mount) (only : OnlyFor n released released') (other : m ≠ n) :
    Booked released' m mount where
  fsInfo := booked.fsInfo
  succeeded := booked.succeeded
  vfrees := (only.vfrees m other).trans booked.vfrees
  iputs := (only.iputs m other).trans booked.iputs

/-- A mount books itself. -/
theorem osfsMount_spec {state : Mounts} (inv : MountInv state) (answer : MountAnswer) :
    ∃ mount, (osfsMount state answer).mounts = state.mounts ++ [mount] ∧
      Booked (osfsMount state answer).released state.mounts.length mount ∧
      OnlyFor state.mounts.length state.released (osfsMount state answer).released := by
  rcases inv.unused state.mounts.length (Nat.le_refl _) with ⟨noFrees, noPuts⟩
  have slot : osfsGetOsfsInode clearedSbInfo rootInode = some rootInode := by decide
  have start := OnlyFor.refl state.mounts.length state.released
  rcases answer with ⟨vmalloc, newInode, dMakeRoot⟩
  cases vmalloc with
  | false =>
      refine ⟨_, rfl, ⟨?_, ?_, noFrees, noPuts⟩, start⟩
      · intro alive
        cases alive
      · intro alive
        cases alive
  | true =>
      cases newInode with
      | false =>
          refine ⟨_, rfl, ⟨?_, ?_, ?_, noPuts⟩, start.vfree.vfree⟩
          · intro alive
            cases alive
          · intro alive
            cases alive
          · simp [osfsMount, fillSuper, osfsKillSuperblock, Released.vfree, noFrees,
              MountAnswer.vfrees]
      | true =>
          cases dMakeRoot with
          | false =>
              simp only [osfsMount, fillSuper, Bool.not_true, Bool.false_eq_true, if_false, slot,
                Bool.not_false, if_true, osfsKillSuperblock]
              refine ⟨_, rfl, ⟨?_, ?_, ?_, ?_⟩, start.iput.iput.vfree.vfree⟩
              · intro alive
                cases alive
              · intro alive
                cases alive
              · simp [Released.vfree, Released.iput, noFrees, MountAnswer.vfrees]
              · simp [Released.vfree, Released.iput, noPuts, MountAnswer.iputs]
          | true =>
              simp only [osfsMount, fillSuper, Bool.not_true, Bool.false_eq_true, if_false, slot]
              exact ⟨_, rfl, ⟨fun _ => rfl, fun _ => ⟨rfl, rfl, rfl⟩, noFrees, noPuts⟩, start⟩

theorem mountInv_mount {state : Mounts} (inv : MountInv state) (answer : MountAnswer) :
    MountInv (osfsMount state answer) := by
  rcases osfsMount_spec inv answer with ⟨mount, mounts, booked, only⟩
  constructor
  · intro n other at_
    rw [mounts] at at_
    by_cases before : n < state.mounts.length
    · rw [List.getElem?_append_left before] at at_
      exact (inv.booked n other at_).frame only (Nat.ne_of_lt before)
    · rw [List.getElem?_append_right (Nat.le_of_not_lt before), List.getElem?_singleton] at at_
      split at at_
      next last =>
        cases at_
        have same : n = state.mounts.length := by omega
        rw [same]
        exact booked
      next => cases at_
  · intro n after
    rw [mounts, List.length_append, List.length_singleton] at after
    have other : n ≠ state.mounts.length := by omega
    rw [only.vfrees n other, only.iputs n other]
    exact inv.unused n (by omega)

theorem mountInv_unmount {state state' : Mounts} {n : Nat} (inv : MountInv state)
    (unmounted : osfsUnmount state n = some state') : MountInv state' := by
  unfold osfsUnmount at unmounted
  split at unmounted
  · cases unmounted
  next mount at_ =>
    split at unmounted
    next alive =>
      have booked := inv.booked n mount at_
      rcases List.getElem?_eq_some_iff.mp at_ with ⟨inside, _⟩
      have only := (OnlyFor.refl n state.released).vfree
      rcases booked.succeeded alive with ⟨vmalloc, newInode, dMakeRoot⟩
      simp only [osfsKillSuperblock, booked.fsInfo alive, Option.some.injEq] at unmounted
      subst unmounted
      constructor
      · intro m other found
        by_cases same : m = n
        · subst same
          rw [List.getElem?_set_self inside] at found
          cases found
          refine ⟨?_, ?_, ?_, booked.iputs⟩
          · intro dead
            cases dead
          · intro dead
            cases dead
          · have before : state.released.vfrees m = 0 := by
              rw [booked.vfrees, MountAnswer.vfrees, if_pos (.inr alive)]
            simp [Released.vfree, before, MountAnswer.vfrees, vmalloc, newInode, dMakeRoot]
        · rw [List.getElem?_set_ne (Ne.symm same)] at found
          exact (inv.booked m other found).frame only same
      · intro m after
        rw [List.length_set] at after
        have other : m ≠ n := by omega
        rw [only.vfrees m other]
        exact inv.unused m after
    · cases unmounted

theorem mountInv_of_reachable {state : Mounts} (reachable : Reachable mountSystem state) :
    MountInv state := by
  apply reachable.invariant
  · rintro start rfl
    constructor
    · intro n mount at_
      cases at_
    · exact fun _ _ => ⟨rfl, rfl⟩
  · intro before event after inv step
    cases event with
    | mount answer =>
        rw [step]
        exact mountInv_mount inv answer
    | unmount n => exact mountInv_unmount inv step

/-! ## What is given back -/

/-- The region of a mount, if it got one, was freed exactly once. -/
def RegionFreed (released : Released) (n : Nat) (answer : MountAnswer) : Prop :=
  answer.vmalloc = true → released.vfrees n = 1

/-- The reference to the root inode of a mount, if it got one, was dropped exactly once. -/
def RootDropped (released : Released) (n : Nat) (answer : MountAnswer) : Prop :=
  answer.vmalloc = true → answer.newInode = true → released.iputs n = 1

section Killed

variable {released : Released} {n : Nat} {mount : Mount}

/-- The region alone is freed once when nothing behind `vmalloc` fails. -/
theorem Booked.regionFreed_iff (booked : Booked released n mount) (dead : mount.alive = false) :
    RegionFreed released n mount.answer ↔
      (mount.answer.vmalloc = true →
        mount.answer.newInode = true ∧ mount.answer.dMakeRoot = true) := by
  rcases mount with ⟨⟨vmalloc, newInode, dMakeRoot⟩, sb, alive⟩
  have dead : alive = false := dead
  subst dead
  rw [RegionFreed, booked.vfrees]
  cases vmalloc <;> cases newInode <;> cases dMakeRoot <;> simp [MountAnswer.vfrees]

/-- The reference is dropped twice or not at all. -/
theorem Booked.rootDropped_iff (booked : Booked released n mount) :
    RootDropped released n mount.answer ↔
      (mount.answer.vmalloc = true → mount.answer.newInode = false) := by
  rcases mount with ⟨⟨vmalloc, newInode, dMakeRoot⟩, sb, alive⟩
  rw [RootDropped, booked.iputs]
  cases vmalloc <;> cases newInode <;> cases dMakeRoot <;> simp [MountAnswer.iputs]

end Killed

/-- In every history, the superblocks that were killed have given back exactly what their
mounts obtained if and only if those mounts obtained nothing. -/
theorem mounts_released_iff {state : Mounts} (reachable : Reachable mountSystem state) :
    (∀ n mount, state.mounts[n]? = some mount → mount.alive = false →
      RegionFreed state.released n mount.answer ∧ RootDropped state.released n mount.answer) ↔
    ∀ mount ∈ state.mounts, mount.alive = false → mount.answer.vmalloc = false := by
  have inv := mountInv_of_reachable reachable
  constructor
  · intro released mount isMem dead
    rcases List.mem_iff_getElem?.mp isMem with ⟨n, at_⟩
    have booked := inv.booked n mount at_
    rcases released n mount at_ dead with ⟨freed, dropped⟩
    by_contra obtained
    rw [Bool.not_eq_false] at obtained
    have inode := ((booked.regionFreed_iff dead).mp freed obtained).1
    rw [booked.rootDropped_iff.mp dropped obtained] at inode
    cases inode
  · intro nothing n mount at_ dead
    have none := nothing mount (List.mem_of_getElem? at_) dead
    constructor
    · intro obtained
      rw [none] at obtained
      cases obtained
    · intro obtained
      rw [none] at obtained
      cases obtained

theorem reachable_osfsMount (answer : MountAnswer) :
    Reachable mountSystem (osfsMount noMounts answer) := by
  have start : Reachable mountSystem noMounts := .start rfl
  have step : mountSystem.step noMounts (.mount answer) (osfsMount noMounts answer) := rfl
  exact start.snoc step

/-- A mount that `vmalloc` refuses. -/
def refused : Mounts :=
  osfsMount noMounts ⟨false, true, true⟩

theorem mounts_released_refused :
    refused.mounts.map Mount.alive = [false] ∧
      ∀ n mount, refused.mounts[n]? = some mount → mount.alive = false →
        RegionFreed refused.released n mount.answer ∧
          RootDropped refused.released n mount.answer := by
  have nothing : ∀ mount ∈ refused.mounts,
      mount.alive = false → mount.answer.vmalloc = false := by
    intro mount isMem _
    rw [List.mem_singleton.mp isMem]
  exact ⟨rfl, (mounts_released_iff (reachable_osfsMount _)).mpr nothing⟩

/-- When `d_make_root` fails, the region is freed twice and the inode is dropped twice. -/
theorem failed_root_released_twice :
    ¬∀ state, Reachable mountSystem state → ∀ n mount, state.mounts[n]? = some mount →
      mount.alive = false →
      RegionFreed state.released n mount.answer ∧
        RootDropped state.released n mount.answer := by
  intro releases
  have released := releases _ (reachable_osfsMount ⟨true, true, false⟩) 0 _ rfl rfl
  have once : 2 = 1 := released.1 rfl
  contradiction

end NckuOs.Osfs
