import Mathlib.Tactic.FinCases
import NckuOs.Lib.Threads
import NckuOs.Osfs.System

/-!
# `osfs_alloc_data_block`, called concurrently

Writes to different files may allocate at the same time, and nothing in osfs keeps
the calls apart.  Here a call takes its steps one by one: each `test_bit`, the
`set_bit`, and the update of `nr_free_blocks`.
-/

namespace NckuOs.Osfs

open NckuOs.Bitmap
open NckuOs.Threads
open NckuOs.Transition

/-- `block_bitmap` and `nr_free_blocks`. -/
structure AllocMap where
  bits : Bits
  free : Nat

/-- Where a call is: before a test of the loop, before `set_bit`, before the counter
is updated, or at its return. -/
inductive AllocPc
  | test (i : Nat)
  | set (i : Nat)
  | count (i : Nat)
  | done (ret : Except Errno Nat)

/-- The next step of a call. -/
def allocStep (blockCount : Nat) (map : AllocMap) : AllocPc → Option (AllocMap × AllocPc)
  | .test i =>
      if i < blockCount then some (map, if map.bits i then .test (i + 1) else .set i)
      else some (map, .done (.error .ENOSPC))
  | .set i => some ({ map with bits := setBit map.bits i }, .count i)
  | .count i => some ({ map with free := u32Dec map.free }, .done (.ok i))
  | .done _ => none

/-! ## One call alone -/

/-- The step of a call that nobody interferes with. -/
def AllocNext (blockCount : Nat) (now next : AllocMap × AllocPc) : Prop :=
  allocStep blockCount now.1 now.2 = some next

/-- The loop passes over set bits. -/
theorem alloc_scan {blockCount : Nat} (map : AllocMap) (i : Nat) (inside : i ≤ blockCount)
    (taken : ∀ j < i, map.bits j = true) :
    Relation.ReflTransGen (AllocNext blockCount) (map, .test 0) (map, .test i) := by
  induction i with
  | zero => exact .refl
  | succ i ih =>
      have below : i < blockCount := inside
      have earlier := ih (Nat.le_of_lt below) fun j low => taken j (Nat.lt_succ_of_lt low)
      apply earlier.tail
      simp only [AllocNext, allocStep, if_pos below, taken i (Nat.lt_succ_self i), if_true]

/-- The map in the superblock information. -/
def SbInfo.allocMap (sb : SbInfo) : AllocMap :=
  ⟨sb.blockBitmap, sb.nrFreeBlocks⟩

/-- The value that a call returns. -/
def allocRet : Outcome Nat → Except Errno Nat
  | .ok block _ => .ok block
  | .error e _ => .error e

/-- The steps of a call that runs alone come to the result of
`osfs_alloc_data_block`. -/
theorem alloc_alone (sb : SbInfo) :
    Relation.ReflTransGen (AllocNext sb.blockCount) (sb.allocMap, .test 0)
      ((resultState (osfsAllocDataBlock sb)).allocMap,
        .done (allocRet (osfsAllocDataBlock sb))) := by
  cases scan : firstClear sb.blockBitmap 0 sb.blockCount with
  | some block =>
      rcases firstClear_eq_some_iff.mp scan with ⟨_, below, clear, first⟩
      have found := alloc_scan sb.allocMap block (Nat.le_of_lt below)
        fun j low => first j (Nat.zero_le j) low
      have tested := found.tail (c := (sb.allocMap, .set block)) (by
        simp only [AllocNext, allocStep, if_pos below, SbInfo.allocMap, clear, Bool.false_eq_true,
          if_false])
      have set := tested.tail rfl
      have counted := set.tail rfl
      simp only [osfsAllocDataBlock, scan]
      exact counted
  | none =>
      have full := alloc_scan sb.allocMap sb.blockCount (Nat.le_refl _)
        fun j low => firstClear_eq_none_iff.mp scan j (Nat.zero_le j) low
      simp only [osfsAllocDataBlock, scan]
      apply full.tail
      simp only [AllocNext, allocStep, Nat.lt_irrefl, if_false]
      rfl

/-! ## Concurrent calls -/

variable {ι : Type}

/-- Calls that start with the bitmap `bits` and a counter that is right. -/
def allocProgram (ι : Type) (blockCount : Nat) (bits : Bits) : Program ι AllocMap AllocPc where
  start config := config.shared = ⟨bits, countClear bits blockCount⟩ ∧
    ∀ j, config.thread j = .test 0
  step _ := allocStep blockCount

/-- The block is taken for this call. -/
def AllocPc.Owns (pc : AllocPc) (block : Nat) : Prop :=
  pc = .count block ∨ pc = .done (.ok block)

/-- No two calls return the same block. -/
def Distinct (config : Config ι AllocMap AllocPc) : Prop :=
  ∀ i j block, config.thread i = .done (.ok block) → config.thread j = .done (.ok block) → i = j

/-- Every call has returned. -/
def Finished (config : Config ι AllocMap AllocPc) : Prop :=
  ∀ j, ∃ ret, config.thread j = .done ret

/-- When call `j` comes to its `set_bit`, the bit is still clear. -/
def StillClear (config : Config ι AllocMap AllocPc) (j : ι) : Prop :=
  ∀ block, config.thread j = .set block → config.shared.bits block = false

/-! ## What a step does -/

theorem allocStep_cases {blockCount : Nat} {map map' : AllocMap} {pc pc' : AllocPc}
    (step : allocStep blockCount map pc = some (map', pc')) :
    (∃ i, pc = .test i ∧ map' = map ∧
      (pc' = .test (i + 1) ∨ (pc' = .set i ∧ i < blockCount ∧ map.bits i = false) ∨
        pc' = .done (.error .ENOSPC))) ∨
    (∃ i, pc = .set i ∧ map' = { map with bits := setBit map.bits i } ∧ pc' = .count i) ∨
    (∃ i, pc = .count i ∧ map' = { map with free := u32Dec map.free } ∧
      pc' = .done (.ok i)) := by
  cases pc with
  | test i =>
      left
      simp only [allocStep] at step
      split at step
      case isTrue below =>
        cases bit : map.bits i with
        | true =>
            rw [bit] at step
            cases step
            exact ⟨i, rfl, rfl, .inl rfl⟩
        | false =>
            rw [bit] at step
            cases step
            exact ⟨i, rfl, rfl, .inr (.inl ⟨rfl, below, bit⟩)⟩
      case isFalse =>
        cases step
        exact ⟨i, rfl, rfl, .inr (.inr rfl)⟩
  | set i =>
      cases step
      exact .inr (.inl ⟨i, rfl, rfl, rfl⟩)
  | count i =>
      cases step
      exact .inr (.inr ⟨i, rfl, rfl, rfl⟩)
  | done ret => cases step

/-- A call that has taken a block keeps it. -/
theorem AllocPc.Owns.step {blockCount block : Nat} {map map' : AllocMap} {pc pc' : AllocPc}
    (owns : pc.Owns block) (step : allocStep blockCount map pc = some (map', pc')) :
    pc'.Owns block := by
  rcases owns with rfl | rfl
  · cases step
    exact .inr rfl
  · cases step

variable [DecidableEq ι] {blockCount : Nat} {bits : Bits}
variable {config config' : Config ι AllocMap AllocPc} {i : ι}

/-- Owners stay owners, whoever moves. -/
theorem owns_of_step (step : (allocProgram ι blockCount bits).system.step config i config')
    {j : ι} {block : Nat} (owns : (config.thread j).Owns block) :
    (config'.thread j).Owns block := by
  obtain ⟨next, moved, rfl⟩ := step
  by_cases same : j = i
  · subst same
    rw [Config.after_self]
    exact owns.step moved
  · rw [Config.after_of_ne same]
    exact owns

/-! ## Two calls at one block -/

/-- A call that is late with its `set_bit` is so because of another call. -/
def Blamed (config : Config ι AllocMap AllocPc) : Prop :=
  ∀ i block, config.thread i = .set block → config.shared.bits block = true →
    ∃ j, j ≠ i ∧ (config.thread j).Owns block

/-- Two calls have taken the same block. -/
def SharesBlock (config : Config ι AllocMap AllocPc) : Prop :=
  ∃ i j block, i ≠ j ∧ (config.thread i).Owns block ∧ (config.thread j).Owns block

theorem Blamed.step (blamed : Blamed config)
    (step : (allocProgram ι blockCount bits).system.step config i config') : Blamed config' := by
  intro k block atSet isSet
  have kept : ∀ j, (config.thread j).Owns block → (config'.thread j).Owns block :=
    fun j owns => owns_of_step step owns
  obtain ⟨⟨map', pc'⟩, moved, rfl⟩ := step
  rcases allocStep_cases moved with ⟨b, here, rfl, next⟩ | ⟨b, here, rfl, rfl⟩ | ⟨b, here, rfl, rfl⟩
  · by_cases same : k = i
    · subst same
      rw [Config.after_self] at atSet
      rcases next with rfl | ⟨rfl, _, clear⟩ | rfl
      · cases atSet
      · cases atSet
        rw [Config.after_shared, clear] at isSet
        cases isSet
      · cases atSet
    · rw [Config.after_of_ne same] at atSet
      rcases blamed k block atSet isSet with ⟨j, other, owns⟩
      exact ⟨j, other, kept j owns⟩
  · by_cases same : k = i
    · subst same
      rw [Config.after_self] at atSet
      cases atSet
    · rw [Config.after_of_ne same] at atSet
      simp only [Config.after_shared, setBit_eq_true_iff] at isSet
      rcases isSet with rfl | earlier
      · refine ⟨i, Ne.symm same, ?_⟩
        rw [Config.after_self]
        exact .inl rfl
      · rcases blamed k block atSet earlier with ⟨j, other, owns⟩
        exact ⟨j, other, kept j owns⟩
  · by_cases same : k = i
    · subst same
      rw [Config.after_self] at atSet
      cases atSet
    · rw [Config.after_of_ne same] at atSet
      rcases blamed k block atSet isSet with ⟨j, other, owns⟩
      exact ⟨j, other, kept j owns⟩

/-- A run either takes clear bits only, or two of its calls share a block. -/
theorem clear_or_shares {events : List ι}
    (trace : Trace (allocProgram ι blockCount bits).system events config) :
    Blamed config ∧
      (Trace ((allocProgram ι blockCount bits).system.restrict StillClear) events config ∨
        SharesBlock config) := by
  apply trace.invariant (P := fun events config => Blamed config ∧
    (Trace ((allocProgram ι blockCount bits).system.restrict StillClear) events config ∨
      SharesBlock config))
  · intro config start
    constructor
    · intro j block atSet
      rw [start.2 j] at atSet
      cases atSet
    · exact .inl (.start start)
  · rintro events config i config' _ ⟨blamed, alternatives⟩ step
    refine ⟨blamed.step step, ?_⟩
    rcases alternatives with clean | ⟨j, k, block, ne, first, second⟩
    · by_cases clear : StillClear config i
      · exact .inl (clean.snoc ⟨step, clear⟩)
      · simp only [StillClear, not_forall, Bool.not_eq_false] at clear
        rcases clear with ⟨block, atSet, isSet⟩
        rcases blamed i block atSet isSet with ⟨j, other, owns⟩
        refine .inr ⟨j, i, block, other, owns_of_step step owns, ?_⟩
        obtain ⟨next, moved, rfl⟩ := step
        rw [atSet] at moved
        cases moved
        rw [Config.after_self]
        exact .inl rfl
    · exact .inr ⟨j, k, block, ne, owns_of_step step first, owns_of_step step second⟩

/-! ## Runs that take clear bits only -/

/-- One for a call that has set its bit and not yet updated the counter. -/
def AllocPc.pending : AllocPc → Nat
  | .count _ => 1
  | _ => 0

/-- The bit that a call is about to set is in the map. -/
def AllocPc.Inside (blockCount : Nat) (pc : AllocPc) : Prop :=
  ∀ block, pc = .set block → block < blockCount

/-- What holds as long as every `set_bit` finds its bit clear. -/
structure Clean [Fintype ι] (blockCount : Nat) (config : Config ι AllocMap AllocPc) : Prop where
  taken : ∀ j block, (config.thread j).Owns block → config.shared.bits block = true
  once : ∀ i j block, (config.thread i).Owns block → (config.thread j).Owns block → i = j
  inside : ∀ j, (config.thread j).Inside blockCount
  bound : config.shared.free ≤ blockCount
  total : config.shared.free =
    countClear config.shared.bits blockCount + ∑ j, (config.thread j).pending

/-- The owners after a step: the call that moved, or one that was an owner. -/
theorem owns_after {next : AllocMap × AllocPc} {j : ι} {block : Nat}
    (owns : ((config.after i next).thread j).Owns block) :
    (j = i ∧ next.2.Owns block) ∨ (config.thread j).Owns block := by
  by_cases same : j = i
  · subst same
    rw [Config.after_self] at owns
    exact .inl ⟨rfl, owns⟩
  · rw [Config.after_of_ne same] at owns
    exact .inr owns

namespace Clean

variable [Fintype ι] {map' : AllocMap} {pc' : AllocPc}

/-- A step that takes no block. -/
theorem of_kept (clean : Clean blockCount config) (sameBits : map'.bits = config.shared.bits)
    (kept : ∀ block, pc'.Owns block → (config.thread i).Owns block)
    (inside : pc'.Inside blockCount) (bound : map'.free ≤ blockCount)
    (counted : map'.free + (config.thread i).pending = config.shared.free + pc'.pending) :
    Clean blockCount (config.after i (map', pc')) := by
  have before : ∀ j block, ((config.after i (map', pc')).thread j).Owns block →
      (config.thread j).Owns block := by
    intro j block owns
    rcases owns_after owns with ⟨rfl, mine⟩ | earlier
    · exact kept block mine
    · exact earlier
  constructor
  · intro j block owns
    rw [Config.after_shared, sameBits]
    exact clean.taken j block (before j block owns)
  · intro j k block first second
    exact clean.once j k block (before j block first) (before k block second)
  · exact Config.forall_after inside fun j _ => clean.inside j
  · exact bound
  · have sum := Config.sum_after AllocPc.pending config i map' pc'
    have total := clean.total
    simp only [Config.after_shared, sameBits]
    omega

/-- Setting a clear bit takes the block for the call. -/
theorem of_set {b : Nat} (clean : Clean blockCount config) (here : config.thread i = .set b)
    (clear : config.shared.bits b = false) :
    Clean blockCount
      (config.after i ({ config.shared with bits := setBit config.shared.bits b }, .count b)) := by
  have mine : ∀ block, (AllocPc.count b).Owns block → block = b := by
    rintro block (owns | owns)
    · cases owns
      rfl
    · cases owns
  have notTaken : ∀ j, ¬(config.thread j).Owns b := by
    intro j owns
    rw [clean.taken j b owns] at clear
    cases clear
  constructor
  · intro j block owns
    rw [Config.after_shared, setBit_eq_true_iff]
    rcases owns_after owns with ⟨_, taken⟩ | earlier
    · exact .inl (mine block taken)
    · exact .inr (clean.taken j block earlier)
  · intro j k block first second
    rcases owns_after first with ⟨rfl, taken⟩ | earlier
    · rcases owns_after second with ⟨rfl, _⟩ | earlier
      · rfl
      · rw [mine block taken] at earlier
        exact absurd earlier (notTaken k)
    · rcases owns_after second with ⟨rfl, taken⟩ | earlier'
      · rw [mine block taken] at earlier
        exact absurd earlier (notTaken j)
      · exact clean.once j k block earlier earlier'
  · apply Config.forall_after
    · rintro block ⟨⟩
    · intro j _
      exact clean.inside j
  · exact clean.bound
  · have sum := Config.sum_after AllocPc.pending config i
      ⟨setBit config.shared.bits b, config.shared.free⟩ (.count b)
    have fewer := countClear_setBit (clean.inside i b here) clear
    have total := clean.total
    have was : (config.thread i).pending = 0 := by
      rw [here]
      rfl
    have now : (AllocPc.count b).pending = 1 := rfl
    simp only [Config.after_shared]
    omega

theorem step (small : blockCount < 2 ^ 32) (clean : Clean blockCount config)
    (clear : StillClear config i)
    (step : (allocProgram ι blockCount bits).system.step config i config') :
    Clean blockCount config' := by
  obtain ⟨⟨map', pc'⟩, moved, rfl⟩ := step
  rcases allocStep_cases moved with ⟨b, here, rfl, next⟩ | ⟨b, here, rfl, rfl⟩ | ⟨b, here, rfl, rfl⟩
  · rcases next with rfl | ⟨rfl, inside, _⟩ | rfl
    · apply clean.of_kept rfl (by simp [AllocPc.Owns]) (by simp [AllocPc.Inside]) clean.bound
      simp [here, AllocPc.pending]
    · apply clean.of_kept rfl (by simp [AllocPc.Owns]) (by simp [AllocPc.Inside, inside])
        clean.bound
      simp [here, AllocPc.pending]
    · apply clean.of_kept rfl (by simp [AllocPc.Owns]) (by simp [AllocPc.Inside]) clean.bound
      simp [here, AllocPc.pending]
  · exact clean.of_set here (clear b here)
  · have one : (config.thread i).pending ≤ ∑ j, (config.thread j).pending :=
      Finset.single_le_sum (f := fun j => (config.thread j).pending) (fun _ _ => Nat.zero_le _)
        (Finset.mem_univ i)
    have total := clean.total
    have bound := clean.bound
    have was : (config.thread i).pending = 1 := by
      rw [here]
      rfl
    have now : (AllocPc.done (.ok b)).pending = 0 := rfl
    have lowered : u32Dec config.shared.free = config.shared.free - 1 :=
      u32Dec_of_pos (by omega) (by omega)
    rw [lowered]
    apply clean.of_kept
    · rfl
    · rintro block (owns | owns)
      · cases owns
      · cases owns
        exact .inl here
    · simp [AllocPc.Inside]
    · dsimp only
      omega
    · dsimp only
      omega

end Clean

theorem clean_of_trace [Fintype ι] {events : List ι} (small : blockCount < 2 ^ 32)
    (trace : Trace ((allocProgram ι blockCount bits).system.restrict StillClear) events config) :
    Clean blockCount config := by
  apply trace.invariant (P := fun _ config => Clean blockCount config)
  · rintro config ⟨map, threads⟩
    constructor
    · intro j block owns
      simp [threads j, AllocPc.Owns] at owns
    · intro j k block owns
      simp [threads j, AllocPc.Owns] at owns
    · intro j
      simp [threads j, AllocPc.Inside]
    · rw [map]
      exact countClear_le bits blockCount
    · have none : ∑ j, (config.thread j).pending = 0 := by
        apply Finset.sum_eq_zero
        intro j _
        rw [threads j]
        rfl
      rw [map, none, Nat.add_zero]
  · rintro events config i config' _ clean ⟨step, clear⟩
    exact clean.step small clear step

/-- No two calls return the same block in a run in which every `set_bit` finds its
bit clear.  When all calls have returned, the blocks are different and the counter
counts the clear bits exactly if the run was such a run. -/
theorem allocations_distinct_iff [Fintype ι] {events : List ι} (small : blockCount < 2 ^ 32)
    (trace : Trace (allocProgram ι blockCount bits).system events config) :
    (Trace ((allocProgram ι blockCount bits).system.restrict StillClear) events config →
      Distinct config) ∧
    (Finished config →
      ((Distinct config ∧ config.shared.free = countClear config.shared.bits blockCount) ↔
        Trace ((allocProgram ι blockCount bits).system.restrict StillClear) events config)) := by
  have distinct : Trace ((allocProgram ι blockCount bits).system.restrict StillClear) events
      config → Distinct config := by
    intro clear i j block first second
    exact (clean_of_trace small clear).once i j block (.inr first) (.inr second)
  refine ⟨distinct, fun finished => ?_⟩
  constructor
  · rintro ⟨different, _⟩
    rcases (clear_or_shares trace).2 with clear | ⟨i, j, block, ne, first, second⟩
    · exact clear
    · have returned : ∀ k, (config.thread k).Owns block → config.thread k = .done (.ok block) := by
        rintro k (counting | done)
        · rcases finished k with ⟨ret, done⟩
          rw [counting] at done
          cases done
        · exact done
      exact absurd (different i j block (returned i first) (returned j second)) ne
  · intro clear
    refine ⟨distinct clear, ?_⟩
    have none : ∑ j, (config.thread j).pending = 0 := by
      apply Finset.sum_eq_zero
      intro j _
      rcases finished j with ⟨ret, done⟩
      rw [done]
      rfl
    rw [(clean_of_trace small clear).total, none, Nat.add_zero]

/-! ## Two calls on an empty filesystem -/

/-- Two calls before their first step; no block is taken. -/
def twoCalls : Config (Fin 2) AllocMap AllocPc where
  shared := ⟨fun _ => false, dataBlockCount⟩
  thread := fun _ => .test 0

/-- Each call tests before the other one sets. -/
def overlapping : List (Fin 2) :=
  [0, 1, 0, 1, 0, 1]

/-- One call runs after the other. -/
def oneByOne : List (Fin 2) :=
  [0, 0, 0, 1, 1, 1, 1]

/-- The state that a schedule of the two calls leads to. -/
def twoCallsAfter (schedule : List (Fin 2)) : Config (Fin 2) AllocMap AllocPc :=
  ((allocProgram (Fin 2) dataBlockCount fun _ => false).run schedule twoCalls).getD twoCalls

theorem trace_twoCalls (schedule : List (Fin 2))
    (runs : ((allocProgram (Fin 2) dataBlockCount fun _ => false).run schedule twoCalls).isSome) :
    Trace (allocProgram (Fin 2) dataBlockCount fun _ => false).system schedule
      (twoCallsAfter schedule) := by
  rcases Option.isSome_iff_exists.mp runs with ⟨config, ends⟩
  have started : Trace (allocProgram (Fin 2) dataBlockCount fun _ => false).system [] twoCalls :=
    .start ⟨rfl, fun _ => rfl⟩
  rw [twoCallsAfter, ends]
  exact Program.trace_run schedule started ends

/-- Calls that do not overlap take clear bits only. -/
theorem allocations_distinct_oneByOne :
    Trace ((allocProgram (Fin 2) dataBlockCount fun _ => false).system.restrict StillClear)
      oneByOne (twoCallsAfter oneByOne) := by
  have first : (twoCallsAfter oneByOne).thread 0 = .done (.ok 0) := rfl
  have second : (twoCallsAfter oneByOne).thread 1 = .done (.ok 1) := rfl
  have finished : Finished (twoCallsAfter oneByOne) := by
    intro j
    fin_cases j
    · exact ⟨_, first⟩
    · exact ⟨_, second⟩
  have distinct : Distinct (twoCallsAfter oneByOne) := by
    intro i j block
    fin_cases i <;> fin_cases j <;> simp [first, second]
    all_goals omega
  have counted : (twoCallsAfter oneByOne).shared.free =
      countClear (twoCallsAfter oneByOne).shared.bits dataBlockCount := by decide +kernel
  have runs := trace_twoCalls oneByOne (by decide +kernel)
  exact ((allocations_distinct_iff (by decide) runs).2 finished).mp ⟨distinct, counted⟩

/-- Calls that overlap return the same block, and the counter loses two for one
block. -/
theorem overlapping_calls_share :
    ∃ config, Trace (allocProgram (Fin 2) dataBlockCount fun _ => false).system overlapping
        config ∧
      config.thread 0 = .done (.ok 0) ∧ config.thread 1 = .done (.ok 0) ∧
      config.shared.free ≠ countClear config.shared.bits dataBlockCount := by
  refine ⟨twoCallsAfter overlapping, trace_twoCalls overlapping (by decide +kernel), rfl, rfl, ?_⟩
  decide +kernel

end NckuOs.Osfs
