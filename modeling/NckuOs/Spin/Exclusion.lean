import NckuOs.Spin.Lock

/-!
# Mutual exclusion and the counter

The lock word and the threads that hold the lock add up to one, and `a` is the sum
of what the threads have added to it.
-/

namespace NckuOs.Spin

open NckuOs.Threads
open NckuOs.Transition

namespace Thread

variable {t : Thread}

/-- One for a thread that holds the lock. -/
def holding (t : Thread) : Nat :=
  if t.Holds then 1 else 0

theorem holding_eq_one_iff : t.holding = 1 ↔ t.Holds := by
  unfold holding
  split <;> simp_all

theorem holding_eq_zero_iff : t.holding = 0 ↔ ¬t.Holds := by
  unfold holding
  split <;> simp_all

theorem Critical.holds (critical : t.Critical) : t.Holds :=
  .inr (.inr critical)

/-- What the registers hold at each instruction; the holder's copy of `a` is
current. -/
def Sound (count : Nat) (a : Word) (t : Thread) : Prop :=
  match t.pc with
  | .loopTest => t.i ≤ count
  | .movLock => t.i < count
  | .xchgLock => t.i < count ∧ t.eax = LOCK
  | .subLock => t.i < count ∧ (t.eax = LOCK ∨ t.eax = UNLOCK)
  | .js => t.i < count ∧ (t.eax = UNLOCK - 1 ∧ t.sf = false ∨ t.eax = LOCK - 1 ∧ t.sf = true)
  | .readA => t.i < count
  | .writeA => t.i < count ∧ t.eax = a
  | .movUnlock => t.i < count
  | .xchgUnlock => t.i < count ∧ t.eax = UNLOCK
  | .done => t.i = count

/-- Only a holder has a copy of `a`. -/
theorem Sound.of_not_holds {count : Nat} {a a' : Word} (sound : t.Sound count a)
    (notHolds : ¬t.Holds) : t.Sound count a' := by
  unfold Sound at sound ⊢
  cases here : t.pc with
  | writeA =>
      have critical : t.Critical := .inr (.inl here)
      exact absurd critical.holds notHolds
  | _ =>
      rw [here] at sound
      exact sound

end Thread

/-- What one instruction does: the lock word and the thread exchange the one unit of
ownership, and `a` grows by what the thread counts, in the hands of a holder only. -/
structure Effect (count : Nat) (s s' : Shared) (t t' : Thread) : Prop where
  lock : s'.lock.toNat + t'.holding = s.lock.toNat + t.holding
  grows : ∃ k, s'.a = s.a + BitVec.ofNat 32 k ∧ t'.increments = t.increments + k ∧
    (k = 0 ∨ t.Holds)
  sound : t'.Sound count s'.a

/-- An instruction that leaves the lock, `a` and the thread's part in them alone. -/
theorem Effect.of_local {count : Nat} {s : Shared} {t t' : Thread}
    (holds : t'.Holds ↔ t.Holds) (increments : t'.increments = t.increments)
    (sound : t'.Sound count s.a) : Effect count s s t t' := by
  have same : t'.holding = t.holding := by
    simp only [Thread.holding, holds]
  constructor
  · rw [same]
  · exact ⟨0, by simp, increments, .inl rfl⟩
  · exact sound

/-- Each instruction has that effect when the lock word is one of the two values and
is `LOCK` while the thread holds it. -/
theorem effect_of_step {count : Nat} {s s' : Shared} {t t' : Thread} (sound : t.Sound count s.a)
    (word : s.lock = LOCK ∨ s.lock = UNLOCK) (held : t.Holds → s.lock = LOCK)
    (step : threadStep count s t = some (s', t')) : Effect count s s' t t' := by
  obtain ⟨lock, a⟩ := s
  obtain ⟨pc, i, eax, sf⟩ := t
  cases pc with
  | loopTest =>
      cases step
      simp only [Thread.Sound] at sound
      apply Effect.of_local
      · split <;> simp [Thread.Holds, Thread.Critical]
      · split <;> simp [Thread.increments]
      · split
        case isTrue more => exact more
        case isFalse last => exact Nat.le_antisymm sound (Nat.not_lt.mp last)
  | movLock =>
      cases step
      exact .of_local (by simp [Thread.Holds, Thread.Critical]) rfl ⟨sound, rfl⟩
  | xchgLock =>
      cases step
      obtain ⟨inLoop, rfl⟩ := sound
      constructor
      · rcases word with rfl | rfl <;> rfl
      · exact ⟨0, by simp, rfl, .inl rfl⟩
      · exact ⟨inLoop, word⟩
  | subLock =>
      cases step
      rcases sound with ⟨inLoop, rfl | rfl⟩
      · refine .of_local (by simp [Thread.Holds, Thread.Critical, LOCK, UNLOCK]) rfl
          ⟨inLoop, .inr ⟨rfl, ?_⟩⟩
        dsimp only
        decide
      · refine .of_local (by simp [Thread.Holds, Thread.Critical]) rfl ⟨inLoop, .inl ⟨rfl, ?_⟩⟩
        dsimp only
        decide
  | js =>
      cases step
      obtain ⟨inLoop, ⟨rfl, rfl⟩ | ⟨rfl, rfl⟩⟩ := sound
      · exact .of_local (by simp [Thread.Holds, Thread.Critical]) rfl inLoop
      · exact .of_local (by simp [Thread.Holds, Thread.Critical, LOCK, UNLOCK]) rfl inLoop
  | readA =>
      cases step
      exact .of_local (by simp [Thread.Holds, Thread.Critical]) rfl ⟨sound, rfl⟩
  | writeA =>
      cases step
      have holds : Thread.Holds ⟨.writeA, i, eax, sf⟩ := .inr (.inr (.inr (.inl rfl)))
      obtain ⟨inLoop, rfl⟩ := sound
      constructor
      · rfl
      · exact ⟨1, rfl, rfl, .inr holds⟩
      · exact inLoop
  | movUnlock =>
      cases step
      exact .of_local (by simp [Thread.Holds, Thread.Critical]) rfl ⟨sound, rfl⟩
  | xchgUnlock =>
      cases step
      obtain ⟨inLoop, rfl⟩ := sound
      have taken : lock = LOCK := held (.inr (.inr (.inr (.inr (.inr rfl)))))
      subst taken
      constructor
      · rfl
      · exact ⟨0, by simp, rfl, .inl rfl⟩
      · exact inLoop
  | done => cases step

/-! ## All threads -/

variable {ι : Type} [Fintype ι] {counts : ι → Nat}

/-- The invariant of a run. -/
structure Inv (counts : ι → Nat) (config : Config ι Shared Thread) : Prop where
  lock : config.shared.lock.toNat + ∑ j, (config.thread j).holding = 1
  count : config.shared.a = BitVec.ofNat 32 (∑ j, (config.thread j).increments)
  sound : ∀ j, (config.thread j).Sound (counts j) config.shared.a

namespace Inv

variable {config : Config ι Shared Thread}

/-- At most one thread holds the lock. -/
theorem holder_unique (inv : Inv counts config) {i j : ι} (first : (config.thread i).Holds)
    (second : (config.thread j).Holds) : i = j := by
  have total : ∑ k, (config.thread k).holding ≤ 1 := by
    have lock := inv.lock
    omega
  apply eq_of_sum_le_one total
  · rw [Thread.holding_eq_one_iff.mpr first]
    exact Nat.one_pos
  · rw [Thread.holding_eq_one_iff.mpr second]
    exact Nat.one_pos

theorem word (inv : Inv counts config) :
    config.shared.lock = LOCK ∨ config.shared.lock = UNLOCK := by
  have lock := inv.lock
  have small : config.shared.lock.toNat = 0 ∨ config.shared.lock.toNat = 1 := by omega
  rcases small with zero | one
  · exact .inl (BitVec.eq_of_toNat_eq zero)
  · exact .inr (BitVec.eq_of_toNat_eq one)

/-- The lock is taken while a thread holds it. -/
theorem taken (inv : Inv counts config) {i : ι} (holds : (config.thread i).Holds) :
    config.shared.lock = LOCK := by
  have lock := inv.lock
  have one := Thread.holding_eq_one_iff.mpr holds
  have le : (config.thread i).holding ≤ ∑ j, (config.thread j).holding :=
    Finset.single_le_sum (f := fun j => (config.thread j).holding) (fun _ _ => Nat.zero_le _)
      (Finset.mem_univ i)
  have zero : config.shared.lock.toNat = 0 := by omega
  exact BitVec.eq_of_toNat_eq zero

/-- It is free exactly when none does. -/
theorem free_iff (inv : Inv counts config) :
    config.shared.lock = UNLOCK ↔ ∀ j, ¬(config.thread j).Holds := by
  constructor
  · intro free j holds
    rw [inv.taken holds] at free
    exact absurd free (by decide)
  · intro none
    have zero : ∑ j, (config.thread j).holding = 0 :=
      Finset.sum_eq_zero fun j _ => Thread.holding_eq_zero_iff.mpr (none j)
    have lock := inv.lock
    rw [zero] at lock
    exact BitVec.eq_of_toNat_eq lock

theorem step [DecidableEq ι] (inv : Inv counts config) {i : ι} {config' : Config ι Shared Thread}
    (stepped : (spinProgram counts).system.step config i config') : Inv counts config' := by
  obtain ⟨⟨s', t'⟩, moved, rfl⟩ := stepped
  have effect := effect_of_step (inv.sound i) inv.word inv.taken moved
  obtain ⟨k, grown, counted, changed⟩ := effect.grows
  constructor
  · have total := Config.sum_after Thread.holding config i s' t'
    have lock := inv.lock
    have exchanged := effect.lock
    simp only [Config.after_shared]
    omega
  · have total := Config.sum_after Thread.increments config i s' t'
    have sum : ∑ j, ((config.after i (s', t')).thread j).increments =
        (∑ j, (config.thread j).increments) + k := by omega
    rw [sum, BitVec.ofNat_add, ← inv.count]
    exact grown
  · apply Config.forall_after
    · exact effect.sound
    · intro j ne
      rcases changed with rfl | holds
      · have same : s'.a = config.shared.a := by
          rw [grown]
          simp
        rw [Config.after_shared, same]
        exact inv.sound j
      · apply (inv.sound j).of_not_holds
        intro other
        exact ne (inv.holder_unique other holds)

end Inv

theorem inv_of_reachable [DecidableEq ι] {config : Config ι Shared Thread}
    (reachable : SpinReachable counts config) : Inv counts config := by
  apply reachable.invariant (P := Inv counts)
  · rintro config ⟨shared, threads⟩
    have idle : ∀ j, ¬(config.thread j).Holds := by
      intro j
      simp [Thread.Holds, Thread.Critical, (threads j).1]
    have none : ∀ j, (config.thread j).increments = 0 := by
      intro j
      simp [Thread.increments, (threads j).1, (threads j).2]
    constructor
    · rw [shared, Finset.sum_eq_zero fun j _ => Thread.holding_eq_zero_iff.mpr (idle j)]
      rfl
    · rw [shared, Finset.sum_eq_zero fun j _ => none j]
      rfl
    · intro j
      simp only [Thread.Sound, (threads j).1, (threads j).2]
      exact Nat.zero_le _
  · intro config i config' inv stepped
    exact inv.step stepped

/-- At most one thread is in the critical section, the lock is free exactly when no
thread holds it, and `a` counts every increment; after the last thread has finished
it is the sum of the loop counts. -/
theorem spin_lock_excludes [DecidableEq ι] {config : Config ι Shared Thread}
    (reachable : SpinReachable counts config) :
    (∀ i j, (config.thread i).Critical → (config.thread j).Critical → i = j) ∧
    (config.shared.lock = UNLOCK ↔ ∀ j, ¬(config.thread j).Holds) ∧
    config.shared.a = BitVec.ofNat 32 (∑ j, (config.thread j).increments) ∧
    ((∀ j, (config.thread j).pc = .done) →
      config.shared.a = BitVec.ofNat 32 (∑ j, counts j) ∧ config.shared.lock = UNLOCK) := by
  have inv := inv_of_reachable reachable
  refine ⟨?_, inv.free_iff, inv.count, ?_⟩
  · intro i j first second
    exact inv.holder_unique first.holds second.holds
  · intro finished
    constructor
    · rw [inv.count]
      congr 1
      apply Finset.sum_congr rfl
      intro j _
      have sound := inv.sound j
      simp only [Thread.Sound, finished j] at sound
      simp [Thread.increments, finished j, sound]
    · apply inv.free_iff.mpr
      intro j
      simp [Thread.Holds, Thread.Critical, finished j]

/-- Two threads that run the loop twice and three times, at the start. -/
def twoThreads : Config (Fin 2) Shared Thread where
  shared := ⟨UNLOCK, 0⟩
  thread := fun _ => ⟨.loopTest, 0, 0, false⟩

def twoCounts (j : Fin 2) : Nat :=
  j.val + 2

/-- Thread 1 tries to take the lock while thread 0 has it. -/
def contended : List (Fin 2) :=
  List.replicate 5 0 ++ List.replicate 9 1 ++ List.replicate 14 0 ++ List.replicate 27 1

/-- The state in which both have finished. -/
def twoThreadsEnd : Config (Fin 2) Shared Thread :=
  ((spinProgram twoCounts).run contended twoThreads).getD twoThreads

/-- Both threads' increments are in `a`. -/
theorem spin_lock_excludes_twoThreads :
    twoThreadsEnd.shared.a = 5 ∧ twoThreadsEnd.shared.lock = UNLOCK := by
  have started : Trace (spinProgram twoCounts).system [] twoThreads :=
    .start ⟨rfl, fun _ => ⟨rfl, rfl⟩⟩
  have runs : ((spinProgram twoCounts).run contended twoThreads).isSome := by decide +kernel
  have reachable : SpinReachable twoCounts twoThreadsEnd := by
    rcases Option.isSome_iff_exists.mp runs with ⟨config, ends⟩
    rw [twoThreadsEnd, ends]
    exact ⟨_, Program.trace_run contended started ends⟩
  have finished : ∀ j, (twoThreadsEnd.thread j).pc = .done := by decide +kernel
  have sum : ∑ j, twoCounts j = 5 := by decide
  have result := (spin_lock_excludes reachable).2.2.2 finished
  rw [sum] at result
  exact result

end NckuOs.Spin
