import NckuOs.Spin.Alike

/-!
# How `1_1.c` and `1_2.c` end

A thread of `1_2.c` may go round `spin_lock` for ever while another one has the lock, so that
not every run comes to an end.  But an end is never out of reach, and all runs that come to
their end leave the same file.
-/

namespace NckuOs.Spin

open NckuOs.Decimal
open NckuOs.Threads
open NckuOs.Transition

/-! ## Who can move -/

namespace Pthread

variable {count : Nat} {shared shared' : Shared} {t t' : Thread}

/-- What a thread has left. -/
def Thread.left (count : Nat) (t : Thread) : Nat :=
  match t.pc with
  | .loopTest => 5 * (count - t.i) + 1
  | .pthreadSpinLock => 5 * (count - t.i)
  | .readA => 5 * (count - t.i) - 1
  | .writeA _ => 5 * (count - t.i) - 2
  | .pthreadSpinUnlock => 5 * (count - t.i) - 3
  | .done => 0

/-- A thread inside its loop has not come to the end of it. -/
def Thread.InLoop (count : Nat) (t : Thread) : Prop :=
  t.pc = .loopTest ∨ t.pc = .done ∨ t.i < count

theorem left_lt (inLoop : t.InLoop count)
    (step : threadStep count shared t = some (shared', t')) : t'.left count < t.left count := by
  rcases t with ⟨pc, i⟩
  have inside : pc ≠ .loopTest → pc ≠ .done → i < count := by
    intro notTest notDone
    rcases inLoop with here | here | less
    · exact absurd here notTest
    · exact absurd here notDone
    · exact less
  cases pc with
  | loopTest =>
      cases step
      by_cases more : i < count <;> simp [Thread.left, more]
  | pthreadSpinLock =>
      rcases Option.ite_none_left_eq_some.mp step with ⟨_, result⟩
      cases result
      have less := inside (by simp) (by simp)
      simp only [Thread.left]
      omega
  | readA =>
      cases step
      have less := inside (by simp) (by simp)
      simp only [Thread.left]
      omega
  | writeA old =>
      cases step
      have less := inside (by simp) (by simp)
      simp only [Thread.left]
      omega
  | pthreadSpinUnlock =>
      cases step
      have less := inside (by simp) (by simp)
      simp only [Thread.left]
      omega
  | done => cases step

/-- Only `pthread_spin_lock` makes a thread wait. -/
theorem moves_or_waits (count : Nat) (shared : Shared) (t : Thread) :
    (∃ next, threadStep count shared t = some next) ∨ t.pc = .done ∨
      t.pc = .pthreadSpinLock ∧ shared.taken = true := by
  rcases t with ⟨pc, i⟩
  cases pc with
  | pthreadSpinLock =>
      cases taken : shared.taken with
      | true => exact .inr (.inr ⟨rfl, rfl⟩)
      | false =>
          left
          simp [threadStep, taken]
  | done => exact .inr (.inl rfl)
  | _ => exact .inl ⟨_, rfl⟩

end Pthread

section Thread

variable {count : Nat} {a : Word} {t : Thread}

theorem Thread.Sound.inLoop (sound : t.Sound count a) : t.view.InLoop count := by
  rcases t with ⟨pc, i, eax, sf⟩
  cases pc with
  | loopTest => exact .inl rfl
  | done => exact .inr (.inl rfl)
  | movLock => exact .inr (.inr sound)
  | readA => exact .inr (.inr sound)
  | movUnlock => exact .inr (.inr sound)
  | _ => exact .inr (.inr sound.1)

/-- A thread that has the lock does not wait for it. -/
theorem Thread.Holds.place (holds : t.Holds) (sound : t.Sound count a) :
    t.place ≠ .done ∧ t.place ≠ .pthreadSpinLock := by
  rcases t with ⟨pc, i, eax, sf⟩
  rcases holds with ⟨rfl, rfl⟩ | ⟨rfl, rfl⟩ | rfl | rfl | rfl | rfl
  · simp [Thread.place]
  · rcases sound with ⟨_, ⟨_, rfl⟩ | ⟨wrong, _⟩⟩
    · simp [Thread.place]
    · have differ : UNLOCK - 1 ≠ LOCK - 1 := by decide
      exact absurd wrong differ
  · simp [Thread.place]
  · simp [Thread.place]
  · simp [Thread.place]
  · simp [Thread.place]

end Thread

/-! ## An end can be reached -/

/-- What `main` has left. -/
def MainPc.left : MainPc → Nat
  | .create t => if t = 0 then 5 else 4
  | .join t => if t = 0 then 3 else 2
  | .print => 1
  | .ended => 0

def Process.left (count : Nat) (process : Process Pthread.Shared Pthread.Thread) : Nat :=
  process.main.left + ∑ t, (process.config.thread t).left count

theorem left_mainStep {count : Nat} {process next : Process Pthread.Shared Pthread.Thread}
    (step : mainStep seen₁₁ process = some next) : next.left count < process.left count := by
  rcases process with ⟨config, created, main, file⟩
  apply Nat.add_lt_add_of_lt_of_le
  · cases main with
    | create t =>
        cases step
        by_cases first : t = 0 <;> simp [MainPc.left, first]
    | join t =>
        rcases Option.ite_none_right_eq_some.mp step with ⟨_, result⟩
        cases result
        by_cases first : t = 0 <;> simp [MainPc.left, first]
    | print =>
        cases step
        exact Nat.one_pos
    | ended => cases step
  · apply Nat.le_of_eq
    cases main with
    | create t =>
        cases step
        rfl
    | join t =>
        rcases Option.ite_none_right_eq_some.mp step with ⟨_, result⟩
        cases result
        rfl
    | print =>
        cases step
        rfl
    | ended => cases step

section Ends

variable {count : Nat} {old : List UInt8} {process : Process Shared Thread}

/-- While `main` waits, some thread can move. -/
theorem exists_thread (inv : Inv (fun _ => count) process.config) {t : Fin 2}
    (notDone : (process.config.thread t).pc ≠ .done) :
    ∃ u next, Pthread.threadStep count process.config.shared.view
      (process.config.thread u).view = some next := by
  rcases Pthread.moves_or_waits count process.config.shared.view (process.config.thread t).view
    with ⟨next, moves⟩ | done | ⟨_, taken⟩
  · exact ⟨t, next, moves⟩
  · exact absurd ((Thread.place_eq_done _).mp done) notDone
  · -- The lock is taken, and whoever has it goes on.
    have locked : process.config.shared.lock ≠ UNLOCK := of_decide_eq_true taken
    have holder : ∃ u, (process.config.thread u).Holds := by
      by_contra nobody
      exact locked (inv.free_iff.mpr fun u holds => nobody ⟨u, holds⟩)
    rcases holder with ⟨u, holds⟩
    have place := holds.place (inv.sound u)
    rcases Pthread.moves_or_waits count process.config.shared.view (process.config.thread u).view
      with ⟨next, moves⟩ | done | ⟨waits, _⟩
    · exact ⟨u, next, moves⟩
    · exact absurd done place.1
    · exact absurd waits place.2

/-- Until `main` has ended, some step leaves less to do. -/
theorem exists_lower (reachable : Reachable (process₁₂ count old) process)
    (going : process.main ≠ .ended) :
    ∃ agent next, (process₁₁ count old).step process.view agent next ∧
      next.left count < process.view.left count := by
  have inv := inv₁₂ reachable
  by_cases waits : ∃ t, process.main = .join t ∧ (process.config.thread t).pc ≠ .done
  · rcases waits with ⟨t, here, notDone⟩
    rcases exists_thread inv notDone with ⟨u, ⟨shared', t'⟩, moves⟩
    have created : process.created u = true := by
      rw [(processInv₁₂ reachable).created u, here]
      trivial
    refine ⟨.thread u, _, ⟨created, _, moves, rfl⟩, ?_⟩
    have lower := Pthread.left_lt (inv.sound u).inLoop moves
    have total := Config.sum_after (fun t => t.left count) process.view.config u shared' t'
    have atU : (process.view.config.thread u).left count =
        (process.config.thread u).view.left count := rfl
    simp only [Process.left]
    omega
  · have moves : ∃ next, mainStep seen₁₁ process.view = some next := by
      rw [mainStep_view]
      rcases process with ⟨config, created, main, file⟩
      cases main with
      | create t => exact ⟨_, rfl⟩
      | join t =>
          have done : (config.thread t).pc = .done := by
            by_contra notDone
            exact waits ⟨t, rfl, notDone⟩
          simp [mainStep, seen₁₂, done]
      | print => exact ⟨_, rfl⟩
      | ended => exact absurd rfl going
    rcases moves with ⟨next, step⟩
    exact ⟨.main, next, step, left_mainStep step⟩

/-- The file of a process that has ended. -/
theorem file_of_ended (reachable : Reachable (process₁₂ count old) process)
    (ended : process.main = .ended) :
    process.file = old ++ counterText (BitVec.ofNat 32 (2 * count)) := by
  have processInv := processInv₁₂ reachable
  have inv := inv₁₂ reachable
  have increments : ∀ t, (process.config.thread t).increments = count := by
    intro t
    have joined : seen₁₂.done (process.config.thread t) = true := by
      apply processInv.joined
      rw [ended]
      trivial
    have done : (process.config.thread t).pc = .done := of_decide_eq_true joined
    have sound := inv.sound t
    simp only [Thread.Sound, done] at sound
    simp [Thread.increments, done, sound]
  have total : ∑ t, (process.config.thread t).increments = 2 * count := by
    simp only [increments, Finset.sum_const, Finset.card_univ, Fintype.card_fin]
    rfl
  have counted : seen₁₂.a process.config.shared = BitVec.ofNat 32 (2 * count) := by
    rw [← total]
    exact inv.count
  rw [processInv.file, if_pos ended, counted]

end Ends

/-! ## Both programs -/

/-- The lock of `1_2.c` is as good as the library's: the two programs reach the same states,
seen from outside, and whatever `1_1.c` can still do from there, `1_2.c` can do too. -/
theorem programs_look_alike (count : Nat) (old : List UInt8) :
    (∀ process, Reachable (process₁₁ count old) process ↔
      ∃ process', Reachable (process₁₂ count old) process' ∧ process'.view = process) ∧
    ∀ process, Reachable (process₁₂ count old) process → ∀ agents last,
      Trace ((process₁₁ count old).resume process.view) agents last →
        ∃ agents' last', Trace ((process₁₂ count old).resume process) agents' last' ∧
          last'.view = last := by
  constructor
  · exact (looksLike count old).reachable_iff
  · intro process reachable agents last run
    exact (looksLike count old).follows_run reachable run

/-- Both programs can come to their end from wherever they are, and then they have appended
twice the number of rounds to the file. -/
theorem programs_can_end (count : Nat) (old : List UInt8) :
    (∀ process, Reachable (process₁₁ count old) process →
      (process.main = .ended →
        process.file = old ++ counterText (BitVec.ofNat 32 (2 * count))) ∧
      ∃ agents last, Trace ((process₁₁ count old).resume process) agents last ∧
        last.main = .ended) ∧
    ∀ process, Reachable (process₁₂ count old) process →
      (process.main = .ended →
        process.file = old ++ counterText (BitVec.ofNat 32 (2 * count))) ∧
      ∃ agents last, Trace ((process₁₂ count old).resume process) agents last ∧
        last.main = .ended := by
  have looks := looksLike count old
  have canEnd : ∀ process, Reachable (process₁₂ count old) process →
      ∃ agents last, Trace ((process₁₂ count old).resume process) agents last ∧
        last.view.main = .ended := by
    intro process reachable
    exact looks.can_reach (P := fun process => process.main = .ended)
      (fun process here going => exists_lower here going) reachable
  constructor
  · intro process reachable
    rcases (looks.reachable_iff process).mp reachable with ⟨process', reachable', rfl⟩
    constructor
    · exact file_of_ended reachable'
    · rcases canEnd process' reachable' with ⟨agents, last, run, ended⟩
      rcases looks.views reachable' run with ⟨agents', run'⟩
      exact ⟨agents', last.view, run', ended⟩
  · intro process reachable
    constructor
    · exact file_of_ended reachable
    · exact canEnd process reachable

/-- With 10000 rounds the text is `20000 `. -/
example : counterText (BitVec.ofNat 32 (2 * 10000)) = [50, 48, 48, 48, 48, 32] := by
  decide +kernel

end NckuOs.Spin
