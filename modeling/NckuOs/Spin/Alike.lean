import NckuOs.Lib.Bisimulation
import NckuOs.Spin.Exclusion
import NckuOs.Spin.Programs

/-!
# The lock of `1_2.c` against the one of the library

Seen from outside, `1_2.c` does what `1_1.c` does.  The lock is taken with the `xchg` that finds
`UNLOCK`, and given back with the `xchg` of `spin_unlock`; every other instruction on the way
goes unnoticed.
-/

namespace NckuOs.Spin

open NckuOs.Threads
open NckuOs.Transition

/-! ## What is seen -/

/-- Where the thread is in `1_1.c`. -/
def Thread.place (t : Thread) : Pthread.Pc :=
  match t.pc with
  | .loopTest => .loopTest
  | .movLock => .pthreadSpinLock
  | .xchgLock => .pthreadSpinLock
  | .subLock => if t.eax = UNLOCK then .readA else .pthreadSpinLock
  | .js => if t.sf then .pthreadSpinLock else .readA
  | .readA => .readA
  | .writeA => .writeA t.eax
  | .movUnlock => .pthreadSpinUnlock
  | .xchgUnlock => .pthreadSpinUnlock
  | .done => .done

def Thread.view (t : Thread) : Pthread.Thread :=
  ⟨t.place, t.i⟩

def Shared.view (shared : Shared) : Pthread.Shared :=
  ⟨decide (shared.lock ≠ UNLOCK), shared.a⟩

def viewConfig {ι : Type} (config : Config ι Shared Thread) :
    Config ι Pthread.Shared Pthread.Thread :=
  ⟨config.shared.view, fun j => (config.thread j).view⟩

def Process.view (process : Process Shared Thread) :
    Process Pthread.Shared Pthread.Thread :=
  ⟨viewConfig process.config, process.created, process.main, process.file⟩

/-! ## One thread -/

section Thread

variable {count : Nat} {s s' : Shared} {t t' : Thread}

/-- `sub` behind an `xchg` that has found the lock taken. -/
theorem threadStep_locked (i : Nat) (sf : Bool) :
    threadStep count s ⟨.subLock, i, LOCK, sf⟩ = some (s, ⟨.js, i, LOCK - 1, true⟩) := by
  have negative : (LOCK - 1).msb = true := by decide
  exact congrArg (fun sf => some (s, (⟨.js, i, LOCK - 1, sf⟩ : Thread))) negative

/-- `sub` behind an `xchg` that has taken the lock. -/
theorem threadStep_unlocked (i : Nat) (sf : Bool) :
    threadStep count s ⟨.subLock, i, UNLOCK, sf⟩ = some (s, ⟨.js, i, UNLOCK - 1, false⟩) := by
  have positive : (UNLOCK - 1).msb = false := by decide
  exact congrArg (fun sf => some (s, (⟨.js, i, UNLOCK - 1, sf⟩ : Thread))) positive

/-- An instruction goes unnoticed, or is a step of `1_1.c`. -/
theorem view_step (sound : t.Sound count s.a) (word : s.lock = LOCK ∨ s.lock = UNLOCK)
    (step : threadStep count s t = some (s', t')) :
    (s'.view, t'.view) = (s.view, t.view) ∨
      Pthread.threadStep count s.view t.view = some (s'.view, t'.view) := by
  rcases s with ⟨lock, a⟩
  rcases t with ⟨pc, i, eax, sf⟩
  cases pc with
  | loopTest =>
      cases step
      right
      by_cases more : i < count <;>
        simp [Pthread.threadStep, Thread.view, Thread.place, more]
  | movLock =>
      cases step
      left
      rfl
  | xchgLock =>
      cases step
      rcases sound with ⟨_, rfl⟩
      rcases word with rfl | rfl
      · left
        rfl
      · right
        rfl
  | subLock =>
      left
      rcases sound with ⟨_, rfl | rfl⟩
      · rw [threadStep_locked] at step
        cases step
        rfl
      · rw [threadStep_unlocked] at step
        cases step
        rfl
  | js =>
      cases step
      left
      rcases sound with ⟨_, ⟨_, rfl⟩ | ⟨_, rfl⟩⟩ <;> rfl
  | readA =>
      cases step
      right
      rfl
  | writeA =>
      cases step
      right
      rfl
  | movUnlock =>
      cases step
      left
      rfl
  | xchgUnlock =>
      cases step
      rcases sound with ⟨_, rfl⟩
      right
      rfl
  | done => cases step

/-- The next `n` instructions of a thread, when no other comes in between. -/
def instructions (count : Nat) : Nat → Shared × Thread → Option (Shared × Thread)
  | 0, now => some now
  | n + 1, now => (threadStep count now.1 now.2).bind (instructions count n)

/-- What a thread does next in `1_1.c` it does in at most four instructions. -/
theorem view_follows (sound : t.Sound count s.a) (word : s.lock = LOCK ∨ s.lock = UNLOCK)
    {next : Pthread.Shared × Pthread.Thread}
    (step : Pthread.threadStep count s.view t.view = some next) :
    ∃ n s' t', instructions count n (s, t) = some (s', t') ∧ (s'.view, t'.view) = next := by
  rcases s with ⟨lock, a⟩
  rcases t with ⟨pc, i, eax, sf⟩
  -- Whoever gets through `pthread_spin_lock` has found the lock free.
  have free : Thread.place ⟨pc, i, eax, sf⟩ = .pthreadSpinLock → lock = UNLOCK := by
    intro here
    rcases word with rfl | rfl
    · simp only [Thread.view, here, Pthread.threadStep] at step
      cases step
    · rfl
  cases pc with
  | loopTest =>
      cases step
      refine ⟨1, _, _, rfl, ?_⟩
      by_cases more : i < count <;> simp [Thread.view, Thread.place, more]
  | movLock =>
      cases free rfl
      cases step
      exact ⟨2, _, _, rfl, rfl⟩
  | xchgLock =>
      rcases sound with ⟨_, rfl⟩
      cases free rfl
      cases step
      exact ⟨1, _, _, rfl, rfl⟩
  | subLock =>
      rcases sound with ⟨_, rfl | rfl⟩
      · cases free rfl
        cases step
        refine ⟨4, ⟨LOCK, a⟩, ⟨.subLock, i, UNLOCK, true⟩, ?_, rfl⟩
        rw [instructions, threadStep_locked]
        rfl
      · cases step
        refine ⟨3, ⟨lock, a⟩, ⟨.writeA, i, a, false⟩, ?_, rfl⟩
        rw [instructions, threadStep_unlocked]
        rfl
  | js =>
      rcases sound with ⟨_, ⟨rfl, rfl⟩ | ⟨rfl, rfl⟩⟩
      · cases step
        exact ⟨2, _, _, rfl, rfl⟩
      · cases free rfl
        cases step
        exact ⟨3, _, _, rfl, rfl⟩
  | readA =>
      cases step
      exact ⟨1, _, _, rfl, rfl⟩
  | writeA =>
      cases step
      exact ⟨1, _, _, rfl, rfl⟩
  | movUnlock =>
      cases step
      exact ⟨2, _, _, rfl, rfl⟩
  | xchgUnlock =>
      rcases sound with ⟨_, rfl⟩
      cases step
      exact ⟨1, _, _, rfl, rfl⟩
  | done => cases step

end Thread

/-! ## The processes -/

theorem viewConfig_after {ι : Type} [DecidableEq ι] (config : Config ι Shared Thread) (i : ι)
    (next : Shared × Thread) :
    viewConfig (config.after i next) =
      (viewConfig config).after i (next.1.view, next.2.view) := by
  have threads : (fun j => ((config.after i next).thread j).view) =
      Function.update (fun j => (config.thread j).view) i next.2.view := by
    funext j
    by_cases same : j = i
    · subst same
      rw [Config.after_self, Function.update_self]
    · rw [Config.after_of_ne same, Function.update_of_ne same]
  exact congrArg (Config.mk next.1.view) threads

theorem Thread.place_eq_done (t : Thread) : t.place = .done ↔ t.pc = .done := by
  unfold Thread.place
  split <;> simp_all
  · split <;> simp
  · split <;> simp

/-- `main` does the same in both. -/
theorem mainStep_view (process : Process Shared Thread) :
    mainStep seen₁₁ process.view = (mainStep seen₁₂ process).map Process.view := by
  rcases process with ⟨config, created, main, file⟩
  cases main with
  | create t => rfl
  | join t =>
      have same : seen₁₁.done (config.thread t).view = seen₁₂.done (config.thread t) := by
        simp only [seen₁₁, seen₁₂, Thread.view, Thread.place_eq_done]
      simp only [mainStep, Process.view, viewConfig, same]
      split <;> rfl
  | print => rfl
  | ended => rfl

section Alike

variable {count : Nat} {old : List UInt8} {process : Process Shared Thread}

theorem processInv₁₂ (reachable : Reachable (process₁₂ count old) process) :
    ProcessInv (spinProgram fun _ => count) seen₁₂ old process := by
  apply processInv_of_reachable _ reachable
  intro _ t done shared
  have here : t.pc = .done := of_decide_eq_true done
  simp only [spinProgram, threadStep, here]

theorem inv₁₂ (reachable : Reachable (process₁₂ count old) process) :
    Inv (fun _ => count) process.config :=
  inv_of_reachable (processInv₁₂ reachable).reached

/-- Instructions of one thread are a part of a run. -/
theorem trace_instructions {t : Fin 2} (created : process.created t = true) (n : Nat)
    {s' : Shared} {t' : Thread}
    (runs : instructions count n (process.config.shared, process.config.thread t) =
      some (s', t')) :
    ∃ events, Trace ((process₁₂ count old).resume process) events
      { process with config := process.config.after t (s', t') } := by
  induction n generalizing process with
  | zero =>
      cases runs
      rw [Config.after_same]
      exact ⟨[], .start rfl⟩
  | succ n ih =>
      rcases Option.bind_eq_some_iff.mp runs with ⟨next, moved, others⟩
      have first : (process₁₂ count old).step process (.thread t)
          { process with config := process.config.after t next } := ⟨created, next, moved, rfl⟩
      have rest : instructions count n ((process.config.after t next).shared,
          (process.config.after t next).thread t) = some (s', t') := by
        rw [Config.after_self]
        exact others
      rcases @ih { process with config := process.config.after t next } created rest with
        ⟨events, trace⟩
      have twice : (process.config.after t next).after t (s', t') =
          process.config.after t (s', t') := by
        simp only [Config.after, Function.update_idem]
      refine ⟨[.thread t] ++ events, (Trace.one first).append ?_⟩
      rw [← twice]
      exact trace

theorem looksLike (count : Nat) (old : List UInt8) :
    LooksLike (process₁₂ count old) (process₁₁ count old) Process.view := by
  constructor
  · rintro ⟨⟨shared, thread⟩, created, main, file⟩ ⟨⟨rfl, threads⟩, rfl, rfl, rfl⟩
    refine ⟨⟨rfl, fun j => ?_⟩, rfl, rfl, rfl⟩
    have pc : (thread j).pc = .loopTest := (threads j).1
    have i : (thread j).i = 0 := (threads j).2
    simp only [Process.view, viewConfig, Thread.view, Thread.place, pc, i]
  · rintro ⟨⟨shared, thread⟩, created, main, file⟩ ⟨⟨rfl, threads⟩, rfl, rfl, rfl⟩
    refine ⟨⟨⟨⟨UNLOCK, 0⟩, fun _ => ⟨.loopTest, 0, 0, false⟩⟩, _, _, _⟩,
      ⟨⟨rfl, fun _ => ⟨rfl, rfl⟩⟩, rfl, rfl, rfl⟩, ?_⟩
    have isStart : thread = fun _ => ⟨.loopTest, 0⟩ := funext threads
    rw [isStart]
    rfl
  · intro process agent process' reachable step
    have inv := inv₁₂ reachable
    cases agent with
    | main =>
        right
        refine ⟨.main, ?_⟩
        have moved : mainStep seen₁₂ process = some process' := step
        exact (mainStep_view process).trans (congrArg (Option.map Process.view) moved)
    | thread t =>
        rcases step with ⟨created, ⟨s', t'⟩, moved, rfl⟩
        rcases view_step (inv.sound t) inv.word moved with same | moves
        · left
          have config : viewConfig (process.config.after t (s', t')) =
              viewConfig process.config := by
            rw [viewConfig_after, same]
            exact Config.after_same (viewConfig process.config) t
          simp only [Process.view, config]
        · right
          refine ⟨.thread t, created, _, moves, ?_⟩
          simp only [Process.view, viewConfig_after]
  · intro process agent abstract reachable step
    have inv := inv₁₂ reachable
    cases agent with
    | main =>
        have moved : mainStep seen₁₁ process.view = some abstract := step
        rw [mainStep_view] at moved
        rcases Option.map_eq_some_iff.mp moved with ⟨process', step', same⟩
        have first : (process₁₂ count old).step process .main process' := step'
        exact ⟨_, process', .one first, same⟩
    | thread t =>
        rcases step with ⟨created, next, moved, rfl⟩
        rcases view_follows (inv.sound t) inv.word moved with ⟨n, s', t', runs, rfl⟩
        rcases trace_instructions created n runs with ⟨events, trace⟩
        refine ⟨events, _, trace, ?_⟩
        simp only [Process.view, viewConfig_after]

end Alike

end NckuOs.Spin
