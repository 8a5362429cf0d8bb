import Mathlib.Tactic.FinCases
import NckuOs.Lib.Decimal
import NckuOs.Spin.Lock

/-!
# `1_1.c` and `1_2.c`

The two programs differ in their lock only: `1_1.c` has the one of the library, `1_2.c` its own.
`main` creates two threads, joins them, and appends the value of `a` to `1.txt`.
-/

namespace NckuOs.Spin

open NckuOs.Decimal
open NckuOs.Threads
open NckuOs.Transition

/-! ## `1_1.c` -/

namespace Pthread

/-- The lock of the library, and `a`. -/
structure Shared where
  taken : Bool
  a : Word
  deriving DecidableEq, Repr

/-- The next statement of a thread; a thread that is going to write `a` has read it. -/
inductive Pc
  | loopTest
  | pthreadSpinLock
  | readA
  | writeA (old : Word)
  | pthreadSpinUnlock
  | done
  deriving DecidableEq, Repr

structure Thread where
  pc : Pc
  i : Nat
  deriving DecidableEq, Repr

/-- The next statement of a thread that runs the loop `count` times.  `pthread_spin_lock`
returns when the lock is free, and takes it. -/
def threadStep (count : Nat) (shared : Shared) (t : Thread) : Option (Shared × Thread) :=
  match t.pc with
  | .loopTest => some (shared, { t with pc := if t.i < count then .pthreadSpinLock else .done })
  | .pthreadSpinLock =>
      if shared.taken then none else some ({ shared with taken := true }, { t with pc := .readA })
  | .readA => some (shared, { t with pc := .writeA shared.a })
  | .writeA old => some ({ shared with a := old + 1 }, { t with pc := .pthreadSpinUnlock })
  | .pthreadSpinUnlock =>
      some ({ shared with taken := false }, { t with pc := .loopTest, i := t.i + 1 })
  | .done => none

/-- The threads behind `pthread_spin_init`. -/
def spinProgram {ι : Type} (counts : ι → Nat) : Program ι Shared Thread where
  start config := config.shared = ⟨false, 0⟩ ∧ ∀ j, config.thread j = ⟨.loopTest, 0⟩
  step j := threadStep (counts j)

end Pthread

/-! ## `main` -/

/-- The next statement of `main`. -/
inductive MainPc
  | create (t : Fin 2)
  | join (t : Fin 2)
  | print
  | ended
  deriving DecidableEq, Repr

/-- A process: the threads with what they share, those that have been created, `main`, and the
file `1.txt`. -/
structure Process (σ τ : Type) where
  config : Config (Fin 2) σ τ
  created : Fin 2 → Bool
  main : MainPc
  file : List UInt8

/-- What `main` sees of its threads. -/
structure Seen (σ τ : Type) where
  done : τ → Bool
  a : σ → Word

/-- Who moves. -/
inductive Agent
  | main
  | thread (t : Fin 2)
  deriving DecidableEq, Repr

/-- `fprintf(fptr, "%d ", a)`. -/
def counterText (a : Word) : List UInt8 :=
  intDigits a.toInt ++ ascii [' ']

variable {σ τ : Type}

/-- A step of `main`. -/
def mainStep (seen : Seen σ τ) (process : Process σ τ) : Option (Process σ τ) :=
  match process.main with
  | .create t =>
      some { process with
        created := Function.update process.created t true
        main := if t = 0 then .create 1 else .join 0 }
  | .join t =>
      if seen.done (process.config.thread t) then
        some { process with main := if t = 0 then .join 1 else .print }
      else none
  | .print =>
      some { process with
        file := process.file ++ counterText (seen.a process.config.shared), main := .ended }
  | .ended => none

/-- A run of a program, when `1.txt` holds `old`. -/
def processOf (program : Program (Fin 2) σ τ) (seen : Seen σ τ) (old : List UInt8) :
    System (Process σ τ) Agent where
  init process := program.start process.config ∧ process.created = (fun _ => false) ∧
    process.main = .create 0 ∧ process.file = old
  step process agent process' :=
    match agent with
    | .main => mainStep seen process = some process'
    | .thread t => process.created t = true ∧ ∃ next,
        program.step t process.config.shared (process.config.thread t) = some next ∧
          process' = { process with config := process.config.after t next }

def seen₁₁ : Seen Pthread.Shared Pthread.Thread where
  done t := decide (t.pc = .done)
  a := Pthread.Shared.a

def seen₁₂ : Seen Shared Thread where
  done t := decide (t.pc = .done)
  a := Shared.a

/-- `1_1.c`, with `count` for 10000. -/
def process₁₁ (count : Nat) (old : List UInt8) :
    System (Process Pthread.Shared Pthread.Thread) Agent :=
  processOf (Pthread.spinProgram fun _ => count) seen₁₁ old

/-- `1_2.c`. -/
def process₁₂ (count : Nat) (old : List UInt8) : System (Process Shared Thread) Agent :=
  processOf (spinProgram fun _ => count) seen₁₂ old

/-! ## What holds of both processes -/

/-- The threads that have been created in front of a statement of `main`. -/
def MainPc.Created : MainPc → Fin 2 → Prop
  | .create s => fun t => t < s
  | _ => fun _ => True

/-- The threads that have been joined. -/
def MainPc.Joined : MainPc → Fin 2 → Prop
  | .create _ => fun _ => False
  | .join s => fun t => t < s
  | .print => fun _ => True
  | .ended => fun _ => True

/-- What holds in front of every statement. -/
structure ProcessInv (program : Program (Fin 2) σ τ) (seen : Seen σ τ) (old : List UInt8)
    (process : Process σ τ) : Prop where
  reached : Reachable program.system process.config
  created : ∀ t, process.created t = true ↔ process.main.Created t
  joined : ∀ t, process.main.Joined t → seen.done (process.config.thread t) = true
  file : process.file =
    old ++ if process.main = .ended then counterText (seen.a process.config.shared) else []

section Process

variable {program : Program (Fin 2) σ τ} {seen : Seen σ τ} {old : List UInt8}
  {process process' : Process σ τ}

theorem ProcessInv.main (inv : ProcessInv program seen old process)
    (step : mainStep seen process = some process') : ProcessInv program seen old process' := by
  rcases process with ⟨config, created, main, file⟩
  cases main with
  | create t =>
      cases step
      constructor
      · exact inv.reached
      · intro s
        have before := inv.created s
        fin_cases t <;> fin_cases s <;> simp_all [MainPc.Created]
      · intro s joined
        fin_cases t <;> simp [MainPc.Joined] at joined
      · have before := inv.file
        fin_cases t <;> simpa using before
  | join t =>
      rcases Option.ite_none_right_eq_some.mp step with ⟨done, result⟩
      cases result
      constructor
      · exact inv.reached
      · intro s
        have before := inv.created s
        fin_cases t <;> simpa [MainPc.Created] using before
      · intro s joined
        have before := inv.joined s
        fin_cases t <;> fin_cases s <;> simp_all [MainPc.Joined]
      · have before := inv.file
        fin_cases t <;> simpa using before
  | print =>
      cases step
      constructor
      · exact inv.reached
      · exact inv.created
      · exact inv.joined
      · have before := inv.file
        simp_all
  | ended => cases step

theorem ProcessInv.thread (final : ∀ t s, seen.done s = true → ∀ shared,
    program.step t shared s = none) (inv : ProcessInv program seen old process) {t : Fin 2}
    {next : σ × τ}
    (step : program.step t process.config.shared (process.config.thread t) = some next) :
    ProcessInv program seen old { process with config := process.config.after t next } := by
  have notDone : seen.done (process.config.thread t) ≠ true := by
    intro done
    rw [final t _ done] at step
    cases step
  constructor
  · exact inv.reached.snoc ⟨next, step, rfl⟩
  · exact inv.created
  · intro s joined
    have before := inv.joined s joined
    by_cases same : s = t
    · subst same
      exact absurd before notDone
    · rw [Config.after_of_ne same]
      exact before
  · have going : process.main ≠ .ended := by
      intro ended
      apply notDone
      apply inv.joined
      rw [ended]
      trivial
    have before := inv.file
    rw [if_neg going] at before
    simp only [if_neg going]
    exact before

theorem processInv_of_reachable
    (final : ∀ t s, seen.done s = true → ∀ shared, program.step t shared s = none)
    (reachable : Reachable (processOf program seen old) process) :
    ProcessInv program seen old process := by
  apply reachable.invariant (P := ProcessInv program seen old)
  · rintro process ⟨starting, created, main, file⟩
    constructor
    · exact .start starting
    · intro t
      simp [created, main, MainPc.Created]
    · intro t joined
      rw [main] at joined
      exact joined.elim
    · simp [main, file]
  · intro process agent process' inv step
    cases agent with
    | main => exact inv.main step
    | thread t =>
        rcases step with ⟨_, next, moved, rfl⟩
        exact inv.thread final moved

end Process

end NckuOs.Spin
