import NckuOs.ProcLog.Program

/-!
# What the two builds of `3_2.c` write

With one thread the process ends inside `thread1`, so that `main` never comes to its
last loops.  With two threads the file holds the header and the product on top of what
`malloc` left in `z`.
-/

namespace NckuOs.ProcLog

open NckuOs.ByteMemory
open NckuOs.Decimal
open NckuOs.LoopNest
open NckuOs.Threads
open NckuOs.Transition

variable {number : ThreadNumber} {dims : Dims} {input : Input} {answer : Fin 2 → Answer}
  {x y : Mat Word}

/-! ## The steps -/

section Compute

variable {z : Mat Word} {nest : Nest}

/-- The cell is read. -/
theorem computeStep_fetch (accumulates : Accumulates nest) :
    computeStep x y z nest none = some (z, nest, some (z nest.i nest.j)) := by
  simp only [computeStep, if_pos accumulates]

/-- The cell is written. -/
theorem computeStep_store (accumulates : Accumulates nest) (old : Word) :
    computeStep x y z nest (some old) =
      some (setCell z nest.i nest.j (old + x nest.i nest.k * y nest.k nest.j),
        ⟨nest.bounds, nest.i, nest.j, nest.k + 1⟩, none) := by
  simp only [computeStep, if_pos accumulates]

/-- A test of a loop fails. -/
theorem computeStep_test (ends : ¬Accumulates nest) (fetched : Option Word) :
    computeStep x y z nest fetched =
      (nest.step x y z).map fun next => (next.1, next.2, fetched) := by
  simp only [computeStep, if_neg ends]

/-- An accumulation is a step of the loop nest. -/
theorem step_of_accumulates (accumulates : Accumulates nest) :
    nest.step x y z =
      some (addTo z nest.i nest.j (x nest.i nest.k * y nest.k nest.j),
        ⟨nest.bounds, nest.i, nest.j, nest.k + 1⟩) := by
  rcases accumulates with ⟨row, col, inner⟩
  simp only [Nest.step, if_pos row, if_pos col, if_pos inner]

/-- Nothing is left to compute behind the last row. -/
theorem computeStep_eq_none_iff {fetched : Option Word} :
    computeStep x y z nest fetched = none ↔ ¬nest.i < nest.bounds.rowTo := by
  by_cases accumulates : Accumulates nest
  · constructor
    · intro none
      cases fetched with
      | none =>
          rw [computeStep_fetch accumulates] at none
          cases none
      | some old =>
          rw [computeStep_store accumulates] at none
          cases none
    · exact fun done => absurd accumulates.1 done
  · rw [computeStep_test accumulates, Option.map_eq_none_iff, Nest.step_eq_none_iff]

end Compute

/-- What a thread can do, and when. -/
theorem workerStep_cases {t : Fin 2} {shared : Shared} {worker : Worker} {next : Shared × Worker}
    (moved : workerStep number answer x y t shared worker = some next) :
    shared.exited = false ∧ shared.created t = true ∧ worker.returned = false ∧
      ((∃ z nest fetched, computeStep x y shared.z worker.nest worker.fetched =
            some (z, nest, fetched) ∧
          next = ({ shared with z := z }, { worker with nest := nest, fetched := fetched })) ∨
        (computeStep x y shared.z worker.nest worker.fetched = none ∧
          ((number = .one ∧ next = ({ shared with exited := true }, worker)) ∨
            (number ≠ .one ∧ next = (shared, { worker with returned := true })) ∨
            ∃ log, logStep answer t shared.log worker.log = some log ∧
              next = ({ shared with log := log.1 }, { worker with log := log.2 })))) := by
  by_cases blocked : shared.exited = true ∨ shared.created t = false ∨ worker.returned = true
  · rw [workerStep, if_pos blocked] at moved
    cases moved
  · rw [workerStep, if_neg blocked] at moved
    simp only [not_or, Bool.not_eq_true, Bool.not_eq_false] at blocked
    refine ⟨blocked.1, blocked.2.1, blocked.2.2, ?_⟩
    cases computes : computeStep x y shared.z worker.nest worker.fetched with
    | some result =>
        rcases result with ⟨z, nest, fetched⟩
        simp only [computes, Option.some.injEq] at moved
        exact .inl ⟨z, nest, fetched, rfl, moved.symm⟩
    | none =>
        refine .inr ⟨rfl, ?_⟩
        simp only [computes] at moved
        by_cases done : worker.log.pc = .done
        · by_cases single : number = .one
          · simp only [if_pos done, if_pos single, Option.some.injEq] at moved
            exact .inl ⟨single, moved.symm⟩
          · simp only [if_pos done, if_neg single, Option.some.injEq] at moved
            exact .inr (.inl ⟨single, moved.symm⟩)
        · simp only [if_neg done, Option.map_eq_some_iff] at moved
          rcases moved with ⟨log, logged, same⟩
          exact .inr (.inr ⟨log, logged, same.symm⟩)

/-! ## One thread -/

/-- Before `thread1` exits, `main` has written the header and waits. -/
structure OneInv (dims : Dims) (config : Config (Fin 2) Shared Worker) : Prop where
  running : ∀ t, (config.thread t).returned = false
  main :
    (config.shared.main = .header ∧ config.shared.file = [] ∧
        (∀ t, config.shared.created t = false) ∧ config.shared.exited = false) ∨
      (config.shared.main = .create 0 ∧ config.shared.file = header dims ∧
        (∀ t, config.shared.created t = false) ∧ config.shared.exited = false) ∨
      (config.shared.main = .join 0 ∧ config.shared.file = header dims)

/-- A step of a thread leaves `main` where it is, and none returns. -/
theorem OneInv.thread_step {config : Config (Fin 2) Shared Worker} {t : Fin 2}
    {next : Shared × Worker} (inv : OneInv dims config)
    (moved : workerStep .one answer x y t config.shared (config.thread t) = some next) :
    OneInv dims (config.after t next) := by
  rcases workerStep_cases moved with ⟨_, created, running, kind⟩
  have waiting : config.shared.main = .join 0 ∧ config.shared.file = header dims := by
    rcases inv.main with ⟨_, _, none, _⟩ | ⟨_, _, none, _⟩ | waiting
    · rw [none t] at created
      cases created
    · rw [none t] at created
      cases created
    · exact waiting
  have stays {shared' : Shared} {worker' : Worker} (main : shared'.main = config.shared.main)
      (file : shared'.file = config.shared.file) (returned : worker'.returned = false) :
      OneInv dims (config.after t (shared', worker')) := by
    constructor
    · exact Config.forall_after (P := fun _ (w : Worker) => w.returned = false) returned
        fun u _ => inv.running u
    · exact .inr (.inr ⟨main.trans waiting.1, file.trans waiting.2⟩)
  rcases kind with ⟨z, nest, fetched, _, rfl⟩ | ⟨_, ⟨_, rfl⟩ | ⟨two, _⟩ | ⟨log, _, rfl⟩⟩
  · exact stays rfl rfl running
  · exact stays rfl rfl running
  · exact absurd rfl two
  · exact stays rfl rfl running

/-- `main` writes the header, creates the thread and waits. -/
theorem OneInv.main_step {config : Config (Fin 2) Shared Worker} {shared' : Shared}
    (inv : OneInv dims config)
    (moved : mainStep .one dims config.shared (fun t => (config.thread t).returned) =
      some shared') :
    OneInv dims ⟨shared', config.thread⟩ := by
  refine ⟨inv.running, ?_⟩
  rcases inv.main with ⟨atHeader, empty, none, alive⟩ | ⟨atCreate, file, none, alive⟩ | ⟨atJoin, _⟩
  · simp only [mainStep, alive, Bool.false_eq_true, if_false, atHeader, Option.some.injEq] at moved
    rw [← moved]
    refine .inr (.inl ⟨rfl, ?_, none, rfl⟩)
    rw [empty, List.nil_append]
  · simp only [mainStep, alive, Bool.false_eq_true, if_false, atCreate, Option.some.injEq] at moved
    rw [← moved]
    exact .inr (.inr ⟨rfl, file⟩)
  · have running := inv.running 0
    simp [mainStep, atJoin, running] at moved

theorem oneInv_of_reachable {config : Config (Fin 2) Shared Worker}
    (reachable : Reachable (build .one dims input) config) : OneInv dims config := by
  apply reachable.invariant
  · rintro _ rfl
    exact ⟨fun _ => rfl, .inl ⟨rfl, rfl, fun _ => rfl, rfl⟩⟩
  · rintro config agent next inv moved
    cases agent with
    | main =>
        rcases moved with ⟨shared, stepped, rfl⟩
        exact inv.main_step stepped
    | thread t =>
        rcases moved with ⟨after, stepped, rfl⟩
        exact inv.thread_step stepped

/-- With one thread the file holds the header only. -/
theorem one_thread_file {config : Config (Fin 2) Shared Worker}
    (reachable : Reachable (build .one dims input) config)
    (exited : config.shared.exited = true) : config.shared.file = header dims := by
  rcases (oneInv_of_reachable reachable).main with ⟨_, _, _, alive⟩ | ⟨_, _, _, alive⟩ | ⟨_, file⟩
  · rw [alive] at exited
    cases exited
  · rw [alive] at exited
    cases exited
  · exact file

/-! ## A run of the one thread -/

/-- `thread1` can move. -/
structure Runs (config : Config (Fin 2) Shared Worker) : Prop where
  alive : config.shared.exited = false
  created : config.shared.created 0 = true
  running : (config.thread 0).returned = false

/-- `thread1` takes a step of its loops. -/
def afterCompute (config : Config (Fin 2) Shared Worker) (z : Mat Word) (nest : Nest)
    (fetched : Option Word) : Config (Fin 2) Shared Worker :=
  config.after 0 ({ config.shared with z := z },
    { config.thread 0 with nest := nest, fetched := fetched })

theorem afterCompute_twice (config : Config (Fin 2) Shared Worker) (z z' : Mat Word)
    (nest nest' : Nest) (fetched fetched' : Option Word) :
    afterCompute (afterCompute config z nest fetched) z' nest' fetched' =
      afterCompute config z' nest' fetched' := by
  simp only [afterCompute, Config.after, Function.update_self, Function.update_idem]

/-- `thread1` takes a step of its logging part. -/
def afterLog (config : Config (Fin 2) Shared Worker) (log : LogShared × LogThread) :
    Config (Fin 2) Shared Worker :=
  config.after 0 ({ config.shared with log := log.1 }, { config.thread 0 with log := log.2 })

namespace Runs

variable {config : Config (Fin 2) Shared Worker}

theorem not_blocked (runs : Runs config) :
    ¬(config.shared.exited = true ∨ config.shared.created 0 = false ∨
      (config.thread 0).returned = true) := by
  simp [runs.alive, runs.created, runs.running]

theorem of_compute (runs : Runs config) (z : Mat Word) (nest : Nest) (fetched : Option Word) :
    Runs (afterCompute config z nest fetched) where
  alive := runs.alive
  created := runs.created
  running := by
    rw [afterCompute, Config.after_self]
    exact runs.running

theorem of_log (runs : Runs config) (log : LogShared × LogThread) :
    Runs (afterLog config log) where
  alive := runs.alive
  created := runs.created
  running := by
    rw [afterLog, Config.after_self]
    exact runs.running

theorem compute_step (number : ThreadNumber) (dims : Dims) (input : Input)
    (runs : Runs config) {z : Mat Word} {nest : Nest} {fetched : Option Word}
    (computes : computeStep input.x input.y config.shared.z (config.thread 0).nest
      (config.thread 0).fetched = some (z, nest, fetched)) :
    (build number dims input).step config (.thread 0)
      (afterCompute config z nest fetched) := by
  refine ⟨_, ?_, rfl⟩
  rw [workerStep, if_neg runs.not_blocked, computes]

theorem log_step (number : ThreadNumber) (dims : Dims) (input : Input)
    (runs : Runs config) {log : LogShared × LogThread}
    (computed : computeStep input.x input.y config.shared.z (config.thread 0).nest
      (config.thread 0).fetched = none)
    (notDone : (config.thread 0).log.pc ≠ .done)
    (logs : logStep input.answer 0 config.shared.log (config.thread 0).log = some log) :
    (build number dims input).step config (.thread 0) (afterLog config log) := by
  refine ⟨_, ?_, rfl⟩
  rw [workerStep, if_neg runs.not_blocked, computed]
  simp only [if_neg notDone, logs, Option.map_some]

/-- A round of the loops that is not the last one. -/
theorem round (runs : Runs config) (reachable : Reachable (build number dims input) config)
    (between : (config.thread 0).fetched = none)
    (row : (config.thread 0).nest.i < (config.thread 0).nest.bounds.rowTo) :
    ∃ z nest, (config.thread 0).nest.step input.x input.y config.shared.z = some (z, nest) ∧
      ∃ z' config', Reachable (build number dims input) config' ∧ Runs config' ∧
        config' = afterCompute config z' nest none := by
  by_cases accumulates : Accumulates (config.thread 0).nest
  · have fetches : computeStep input.x input.y config.shared.z (config.thread 0).nest
        (config.thread 0).fetched = some (config.shared.z, (config.thread 0).nest,
          some (config.shared.z (config.thread 0).nest.i (config.thread 0).nest.j)) := by
      rw [between]
      exact computeStep_fetch accumulates
    have reading := runs.of_compute config.shared.z (config.thread 0).nest
      (some (config.shared.z (config.thread 0).nest.i (config.thread 0).nest.j))
    have reached := reachable.snoc (runs.compute_step number dims input fetches)
    have writes := reading.compute_step number dims input (by
      rw [afterCompute, Config.after_self]
      exact computeStep_store accumulates _)
    rw [afterCompute_twice] at writes
    exact ⟨_, _, step_of_accumulates accumulates, _, _, reached.snoc writes,
      runs.of_compute _ _ _, rfl⟩
  · cases stepped : (config.thread 0).nest.step input.x input.y config.shared.z with
    | none => exact absurd row (Nest.step_eq_none_iff.mp stepped)
    | some next =>
        rcases next with ⟨z, nest⟩
        have computes : computeStep input.x input.y config.shared.z (config.thread 0).nest
            (config.thread 0).fetched = some (z, nest, none) := by
          rw [computeStep_test accumulates, stepped, Option.map_some, between]
        exact ⟨z, nest, rfl, z, _, reachable.snoc (runs.compute_step number dims input computes),
          runs.of_compute z nest none, rfl⟩

/-- The loops end. -/
theorem computes (config : Config (Fin 2) Shared Worker) (runs : Runs config)
    (reachable : Reachable (build number dims input) config)
    (between : (config.thread 0).fetched = none) :
    ∃ config', Reachable (build number dims input) config' ∧ Runs config' ∧
      (config'.thread 0).log = (config.thread 0).log ∧
      ¬(config'.thread 0).nest.i < (config'.thread 0).nest.bounds.rowTo := by
  by_cases row : (config.thread 0).nest.i < (config.thread 0).nest.bounds.rowTo
  · rcases runs.round reachable between row with
      ⟨z, nest, stepped, z', next, reached, runs', isNext⟩
    have here : next.thread 0 = { config.thread 0 with nest := nest, fetched := none } := by
      rw [isNext, afterCompute, Config.after_self]
    have shorter : Prod.Lex (· < ·) (Prod.Lex (· < ·) (· < ·)) (next.thread 0).nest.remaining
        (config.thread 0).nest.remaining := by
      rw [here]
      exact Nest.step_remaining stepped
    rcases computes next runs' reached (by rw [here]) with ⟨last, reachedLast, runsLast, log, done⟩
    refine ⟨last, reachedLast, runsLast, ?_, done⟩
    rw [log, here]
  · exact ⟨config, reachable, runs, rfl, row⟩
termination_by (config.thread 0).nest.remaining
decreasing_by exact shorter

end Runs

/-! ## The logging part of one thread -/

/-- The lock is free when the thread comes to it. -/
def Ready (shared : LogShared) (thread : LogThread) : Prop :=
  match thread.pc with
  | .testFlag => thread.lockInitialized = false
  | .spinInit => thread.lockInitialized = false
  | .setFlag => shared.held = false
  | .testLock => thread.lockInitialized = true → shared.held = false
  | .spinLock => shared.held = false
  | _ => True

/-- The number of steps to the end. -/
def LogPc.rank : LogPc → Nat
  | .testFlag => 8
  | .spinInit => 7
  | .setFlag => 6
  | .testLock => 5
  | .spinLock => 4
  | .write => 3
  | .read => 2
  | .unlock => 1
  | .done => 0

/-- A thread that is ready is not blocked. -/
theorem logStep_ne_none {t : Fin 2} {shared : LogShared} {thread : LogThread}
    (ready : Ready shared thread) (notDone : thread.pc ≠ .done) :
    logStep answer t shared thread ≠ none := by
  cases atPc : thread.pc with
  | spinLock =>
      simp only [Ready, atPc] at ready
      simp only [logStep, atPc, ready]
      split <;> simp
  | done => exact absurd atPc notDone
  | _ =>
      simp only [logStep, atPc]
      first | (split <;> simp) | simp

/-- It stays ready, and comes nearer to its end. -/
theorem logStep_ready {t : Fin 2} {shared : LogShared} {thread : LogThread}
    {next : LogShared × LogThread} (ready : Ready shared thread)
    (moved : logStep answer t shared thread = some next) :
    Ready next.1 next.2 ∧ next.2.pc.rank < thread.pc.rank := by
  cases atPc : thread.pc with
  | testFlag =>
      simp only [Ready, atPc] at ready
      simp only [logStep, atPc, ready, Bool.false_eq_true, if_false, Option.some.injEq] at moved
      rw [← moved]
      exact ⟨rfl, by simp [LogPc.rank]⟩
  | spinInit =>
      simp only [Ready, atPc] at ready
      simp only [logStep, atPc, ready] at moved
      split at moved
      · cases moved
        exact ⟨rfl, by simp [LogPc.rank]⟩
      · cases moved
        exact ⟨fun yes => (by cases yes), by simp [LogPc.rank]⟩
  | setFlag =>
      simp only [Ready, atPc] at ready
      simp only [logStep, atPc, Option.some.injEq] at moved
      rw [← moved]
      exact ⟨fun _ => ready, by simp [LogPc.rank]⟩
  | testLock =>
      simp only [Ready, atPc] at ready
      simp only [logStep, atPc, Option.some.injEq] at moved
      rw [← moved]
      cases flag : thread.lockInitialized with
      | true => exact ⟨ready flag, by simp [LogPc.rank]⟩
      | false => exact ⟨trivial, by simp [LogPc.rank]⟩
  | spinLock =>
      simp only [Ready, atPc] at ready
      simp only [logStep, atPc, ready, Bool.false_eq_true, if_false] at moved
      split at moved
      · cases moved
        exact ⟨trivial, by simp [LogPc.rank]⟩
      · cases moved
        exact ⟨trivial, by simp [LogPc.rank]⟩
  | write | read | unlock =>
      simp only [logStep, atPc] at moved
      split at moved
      · cases moved
        exact ⟨trivial, by simp [LogPc.rank]⟩
      · cases moved
        exact ⟨trivial, by simp [LogPc.rank]⟩
  | done =>
      simp only [logStep, atPc] at moved
      cases moved

/-- Behind its loops the one thread comes to `exit(0)`. -/
theorem Runs.logs (config : Config (Fin 2) Shared Worker) (runs : Runs config)
    (reachable : Reachable (build .one dims input) config)
    (done : ¬(config.thread 0).nest.i < (config.thread 0).nest.bounds.rowTo)
    (ready : Ready config.shared.log (config.thread 0).log) :
    ∃ config', Reachable (build .one dims input) config' ∧ config'.shared.exited = true := by
  have computed : computeStep input.x input.y config.shared.z (config.thread 0).nest
      (config.thread 0).fetched = none := computeStep_eq_none_iff.mpr done
  by_cases atDone : (config.thread 0).log.pc = .done
  · have exits : (build .one dims input).step config (.thread 0)
        (config.after 0 ({ config.shared with exited := true }, config.thread 0)) := by
      refine ⟨_, ?_, rfl⟩
      rw [workerStep, if_neg runs.not_blocked, computed]
      simp only [if_pos atDone, if_true]
    exact ⟨_, reachable.snoc exits, rfl⟩
  · cases moved : logStep input.answer 0 config.shared.log (config.thread 0).log with
    | none => exact absurd moved (logStep_ne_none ready atDone)
    | some next =>
        have stepped := logStep_ready ready moved
        have here : ((afterLog config next).thread 0).log = next.2 := by
          rw [afterLog, Config.after_self]
        have sameNest : ((afterLog config next).thread 0).nest = (config.thread 0).nest := by
          rw [afterLog, Config.after_self]
        have shorter : ((afterLog config next).thread 0).log.pc.rank <
            (config.thread 0).log.pc.rank := by
          rw [here]
          exact stepped.2
        apply Runs.logs (afterLog config next) (runs.of_log next)
          (reachable.snoc (runs.log_step .one dims input computed atDone moved))
        · rw [sameNest]
          exact done
        · rw [here]
          exact stepped.1
termination_by (config.thread 0).log.pc.rank
decreasing_by exact shorter

theorem reachable_main {config : Config (Fin 2) Shared Worker} {shared : Shared}
    (reachable : Reachable (build number dims input) config)
    (moved : mainStep number dims config.shared (fun t => (config.thread t).returned) =
      some shared) :
    Reachable (build number dims input) ⟨shared, config.thread⟩ := by
  have step : (build number dims input).step config .main ⟨shared, config.thread⟩ :=
    ⟨shared, moved, rfl⟩
  exact reachable.snoc step

/-- The build with one thread has a run that comes to its end. -/
theorem one_thread_ends (dims : Dims) (input : Input) :
    ∃ config, Reachable (build .one dims input) config ∧ config.shared.exited = true := by
  have started : Reachable (build .one dims input) (startOf .one dims input) := .start rfl
  have created := reachable_main (reachable_main started rfl) rfl
  rcases Runs.computes _ ⟨rfl, rfl, rfl⟩ created rfl with ⟨config, reached, runs, log, done⟩
  apply runs.logs config reached done
  rw [log]
  rfl

end NckuOs.ProcLog
