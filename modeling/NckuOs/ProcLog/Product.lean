import Mathlib.Algebra.BigOperators.Fin
import NckuOs.ProcLog.Builds

/-!
# The product that two threads write

The threads own disjoint rows, so that no other thread writes between the reading and
the writing of a cell.  `main` prints after both have returned.
-/

namespace NckuOs.ProcLog

open NckuOs.ByteMemory
open NckuOs.Decimal
open NckuOs.LoopNest
open NckuOs.Threads
open NckuOs.Transition

variable {dims : Dims} {input : Input} {answer : Fin 2 → Answer} {x y : Mat Word}

/-! ## One accumulation in two steps -/

/-- The cell that a thread has read still has its value. -/
def Fresh (z : Mat Word) (nest : Nest) (fetched : Option Word) : Prop :=
  ∀ value, fetched = some value → Accumulates nest ∧ z nest.i nest.j = value

section Compute

variable {z z' : Mat Word} {nest nest' : Nest} {fetched fetched' : Option Word}

theorem covers_of_accumulates (wf : nest.Wf) (accumulates : Accumulates nest) :
    nest.bounds.Covers nest.i nest.j :=
  ⟨wf.row, accumulates.1, accumulates.2.1⟩

/-- A fresh value makes the two steps one addition. -/
theorem setCell_eq_addTo (i j : Nat) (term : Word) :
    setCell z i j (z i j + term) = addTo z i j term := by
  funext i' j'
  by_cases here : i' = i ∧ j' = j
  · rcases here with ⟨rfl, rfl⟩
    rw [setCell, if_pos ⟨rfl, rfl⟩, addTo, if_pos ⟨rfl, rfl⟩]
  · rw [setCell, addTo, if_neg here, if_neg here]

/-- What a step of the loops does, as long as nobody else writes to the cells of the
thread. -/
structure Effect (x y z : Mat Word) (nest : Nest) (z' : Mat Word) (nest' : Nest)
    (fetched' : Option Word) : Prop where
  wf : nest'.Wf
  bounds : nest'.bounds = nest.bounds
  fresh : Fresh z' nest' fetched'
  added : ∀ i j, z' i j + nest.added x y i j = z i j + nest'.added x y i j
  elsewhere : ∀ i j, ¬nest.bounds.Covers i j → z' i j = z i j

theorem computeStep_effect (wf : nest.Wf) (fresh : Fresh z nest fetched)
    (moved : computeStep x y z nest fetched = some (z', nest', fetched')) :
    Effect x y z nest z' nest' fetched' := by
  by_cases accumulates : Accumulates nest
  · cases fetched with
    | none =>
        rw [computeStep_fetch accumulates] at moved
        cases moved
        refine ⟨wf, rfl, ?_, fun _ _ => rfl, fun _ _ _ => rfl⟩
        intro value isValue
        exact ⟨accumulates, Option.some.inj isValue⟩
    | some old =>
        rw [computeStep_store accumulates] at moved
        have same := (fresh old rfl).2
        rw [← same, setCell_eq_addTo] at moved
        cases moved
        have stepped : nest.step x y z = _ := step_of_accumulates accumulates
        have next := Nest.step_wf wf stepped
        refine ⟨next.1, next.2, ?_, Nest.step_added wf stepped, ?_⟩
        · intro value isValue
          cases isValue
        · intro i j outside
          have other : ¬(i = nest.i ∧ j = nest.j) := by
            rintro ⟨rfl, rfl⟩
            exact outside (covers_of_accumulates wf accumulates)
          rw [addTo, if_neg other]
  · rw [computeStep_test accumulates, Option.map_eq_some_iff] at moved
    rcases moved with ⟨⟨z₁, nest₁⟩, stepped, isNext⟩
    rcases Prod.mk.inj isNext with ⟨rfl, others⟩
    rcases Prod.mk.inj others with ⟨rfl, rfl⟩
    have next := Nest.step_wf wf stepped
    have sameCells : z₁ = z := by
      rcases Nest.step_cases stepped with ⟨row, ⟨col, inner, _⟩ | ⟨_, _, same, _⟩ | ⟨_, same, _⟩⟩
      · exact absurd ⟨row, col, inner⟩ accumulates
      · exact same
      · exact same
    refine ⟨next.1, next.2, ?_, Nest.step_added wf stepped, ?_⟩
    · intro value isValue
      exact absurd (fresh value isValue).1 accumulates
    · intro i j _
      rw [sameCells]

end Compute

/-! ## Two threads -/

/-- No cell belongs to both threads. -/
theorem bounds_disjoint {t u : Fin 2} (other : u ≠ t) {i j : Nat}
    (covers : (workerBounds .two dims u).Covers i j) :
    ¬(workerBounds .two dims t).Covers i j := by
  intro both
  match t, u with
  | 0, 0 => exact other rfl
  | 1, 1 => exact other rfl
  | 0, 1 => exact absurd both.2.1 (Nat.not_lt_of_le covers.1)
  | 1, 0 => exact absurd covers.2.1 (Nat.not_lt_of_le both.1)

/-- Both threads together add the product. -/
theorem total_product (x y : Mat Word) {i j : Nat} (row : i < dims.rowX) (col : j < dims.colY) :
    ∑ t, (workerBounds .two dims t).total x y i j = product dims x y i j := by
  rw [Fin.sum_univ_two]
  by_cases upper : i < dims.rowX / 2
  · have first : (workerBounds .two dims 0).Covers i j := ⟨Nat.zero_le i, upper, col⟩
    have second : ¬(workerBounds .two dims 1).Covers i j := bounds_disjoint (by decide) first
    rw [Bounds.total, Bounds.total, if_pos first, if_neg second, add_zero]
    rfl
  · have second : (workerBounds .two dims 1).Covers i j := ⟨Nat.le_of_not_lt upper, row, col⟩
    have first : ¬(workerBounds .two dims 0).Covers i j := bounds_disjoint (by decide) second
    rw [Bounds.total, Bounds.total, if_neg first, if_pos second, zero_add]
    rfl

/-- What the cells hold at the end. -/
def finalCells (dims : Dims) (input : Input) : Mat Word := fun i j =>
  input.z₀ i j + product dims input.x input.y i j

/-- What `main` has written. -/
def Written (dims : Dims) (input : Input) (shared : Shared) (returned : Fin 2 → Prop) : Prop :=
  match shared.main with
  | .header => shared.exited = false ∧ shared.file = []
  | .create _ => shared.exited = false ∧ shared.file = header dims
  | .join t => shared.exited = false ∧ shared.file = header dims ∧ (t = 1 → returned 0)
  | .print i j =>
      shared.exited = false ∧ i ≤ dims.rowX ∧ j ≤ dims.colY ∧ (i = dims.rowX → j = 0) ∧
        (∀ t, returned t) ∧
        shared.file = header dims ++ (rowsText dims.colY (finalCells dims input) i ++
          cellsText dims.colY (finalCells dims input i) j)
  | .close =>
      (∀ t, returned t) ∧
        shared.file = header dims ++ rowsText dims.colY (finalCells dims input) dims.rowX

/-- The loops, the cells and the file. -/
structure TwoInv (dims : Dims) (input : Input) (config : Config (Fin 2) Shared Worker) :
    Prop where
  nest : ∀ t, (config.thread t).nest.Wf ∧
    (config.thread t).nest.bounds = workerBounds .two dims t
  fresh : ∀ t, Fresh config.shared.z (config.thread t).nest (config.thread t).fetched
  cells : ∀ i j, config.shared.z i j =
    input.z₀ i j + ∑ t, (config.thread t).nest.added input.x input.y i j
  ended : ∀ t, (config.thread t).returned = true →
    ¬(config.thread t).nest.i < (config.thread t).nest.bounds.rowTo
  written : Written dims input config.shared fun t => (config.thread t).returned = true

theorem cellsText_succ (cols : Nat) (row : Nat → Word) (j : Nat) :
    cellsText cols row (j + 1) = cellsText cols row j ++ cellText cols (row j) j := by
  simp [cellsText, List.range_succ]

theorem rowsText_succ (cols : Nat) (m : Mat Word) (i : Nat) :
    rowsText cols m (i + 1) = rowsText cols m i ++ cellsText cols (m i) cols := by
  simp [rowsText, List.range_succ]

/-- The file depends on `main` and on who has returned only. -/
theorem Written.mono {shared shared' : Shared} {returned returned' : Fin 2 → Prop}
    (written : Written dims input shared returned) (main : shared'.main = shared.main)
    (file : shared'.file = shared.file) (exited : shared'.exited = shared.exited)
    (more : ∀ t, returned t → returned' t) : Written dims input shared' returned' := by
  unfold Written at written ⊢
  rw [main, file, exited]
  cases at_ : shared.main with
  | header =>
      simp only [at_] at written
      exact written
  | create t =>
      simp only [at_] at written
      exact written
  | join t =>
      simp only [at_] at written
      exact ⟨written.1, written.2.1, fun second => more 0 (written.2.2 second)⟩
  | print i j =>
      simp only [at_] at written
      rcases written with ⟨alive, row, col, last, all, text⟩
      exact ⟨alive, row, col, last, fun t => more t (all t), text⟩
  | close =>
      simp only [at_] at written
      exact ⟨fun t => more t (written.1 t), written.2⟩

namespace TwoInv

variable {config : Config (Fin 2) Shared Worker}

/-- When both threads have returned the cells hold the product on top of what they held
at first. -/
theorem cells_final (inv : TwoInv dims input config)
    (returned : ∀ t, (config.thread t).returned = true) {i j : Nat} (row : i < dims.rowX)
    (col : j < dims.colY) : config.shared.z i j = finalCells dims input i j := by
  rw [inv.cells, finalCells, ← total_product input.x input.y row col]
  congr 1
  apply Finset.sum_congr rfl
  intro t _
  rw [Nest.added_done (inv.ended t (returned t)), (inv.nest t).2]

theorem written_after (inv : TwoInv dims input config) {t : Fin 2} {shared' : Shared}
    {worker' : Worker} (main : shared'.main = config.shared.main)
    (file : shared'.file = config.shared.file) (exited : shared'.exited = config.shared.exited)
    (returned : (config.thread t).returned = true → worker'.returned = true) :
    Written dims input (config.after t (shared', worker')).shared
      fun u => ((config.after t (shared', worker')).thread u).returned = true :=
  inv.written.mono main file exited (Config.forall_after
    (P := fun u (w : Worker) => (config.thread u).returned = true → w.returned = true)
    returned fun _ _ => id)

/-- A step of the loops. -/
theorem compute_step (inv : TwoInv dims input config) {t : Fin 2} {z : Mat Word} {nest : Nest}
    {fetched : Option Word} (running : (config.thread t).returned = false)
    (moved : computeStep input.x input.y config.shared.z (config.thread t).nest
      (config.thread t).fetched = some (z, nest, fetched)) :
    TwoInv dims input (config.after t ({ config.shared with z := z },
      { config.thread t with nest := nest, fetched := fetched })) := by
  have effect := computeStep_effect (inv.nest t).1 (inv.fresh t) moved
  refine ⟨?_, ?_, ?_, ?_, ?_⟩
  · exact Config.forall_after
      (P := fun u (w : Worker) => w.nest.Wf ∧ w.nest.bounds = workerBounds .two dims u)
      ⟨effect.wf, effect.bounds.trans (inv.nest t).2⟩ fun u _ => inv.nest u
  · apply Config.forall_after (P := fun _ (w : Worker) => Fresh z w.nest w.fetched) effect.fresh
    intro u other value isValue
    rcases inv.fresh u value isValue with ⟨accumulates, same⟩
    have covers := covers_of_accumulates (inv.nest u).1 accumulates
    rw [(inv.nest u).2] at covers
    have outside := bounds_disjoint other covers
    rw [← (inv.nest t).2] at outside
    exact ⟨accumulates, (effect.elsewhere _ _ outside).trans same⟩
  · intro i j
    have changed := effect.added i j
    have exchanged := Config.sum_after (fun w : Worker => w.nest.added input.x input.y i j) config t
      { config.shared with z := z } { config.thread t with nest := nest, fetched := fetched }
    rw [inv.cells, add_assoc] at changed
    apply add_right_cancel (b := (config.thread t).nest.added input.x input.y i j)
    rw [add_assoc, exchanged]
    exact changed
  · apply Config.forall_after
      (P := fun _ (w : Worker) => w.returned = true → ¬w.nest.i < w.nest.bounds.rowTo)
    · intro returned
      rw [running] at returned
      cases returned
    · exact fun u _ => inv.ended u
  · exact inv.written_after rfl rfl rfl id

/-- A step that leaves the loops and the cells alone. -/
theorem other_step (inv : TwoInv dims input config) {t : Fin 2} {shared' : Shared}
    {worker' : Worker} (cells : shared'.z = config.shared.z)
    (nest : worker'.nest = (config.thread t).nest)
    (fetched : worker'.fetched = (config.thread t).fetched)
    (ended : worker'.returned = true →
      ¬(config.thread t).nest.i < (config.thread t).nest.bounds.rowTo)
    (main : shared'.main = config.shared.main) (file : shared'.file = config.shared.file)
    (exited : shared'.exited = config.shared.exited)
    (returned : (config.thread t).returned = true → worker'.returned = true) :
    TwoInv dims input (config.after t (shared', worker')) := by
  have sameNests : ∀ u, ((config.after t (shared', worker')).thread u).nest =
      (config.thread u).nest :=
    Config.forall_after (P := fun u (w : Worker) => w.nest = (config.thread u).nest) nest
      fun _ _ => rfl
  refine ⟨?_, ?_, ?_, ?_, inv.written_after main file exited returned⟩
  · intro u
    rw [sameNests]
    exact inv.nest u
  · rw [Config.after_shared, cells]
    apply Config.forall_after (P := fun _ (w : Worker) => Fresh config.shared.z w.nest w.fetched)
    · rw [nest, fetched]
      exact inv.fresh t
    · exact fun u _ => inv.fresh u
  · intro i j
    rw [Config.after_shared, cells, inv.cells]
    simp only [sameNests]
  · apply Config.forall_after
      (P := fun _ (w : Worker) => w.returned = true → ¬w.nest.i < w.nest.bounds.rowTo)
    · rw [nest]
      exact ended
    · exact fun u _ => inv.ended u

/-- A step of a thread. -/
theorem thread_step (inv : TwoInv dims input config) {t : Fin 2} {next : Shared × Worker}
    (moved : workerStep .two input.answer input.x input.y t config.shared (config.thread t) =
      some next) : TwoInv dims input (config.after t next) := by
  rcases workerStep_cases moved with ⟨_, _, running, kind⟩
  rcases kind with ⟨z, nest, fetched, computed, rfl⟩ | ⟨done, kind⟩
  · exact inv.compute_step running computed
  · rcases kind with ⟨one, _⟩ | ⟨_, rfl⟩ | ⟨log, _, rfl⟩
    · cases one
    · exact inv.other_step rfl rfl rfl (fun _ => computeStep_eq_none_iff.mp done) rfl rfl rfl
        fun _ => rfl
    · exact inv.other_step rfl rfl rfl (fun returned => inv.ended t returned) rfl rfl rfl id

/-- A step of `main` writes what belongs next into the file. -/
theorem main_step (inv : TwoInv dims input config) {shared' : Shared}
    (moved : mainStep .two dims config.shared (fun t => (config.thread t).returned) =
      some shared') : TwoInv dims input ⟨shared', config.thread⟩ := by
  have alive : config.shared.exited = false := by
    cases exited : config.shared.exited with
    | false => rfl
    | true => simp [mainStep, exited] at moved
  have notExited : ¬config.shared.exited = true := by simp [alive]
  have written := inv.written
  rw [mainStep, if_neg notExited] at moved
  unfold Written at written
  cases at_ : config.shared.main with
  | header =>
      simp only [at_, Option.some.injEq] at moved written
      rw [← moved]
      refine ⟨inv.nest, inv.fresh, inv.cells, inv.ended, alive, ?_⟩
      rw [written.2, List.nil_append]
  | create t =>
      simp only [at_, Option.some.injEq] at moved written
      by_cases first : t = 0
      · simp only [first, and_self, if_true] at moved
        rw [← moved]
        exact ⟨inv.nest, inv.fresh, inv.cells, inv.ended, written⟩
      · simp only [first, and_false, if_false] at moved
        rw [← moved]
        exact ⟨inv.nest, inv.fresh, inv.cells, inv.ended, alive, written.2,
          fun second => absurd second (by decide)⟩
  | join t =>
      simp only [at_] at moved written
      by_cases returned : (config.thread t).returned = true
      · rw [if_pos returned] at moved
        by_cases first : t = 0
        · rw [if_pos first, Option.some.injEq] at moved
          rw [first] at returned
          rw [← moved]
          exact ⟨inv.nest, inv.fresh, inv.cells, inv.ended, alive, written.2.1, fun _ => returned⟩
        · rw [if_neg first, Option.some.injEq] at moved
          have second : t = 1 := by omega
          rw [second] at returned
          rw [← moved]
          refine ⟨inv.nest, inv.fresh, inv.cells, inv.ended, alive, Nat.zero_le _, Nat.zero_le _,
            fun _ => rfl, ?_, ?_⟩
          · exact Fin.forall_fin_two.mpr ⟨written.2.2 second, returned⟩
          · rw [written.2.1]
            exact (List.append_nil _).symm
      · rw [if_neg returned] at moved
        cases moved
  | print i j =>
      simp only [at_] at moved written
      rcases written with ⟨_, rowLe, colLe, last, returned, text⟩
      by_cases row : i < dims.rowX
      · rw [if_pos row] at moved
        have notLast : i = dims.rowX → j + 1 = 0 := fun isLast => absurd isLast (Nat.ne_of_lt row)
        by_cases col : j < dims.colY
        · rw [if_pos col, Option.some.injEq] at moved
          rw [← moved]
          refine ⟨inv.nest, inv.fresh, inv.cells, inv.ended, alive, rowLe, col, notLast,
            returned, ?_⟩
          rw [text, cellsText_succ, inv.cells_final returned row col]
          simp only [List.append_assoc]
        · rw [if_neg col, Option.some.injEq] at moved
          have isEnd : j = dims.colY := Nat.le_antisymm colLe (Nat.le_of_not_lt col)
          rw [← moved]
          refine ⟨inv.nest, inv.fresh, inv.cells, inv.ended, alive, row, Nat.zero_le _,
            fun _ => rfl, returned, ?_⟩
          rw [text, rowsText_succ, isEnd]
          exact congrArg _ (List.append_nil _).symm
      · rw [if_neg row, Option.some.injEq] at moved
        have isEnd : i = dims.rowX := Nat.le_antisymm rowLe (Nat.le_of_not_lt row)
        rw [← moved]
        refine ⟨inv.nest, inv.fresh, inv.cells, inv.ended, returned, ?_⟩
        rw [text, last isEnd, isEnd]
        exact congrArg _ (List.append_nil _)
  | close =>
      simp only [at_, Option.some.injEq] at moved written
      rw [← moved]
      exact ⟨inv.nest, inv.fresh, inv.cells, inv.ended, written⟩

end TwoInv

theorem twoInv_of_reachable {config : Config (Fin 2) Shared Worker}
    (reachable : Reachable (build .two dims input) config) : TwoInv dims input config := by
  apply reachable.invariant
  · rintro _ rfl
    refine ⟨fun _ => ⟨Nest.wf_start _, rfl⟩, ?_, ?_, ?_, rfl, rfl⟩
    · intro t value isValue
      cases isValue
    · intro i j
      simp only [startOf, Worker.start, Nest.added_start, Finset.sum_const_zero, add_zero]
    · intro t returned
      cases returned
  · rintro config agent next inv moved
    cases agent with
    | main =>
        rcases moved with ⟨shared, stepped, rfl⟩
        exact inv.main_step stepped
    | thread t =>
        rcases moved with ⟨after, stepped, rfl⟩
        exact inv.thread_step stepped

/-- With two threads the file holds the header and the product on top of what `malloc`
left in `z`, whatever the interleaving. -/
theorem two_threads_file {config : Config (Fin 2) Shared Worker}
    (reachable : Reachable (build .two dims input) config)
    (exited : config.shared.exited = true) :
    config.shared.file =
      header dims ++ rowsText dims.colY (finalCells dims input) dims.rowX := by
  have written := (twoInv_of_reachable reachable).written
  unfold Written at written
  split at written
  · rw [written.1] at exited
    cases exited
  · rw [written.1] at exited
    cases exited
  · rw [written.1] at exited
    cases exited
  · rw [written.1] at exited
    cases exited
  · exact written.2

/-! ## The builds compared -/

/-- A matrix with at least one cell is printed as some text. -/
theorem rowsText_ne_nil (m : Mat Word) (rows : 0 < dims.rowX) (cols : 0 < dims.colY) :
    rowsText dims.colY m dims.rowX ≠ [] := by
  rcases Nat.exists_eq_succ_of_ne_zero (Nat.pos_iff_ne_zero.mp rows) with ⟨i, isRow⟩
  rcases Nat.exists_eq_succ_of_ne_zero (Nat.pos_iff_ne_zero.mp cols) with ⟨j, isCol⟩
  rw [isRow, isCol, rowsText_succ, cellsText_succ]
  intro none
  have blank := (List.append_eq_nil_iff.mp (List.append_eq_nil_iff.mp none).2).2
  simp [cellText, ascii] at blank

/-- With one thread the rows are missing. -/
theorem one_thread_incomplete (rows : 0 < dims.rowX) (cols : 0 < dims.colY) (input : Input) :
    ∃ config, Reachable (build .one dims input) config ∧ config.shared.exited = true ∧
      config.shared.file ≠
        header dims ++ rowsText dims.colY (product dims input.x input.y) dims.rowX := by
  rcases one_thread_ends dims input with ⟨config, reachable, exited⟩
  refine ⟨config, reachable, exited, ?_⟩
  rw [one_thread_file reachable exited]
  intro same
  exact rowsText_ne_nil _ rows cols (List.append_right_eq_self.mp same.symm)

/-- Whatever the matrices are, what `malloc` returns and what the library answers, the two
builds do not both write the header and the product. -/
theorem builds_disagree (input : Input) :
    ¬∀ number, WritesProduct number sourceDims input := by
  intro agree
  have rows : 0 < sourceDims.rowX := by decide
  have cols : 0 < sourceDims.colY := by decide
  rcases one_thread_incomplete rows cols input with ⟨config, reachable, exited, differs⟩
  exact differs (agree .one config reachable exited)

/-- Two matrices of zeros, and memory of zeros. -/
def zeros : Input where
  x := fun _ _ => 0
  y := fun _ _ => 0
  z₀ := fun _ _ => 0
  answer := fun t => ⟨0, 0, true, true, 1024, ⟨7, if t = 0 then 8 else 9, 0⟩⟩
  lock := ⟨false, fun _ => 0⟩

/-- The build with one thread writes the header and ends. -/
theorem one_thread_writes_header_only :
    ∃ config, Reachable (build .one sourceDims zeros) config ∧ config.shared.exited = true ∧
      config.shared.file = header sourceDims ∧
      config.shared.file ≠ header sourceDims ++
        rowsText sourceDims.colY (product sourceDims zeros.x zeros.y) sourceDims.rowX := by
  have rows : 0 < sourceDims.rowX := by decide
  have cols : 0 < sourceDims.colY := by decide
  rcases one_thread_incomplete rows cols zeros with ⟨config, reachable, exited, differs⟩
  exact ⟨config, reachable, exited, one_thread_file reachable exited, differs⟩

end NckuOs.ProcLog
