import Mathlib.Data.BitVec
import NckuOs.Lib.LoopNest
import NckuOs.ProcLog.Logging

/-!
# `3_2.c`: the whole program

`main` writes the header, starts one thread or two, waits for them and writes the
matrix.  A thread accumulates its rows of the product without a lock, so that reading
and writing a cell are two steps, and then runs its logging part.
-/

namespace NckuOs.ProcLog

open NckuOs.ByteMemory
open NckuOs.Decimal
open NckuOs.LoopNest
open NckuOs.Threads
open NckuOs.Transition

/-- An `int`. -/
abbrev Word := BitVec 32

/-- `THREAD_NUMBER`. -/
inductive ThreadNumber
  | one
  | two
  deriving DecidableEq, Repr

/-- `matrix_row_x`, `matrix_row_y` and `matrix_col_y`. -/
structure Dims where
  rowX : Nat
  rowY : Nat
  colY : Nat

/-- The constants of the source. -/
def sourceDims : Dims :=
  ⟨1234, 250, 1234⟩

/-- The loops of the threads.  With one thread `thread2` does not exist. -/
def workerBounds (number : ThreadNumber) (dims : Dims) (t : Fin 2) : Bounds :=
  match number with
  | .one => if t = 0 then ⟨0, dims.rowX, dims.colY, 0, dims.rowY⟩ else ⟨0, 0, 0, 0, 0⟩
  | .two =>
      if t = 0 then ⟨0, dims.rowX / 2, dims.colY, 0, dims.rowY⟩
      else ⟨dims.rowX / 2, dims.rowX, dims.colY, 0, dims.rowY⟩

/-- Where `main` is; its last loops are before the test of the inner one. -/
inductive MainPc
  | header
  | create (t : Fin 2)
  | join (t : Fin 2)
  | print (i j : Nat)
  | close
  deriving DecidableEq, Repr

/-- `z`, what the logging parts share, which threads have been created, `main`, what has
been written to `3_2.txt`, and whether the process has ended. -/
structure Shared where
  z : Mat Word
  log : LogShared
  created : Fin 2 → Bool
  main : MainPc
  file : List UInt8
  exited : Bool

/-- A thread: its loops, the cell that it has read but not yet written, its logging part,
and whether its function has returned. -/
structure Worker where
  nest : Nest
  fetched : Option Word
  log : LogThread
  returned : Bool

/-! ## The threads -/

/-- Write one cell. -/
def setCell (z : Mat Word) (i j : Nat) (value : Word) : Mat Word := fun i' j' =>
  if i' = i ∧ j' = j then value else z i' j'

/-- The next test of the loops goes on to an accumulation. -/
def Accumulates (n : Nest) : Prop :=
  n.i < n.bounds.rowTo ∧ n.j < n.bounds.cols ∧ n.k < n.bounds.kTo

instance (n : Nest) : Decidable (Accumulates n) :=
  inferInstanceAs (Decidable (_ ∧ _))

/-- A step of the loops. -/
def computeStep (x y z : Mat Word) (nest : Nest) (fetched : Option Word) :
    Option (Mat Word × Nest × Option Word) :=
  if Accumulates nest then
    match fetched with
    | none => some (z, nest, some (z nest.i nest.j))
    | some old =>
        some (setCell z nest.i nest.j (old + x nest.i nest.k * y nest.k nest.j),
          ⟨nest.bounds, nest.i, nest.j, nest.k + 1⟩, none)
  else (nest.step x y z).map fun next => (next.1, next.2, fetched)

/-- A step of `thread1` or `thread2`.  With one thread the end of `thread1` is
`exit(0)`. -/
def workerStep (number : ThreadNumber) (answer : Fin 2 → Answer) (x y : Mat Word) (t : Fin 2)
    (shared : Shared) (worker : Worker) : Option (Shared × Worker) :=
  if shared.exited = true ∨ shared.created t = false ∨ worker.returned = true then none
  else
    match computeStep x y shared.z worker.nest worker.fetched with
    | some (z, nest, fetched) =>
        some ({ shared with z := z }, { worker with nest := nest, fetched := fetched })
    | none =>
        if worker.log.pc = .done then
          if number = .one then some ({ shared with exited := true }, worker)
          else some (shared, { worker with returned := true })
        else
          (logStep answer t shared.log worker.log).map fun next =>
            ({ shared with log := next.1 }, { worker with log := next.2 })

/-! ## `main` -/

/-- `fprintf(fptr3, "%d %d\n", matrix_row_x, matrix_col_y)`. -/
def header (dims : Dims) : List UInt8 :=
  natDigits dims.rowX ++ ascii [' '] ++ natDigits dims.colY ++ ascii ['\n']

/-- What the inner loop prints for one cell. -/
def cellText (cols : Nat) (value : Word) (j : Nat) : List UInt8 :=
  intDigits value.toInt ++ ascii [' '] ++ if j = cols - 1 then ascii ['\n'] else []

/-- A step of `main`.  `pthread_join` of a thread that was never created is undefined;
there is no step. -/
def mainStep (number : ThreadNumber) (dims : Dims) (shared : Shared)
    (returned : Fin 2 → Bool) : Option Shared :=
  if shared.exited = true then none
  else
    match shared.main with
    | .header => some { shared with main := .create 0, file := shared.file ++ header dims }
    | .create t =>
        some { shared with
          created := Function.update shared.created t true
          main := if number = .two ∧ t = 0 then .create 1 else .join 0 }
    | .join t =>
        if returned t = true then
          if t = 0 then some { shared with main := .join 1 }
          else some { shared with main := .print 0 0 }
        else none
    | .print i j =>
        if i < dims.rowX then
          if j < dims.colY then
            some { shared with
              main := .print i (j + 1)
              file := shared.file ++ cellText dims.colY (shared.z i j) j }
          else some { shared with main := .print (i + 1) 0 }
        else some { shared with main := .close }
    | .close => some { shared with exited := true }

/-! ## Runs -/

/-- Who moves. -/
inductive Agent
  | main
  | thread (t : Fin 2)
  deriving DecidableEq, Repr

/-- The inputs of a run: the matrices, what `malloc` left in `z`, and what the library
and the kernel answer. -/
structure Input where
  x : Mat Word
  y : Mat Word
  z₀ : Mat Word
  answer : Fin 2 → Answer
  lock : LogShared

/-- A thread before its creation. -/
def Worker.start (bounds : Bounds) : Worker :=
  ⟨bounds.start, none, .start, false⟩

/-- The process at the beginning of `main`, behind the reading of the input files. -/
def startOf (number : ThreadNumber) (dims : Dims) (input : Input) :
    Config (Fin 2) Shared Worker where
  shared := ⟨input.z₀, input.lock, fun _ => false, .header, [], false⟩
  thread t := .start (workerBounds number dims t)

/-- Every interleaving of `main` and the threads. -/
def build (number : ThreadNumber) (dims : Dims) (input : Input) :
    System (Config (Fin 2) Shared Worker) Agent where
  init config := config = startOf number dims input
  step config agent config' :=
    match agent with
    | .main => ∃ shared, mainStep number dims config.shared (fun t => (config.thread t).returned) =
        some shared ∧ config' = ⟨shared, config.thread⟩
    | .thread t => ∃ next, workerStep number input.answer input.x input.y t config.shared
        (config.thread t) = some next ∧ config' = config.after t next

/-! ## What the file should contain -/

/-- The matrix product. -/
def product (dims : Dims) (x y : Mat Word) : Mat Word := fun i j =>
  ∑ k ∈ Finset.Ico 0 dims.rowY, x i k * y k j

/-- The first `j` cells of a row. -/
def cellsText (cols : Nat) (row : Nat → Word) (j : Nat) : List UInt8 :=
  (List.range j).flatMap fun j => cellText cols (row j) j

/-- The first `i` rows of a matrix. -/
def rowsText (cols : Nat) (m : Mat Word) (i : Nat) : List UInt8 :=
  (List.range i).flatMap fun i => cellsText cols (m i) cols

/-- The program writes the header and the product, in every run that comes to its
end. -/
def WritesProduct (number : ThreadNumber) (dims : Dims) (input : Input) : Prop :=
  ∀ config, Reachable (build number dims input) config → config.shared.exited = true →
    config.shared.file = header dims ++ rowsText dims.colY (product dims input.x input.y) dims.rowX

end NckuOs.ProcLog
