import NckuOs.Shell.Flow

/-!
# What a pipeline is for

Every stage runs its program on what its standard input holds, and what the program writes
goes where its standard output leads, one stage after the other.
-/

namespace NckuOs.Shell

open NckuOs.Descriptors
open NckuOs.Streams
open NckuOs.Transition

/-- Where stage `p` reads from, when the shell's standard input is the inherited `i`. -/
def CmdNode.source (node : CmdNode) (i : Nat) : Nat → Desc
  | 0 => (node.inFile.map Desc.opened).getD (.inherited i)
  | p + 1 => (node.inFile.map Desc.opened).getD (.readEnd p)

/-- Where stage `p` of `n` writes to, when the shell's standard output is the inherited `o`. -/
def CmdNode.sink (node : CmdNode) (o n p : Nat) : Desc :=
  (node.outFile.map Desc.opened).getD (if p + 1 < n then .writeEnd p else .inherited o)

namespace Store

/-- Of what a description gives, `left` is not read yet. -/
def leave (store : Store) (left : List UInt8) : Desc → Store
  | .readEnd k => { store with pipes := Function.update store.pipes k left }
  | .inherited n => { store with input := Function.update store.input n left }
  | .opened _ | .writeEnd _ => store

/-- All of `written` has gone to a description; a file was empty before. -/
def put (store : Store) (written : List UInt8) : Desc → Store
  | .writeEnd k => { store with pipes := Function.update store.pipes k (store.pipes k ++ written) }
  | .opened path => { store with files := Function.update store.files path written }
  | .inherited n =>
      { store with output := Function.update store.output n (store.output n ++ written) }
  | .readEnd _ => store

end Store

variable {σ : Type} (nodes : List CmdNode) (programs : Programs σ) (cap i o : Nat)

/-- The bytes fit into the pipe, if they go to a pipe. -/
def Desc.Room (written : List UInt8) : Desc → Prop
  | .writeEnd _ => written.length ≤ cap
  | .readEnd _ | .opened _ | .inherited _ => True

/-- What stage `p` makes of a store. -/
inductive StageRuns (p : Nat) (node : CmdNode) (store : Store) : Store → Prop
  | ran {written left : List UInt8}
      (runs : Runs (programs.act p) (programs.start p)
        ((store.truncate node.outFile).front 0 (node.source i p)) written left)
      (room : (node.sink o nodes.length p).Room cap written) :
      StageRuns p node store
        (((store.truncate node.outFile).leave left (node.source i p)).put written
          (node.sink o nodes.length p))

/-- What the first stages make of a store, one after the other. -/
inductive StagesRun (first : Store) : Nat → Store → Prop
  | none : StagesRun first 0 first
  | next {p : Nat} {node : CmdNode} {store store' : Store} (earlier : StagesRun first p store)
      (at_ : nodes[p]? = some node)
      (stage : StageRuns nodes programs cap i o p node store store') :
      StagesRun first (p + 1) store'

/-- Reading from the one takes nothing from what is written to the other. -/
def Apart : Desc → Desc → Prop
  | .opened path, .opened path' => path ≠ path'
  | .readEnd k, .writeEnd k' => k ≠ k'
  | _, _ => True

namespace Store

variable {store : Store} {source sink : Desc} {written left : List UInt8}

theorem front_put (apart : Apart source sink) (off : Nat) :
    (store.put written sink).front off source = store.front off source := by
  cases source <;> cases sink <;> simp_all [Apart, put, front]

theorem front_leave (off : Nat) (file : ∀ path, source = .opened path →
      left = (store.files path).drop off) (notWrite : ∀ k, source ≠ .writeEnd k) :
    (store.leave left source).front off source = left := by
  cases source <;> simp_all [leave, front]

theorem advance_put (apart : Apart source sink) {byte : UInt8} :
    ((store.leave (byte :: left) source).put written sink).advance source =
      (store.leave left source).put written sink := by
  cases source with
  | opened path => rfl
  | writeEnd k => rfl
  | inherited n => cases sink <;> simp [put, leave, advance]
  | readEnd k =>
      cases sink with
      | opened path => simp [put, leave, advance]
      | readEnd k' => simp [put, leave, advance]
      | inherited n => simp [put, leave, advance]
      | writeEnd k' =>
          have differ : k ≠ k' := apart
          simp [put, leave, advance, Ne.symm differ, Function.update_comm differ]

theorem push_put {byte : UInt8} :
    (store.put written sink).push written.length byte sink =
      store.put (written ++ [byte]) sink := by
  have behind : written.drop (written.length + 1) = [] := List.drop_of_length_le (by omega)
  cases sink <;> simp [put, push, overwrite, behind]

theorem leave_front (off : Nat) : store.leave (store.front off source) source = store := by
  cases source <;> simp [leave, front]

theorem put_nil (truncated : ∀ path, sink = .opened path → store.files path = []) :
    store.put [] sink = store := by
  cases sink with
  | opened path =>
      have nothing := truncated path rfl
      rw [put, ← nothing, Function.update_eq_self]
  | writeEnd k => simp [put]
  | inherited n => simp [put]
  | readEnd k => rfl

@[simp]
theorem truncate_pipes (file : Option Str) : (store.truncate file).pipes = store.pipes := by
  cases file <;> rfl

theorem files_leave (left : List UInt8) (source : Desc) :
    (store.leave left source).files = store.files := by
  cases source <;> rfl

theorem output_leave (left : List UInt8) (source : Desc) :
    (store.leave left source).output = store.output := by
  cases source <;> rfl

theorem pipes_leave_of_ne {k : Nat} (other : source ≠ .readEnd k) :
    (store.leave left source).pipes k = store.pipes k := by
  cases source with
  | readEnd k' => exact Function.update_of_ne (fun same => other (congrArg _ same.symm)) _ _
  | _ => rfl

theorem pipes_put_of_ne {k : Nat} (other : sink ≠ .writeEnd k) :
    (store.put written sink).pipes k = store.pipes k := by
  cases sink with
  | writeEnd k' => exact Function.update_of_ne (fun same => other (congrArg _ same.symm)) _ _
  | _ => rfl

end Store

variable {i o}

theorem CmdNode.source_ne (node : CmdNode) {p k : Nat} (other : k + 1 ≠ p) :
    node.source i p ≠ .readEnd k := by
  cases file : node.inFile <;> cases p <;> simp_all [CmdNode.source, eq_comm]

theorem CmdNode.sink_ne (node : CmdNode) {n p k : Nat} (other : k ≠ p) :
    node.sink o n p ≠ .writeEnd k := by
  cases file : node.outFile
  · by_cases more : p + 1 < n <;> simp [CmdNode.sink, file, more, Ne.symm other]
  · simp [CmdNode.sink, file]

theorem CmdNode.source_ne_writeEnd (node : CmdNode) (p k : Nat) :
    node.source i p ≠ .writeEnd k := by
  cases file : node.inFile <;> cases p <;> simp [CmdNode.source, file]

theorem CmdNode.sink_eq_writeEnd (node : CmdNode) {n p k : Nat}
    (toPipe : node.sink o n p = .writeEnd k) : k = p ∧ p + 1 < n := by
  cases file : node.outFile
  · by_cases more : p + 1 < n
    · simpa [CmdNode.sink, file, more, eq_comm] using toPipe
    · simp [CmdNode.sink, file, more] at toPipe
  · simp [CmdNode.sink, file] at toPipe

theorem CmdNode.outFile_of_sink (node : CmdNode) {n p : Nat} {path : Str}
    (opened : node.sink o n p = .opened path) : node.outFile = some path := by
  cases file : node.outFile
  · by_cases more : p + 1 < n <;> simp [CmdNode.sink, file, more] at opened
  · simpa [CmdNode.sink, file] using opened

theorem CmdNode.apart {node : CmdNode}
    (differ : ∀ path, node.inFile = some path → node.outFile ≠ some path) (n p : Nat) :
    Apart (node.source i p) (node.sink o n p) := by
  cases inFile : node.inFile with
  | none =>
      cases p with
      | zero => simp [CmdNode.source, inFile, Apart]
      | succ p =>
          have other : node.sink o n (p + 1) ≠ .writeEnd p := node.sink_ne p.lt_succ_self.ne
          have source : node.source i (p + 1) = .readEnd p := by simp [CmdNode.source, inFile]
          rw [source]
          cases sink : node.sink o n (p + 1) <;> simp_all [Apart, eq_comm]
  | some path =>
      have source : node.source i p = .opened path := by
        cases p <;> simp [CmdNode.source, inFile]
      rw [source]
      cases outFile : node.outFile with
      | none => by_cases more : p + 1 < n <;> simp [CmdNode.sink, outFile, more, Apart]
      | some path' =>
          have other := differ path inFile
          rw [outFile, ne_eq, Option.some.injEq] at other
          simpa [CmdNode.sink, outFile, Apart] using Ne.symm other

variable {nodes programs cap} {first : Store}

/-- A stage changes its own two pipes only. -/
theorem StageRuns.pipes {p k : Nat} {node : CmdNode} {store store' : Store}
    (stage : StageRuns nodes programs cap i o p node store store') (later : p < k) :
    store'.pipes k = store.pipes k := by
  cases stage
  rw [Store.pipes_put_of_ne (node.sink_ne (by omega)),
    Store.pipes_leave_of_ne (node.source_ne (by omega)), Store.truncate_pipes]

/-- The pipes of the stages that have not run are empty. -/
theorem StagesRun.pipes (empty : ∀ k, first.pipes k = []) {p : Nat} {store : Store}
    (stages : StagesRun nodes programs cap i o first p store) :
    ∀ k, p ≤ k → store.pipes k = [] := by
  induction stages with
  | none => exact fun k _ => empty k
  | next _ _ stage ih => exact fun k later => (stage.pipes later).trans (ih k (by omega))

end NckuOs.Shell
