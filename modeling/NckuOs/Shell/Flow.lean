import NckuOs.Lib.Streams
import NckuOs.Shell.PipeEnds

/-!
# What flows through a pipeline

The processes of a pipeline with the bytes themselves: those in the pipes, in the files,
and those that come from and go to what the shell has inherited.  A stage reads and writes
through its descriptors, whatever they refer to.
-/

namespace NckuOs.Shell

open NckuOs.Descriptors
open NckuOs.Streams
open NckuOs.Transition

/-- The bytes: in files, still to come from and already gone to what is inherited, and in
the pipes. -/
structure Store where
  files : Str → List UInt8
  input : Nat → List UInt8
  output : Nat → List UInt8
  pipes : Nat → List UInt8

/-- Put a byte at an offset; a hole in front of it reads as zeros. -/
def overwrite (content : List UInt8) (off : Nat) (byte : UInt8) : List UInt8 :=
  content.take off ++ List.replicate (off - content.length) 0 ++ byte :: content.drop (off + 1)

namespace Store

/-- What is still to be read through a file description with an offset. -/
def front (store : Store) (off : Nat) : Desc → List UInt8
  | .readEnd k => store.pipes k
  | .opened path => (store.files path).drop off
  | .inherited n => store.input n
  | .writeEnd _ => []

/-- Read one byte; a file keeps it. -/
def advance (store : Store) : Desc → Store
  | .readEnd k => { store with pipes := Function.update store.pipes k (store.pipes k).tail }
  | .inherited n => { store with input := Function.update store.input n (store.input n).tail }
  | .opened _ | .writeEnd _ => store

/-- Write one byte. -/
def push (store : Store) (off : Nat) (byte : UInt8) : Desc → Store
  | .writeEnd k => { store with pipes := Function.update store.pipes k (store.pipes k ++ [byte]) }
  | .opened path =>
      { store with
        files := Function.update store.files path (overwrite (store.files path) off byte) }
  | .inherited n =>
      { store with output := Function.update store.output n (store.output n ++ [byte]) }
  | .readEnd _ => store

/-- `O_TRUNC`, when there is an output file. -/
def truncate (store : Store) : Option Str → Store
  | none => store
  | some path => { store with files := Function.update store.files path [] }

end Store

/-- How far the program of a stage is: its state, and the offsets of its standard input
and output. -/
structure Progress (σ : Type) where
  state : σ
  inOff : Nat
  outOff : Nat

/-- The programs of the stages. -/
structure Programs (σ : Type) where
  start : Nat → σ
  act : Nat → σ → Action σ UInt8

/-- The processes, as in `World`, with the bytes and the programs. -/
structure Flow (σ : Type) where
  world : World
  stage : Nat → Progress σ
  store : Store

variable {σ : Type} (nodes : List CmdNode) (programs : Programs σ) (cap : Nat)

namespace Flow

def setStage (flow : Flow σ) (p : Nat) (progress : Progress σ) : Flow σ :=
  { flow with stage := Function.update flow.stage p progress }

/-- A program reads one byte, or comes to the end of its input. -/
def readStep (flow : Flow σ) (p : Nat) (child : Child) (next : Option UInt8 → σ) :
    Option (Flow σ) :=
  let progress := flow.stage p
  match child.table.lookup 0 with
  | none => some (flow.setStage p { progress with state := next none })
  | some desc =>
      match flow.store.front progress.inOff desc with
      | byte :: _ =>
          some { flow.setStage p ⟨next (some byte), progress.inOff + 1, progress.outOff⟩ with
            store := flow.store.advance desc }
      | [] =>
          match desc with
          | .readEnd k =>
              if flow.world.Held nodes (.writeEnd k) then none
              else some (flow.setStage p { progress with state := next none })
          | _ => some (flow.setStage p { progress with state := next none })

/-- A program writes one byte. -/
def writeStep (flow : Flow σ) (p : Nat) (child : Child) (byte : UInt8) (next : σ) :
    Option (Flow σ) :=
  let progress := flow.stage p
  let written (desc : Desc) : Flow σ :=
    { flow.setStage p ⟨next, progress.inOff, progress.outOff + 1⟩ with
      store := flow.store.push progress.outOff byte desc }
  match child.table.lookup 1 with
  | none => some (flow.setStage p { progress with state := next })
  | some (.writeEnd k) =>
      if ¬flow.world.Held nodes (.readEnd k) then
        some { flow with world := flow.world.setProc p .exited }
      else if (flow.store.pipes k).length < cap then some (written (.writeEnd k))
      else none
  | some desc => some (written desc)

/-- What happens to the bytes when a child goes on: `redirection` truncates its output
file, and `execvp` starts its program. -/
def entered (flow : Flow σ) (p : Nat) (node : CmdNode) (child : Child) : Flow σ :=
  match child.pc with
  | .redirectOut => { flow with store := flow.store.truncate node.outFile }
  | .exec => flow.setStage p ⟨programs.start p, 0, 0⟩
  | .redirectIn | .run | .flush => flow

/-- A step of the program of stage `p`. -/
def programStep (flow : Flow σ) (p : Nat) (child : Child) (act : Act) : Option (Flow σ) :=
  match act, programs.act p (flow.stage p).state with
  | .read _, .read next => flow.readStep nodes p child next
  | .write _, .write byte next => flow.writeStep nodes cap p child byte next
  | .exit _, .exit => some { flow with world := flow.world.setProc p .exited }
  | _, _ => none

/-- `redirection` and `execvp` in the child of node `p`. -/
def setup (flow : Flow σ) (p : Nat) (child : Child) : Option (Flow σ) :=
  match nodes[p]? with
  | none => none
  | some node =>
      (setupStep node ⟨0, 0⟩ 0 (flow.world.inFd p) (flow.world.outFd p) true child).map
        fun proc =>
          { flow.entered programs p node child with world := flow.world.setProc p proc }

/-- A step of the child of node `p`. -/
def childStep (flow : Flow σ) (p : Nat) (child : Child) (act : Act) : Option (Flow σ) :=
  match act with
  | .setup _ ok => if ok then flow.setup nodes programs p child else none
  | .shell _ => none
  | act => if child.pc = .run then flow.programStep nodes programs cap p child act else none

/-- One step of the shell or of a child, while no `fork`, `open` or `execvp` fails. -/
def step (flow : Flow σ) (act : Act) : Option (Flow σ) :=
  match act with
  | .shell ok =>
      if ok then
        (shellStep nodes true flow.world).map fun world => { flow with world := world }
      else none
  | act =>
      match flow.world.procs act.child with
      | .running child => flow.childStep nodes programs cap act.child child act
      | _ => none

end Flow

/-- Every run of a call of `fork_cmd_node` in which nothing fails. -/
def flows (table : Table Desc) (first : Store) : System (Flow σ) Act where
  init flow := flow.world = callOf nodes table ∧ flow.store = first
  step flow act flow' := flow.step nodes programs cap act = some flow'

end NckuOs.Shell
