import NckuOs.Lib.Descriptors
import NckuOs.Lib.Transition
import NckuOs.Shell.Command

/-!
# `shell.c`: running a pipeline

`fork_cmd_node` creates a pipe, starts a stage and waits for it, one node after the
other.  A stage is a process with its own descriptor table; it redirects, executes its
program, and then reads and writes byte by byte until it exits.  The pipe between a
node and the next one carries the index of the node.
-/

namespace NckuOs.Shell

open NckuOs.Descriptors
open NckuOs.Transition

/-- What a descriptor can refer to.  Reading and writing files and whatever the shell has
inherited does not block for ever. -/
inductive Desc
  | inherited (n : Nat)
  | opened (path : Str)
  | readEnd (pipe : Nat)
  | writeEnd (pipe : Nat)
  deriving DecidableEq, Repr

/-- How many bytes the program of a stage reads from its standard input and writes to its
standard output before it exits. -/
structure Behaviour where
  reads : Nat
  writes : Nat

/-- What a child does next: the two halves of `redirection`, `execvp`, a step of its program,
or a step of the `exit` that it calls when `open` or `execvp` fails. -/
inductive ChildPc
  | redirectIn
  | redirectOut
  | exec
  | run
  | flush
  deriving DecidableEq, Repr

/-- A living child. -/
structure Child where
  pc : ChildPc
  table : Table Desc
  toRead : Nat
  toWrite : Nat

/-- The process of a stage; there is none when `fork` fails. -/
inductive Proc
  | notStarted
  | noProcess
  | running (child : Child)
  | exited

/-- The next statement of `fork_cmd_node`, with `waitpid` of `spawn_proc` as a statement
of its own; `p` is the index of a node. -/
inductive ShellPc
  | loop (p : Option Nat)
  | spawn (p : Nat)
  | wait (p : Nat)
  | closeIn (p : Nat)
  | closeOut (p : Nat)
  | ret
  deriving DecidableEq, Repr

/-- The shell's descriptors, the fields `in` and `out` of the nodes, the processes, and
how many bytes are in each pipe. -/
structure World where
  table : Table Desc
  inFd : Nat → Nat
  outFd : Nat → Nat
  pc : ShellPc
  procs : Nat → Proc
  pipes : Nat → Nat

/-- What the system decides: whether `fork`, `open` and `execvp` succeed, and who moves. -/
inductive Act
  | shell (ok : Bool)
  | setup (p : Nat) (ok : Bool)
  | read (p : Nat)
  | write (p : Nat)
  | exit (p : Nat)
  deriving DecidableEq, Repr

variable (nodes : List CmdNode)

namespace World

/-- A living process has the file description open. -/
def Held (world : World) (desc : Desc) : Prop :=
  world.table.Holds desc ∨ ∃ p < nodes.length,
    match world.procs p with
    | .running child => child.table.Holds desc
    | _ => False

instance (world : World) (desc : Desc) : Decidable (world.Held nodes desc) :=
  have (p : Nat) : Decidable (match world.procs p with
      | .running child => child.table.Holds desc
      | _ => False) := by
    split <;> infer_instance
  inferInstanceAs (Decidable (_ ∨ _))

def setProc (world : World) (p : Nat) (proc : Proc) : World :=
  { world with procs := Function.update world.procs p proc }

end World

/-! ## The children -/

/-- `open`, `dup2` onto a standard descriptor, and `close`. -/
def openOver (table : Table Desc) (path : Str) (std : Nat) : Table Desc :=
  let opened := table.alloc (.opened path)
  (opened.2.dup2 opened.1 std).close opened.1

/-- One half of `redirection`: the file if there is one, else the pipe if the node has
one. -/
def redirect (table : Table Desc) (file : Option Str) (fd std : Nat) : Table Desc :=
  match file with
  | some path => openOver table path std
  | none => if fd = std then table else table.dup2 fd std

/-- `exit` of a child whose `open` or `execvp` has failed: it writes its copy of what the
shell has left in the buffer of its standard output. -/
def Child.exits (child : Child) (buffered : Nat) : Proc :=
  .running ⟨.flush, child.table, 0, buffered⟩

/-- A step of a child before its program runs. -/
def setupStep (node : CmdNode) (behaviour : Behaviour) (buffered inFd outFd : Nat) (ok : Bool)
    (child : Child) : Option Proc :=
  match child.pc with
  | .redirectIn =>
      if node.inFile.isSome && !ok then some (child.exits buffered)
      else some (.running
        { child with pc := .redirectOut, table := redirect child.table node.inFile inFd 0 })
  | .redirectOut =>
      if node.outFile.isSome && !ok then some (child.exits buffered)
      else some (.running
        { child with pc := .exec, table := redirect child.table node.outFile outFd 1 })
  | .exec =>
      if ok then some (.running ⟨.run, child.table, behaviour.reads, behaviour.writes⟩)
      else some (child.exits buffered)
  | .run | .flush => none

/-- A program reads one byte.  It comes to the end of a pipe when that is empty and no
living process could write to it. -/
def readStep (world : World) (p : Nat) (child : Child) : Option World :=
  if child.pc ≠ .run ∨ child.toRead = 0 then none
  else
    match child.table.lookup 0 with
    | some (.readEnd k) =>
        if world.pipes k ≠ 0 then
          some { world.setProc p (.running { child with toRead := child.toRead - 1 }) with
            pipes := Function.update world.pipes k (world.pipes k - 1) }
        else if world.Held nodes (.writeEnd k) then none
        else some (world.setProc p (.running { child with toRead := 0 }))
    | some (.inherited _) | some (.opened _) =>
        some (world.setProc p (.running { child with toRead := child.toRead - 1 }))
    | _ => some (world.setProc p (.running { child with toRead := 0 }))

/-- A program or `exit` writes one byte.  It is killed when no living process could read it,
and waits while the pipe is full. -/
def writeStep (cap : Nat) (world : World) (p : Nat) (child : Child) : Option World :=
  if (child.pc ≠ .run ∧ child.pc ≠ .flush) ∨ child.toWrite = 0 then none
  else
    match child.table.lookup 1 with
    | some (.writeEnd k) =>
        if ¬world.Held nodes (.readEnd k) then some (world.setProc p .exited)
        else if world.pipes k < cap then
          some { world.setProc p (.running { child with toWrite := child.toWrite - 1 }) with
            pipes := Function.update world.pipes k (world.pipes k + 1) }
        else none
    | some (.inherited _) | some (.opened _) =>
        some (world.setProc p (.running { child with toWrite := child.toWrite - 1 }))
    | _ => some (world.setProc p (.running { child with toWrite := 0 }))

/-! ## The shell -/

/-- A step of `fork_cmd_node`.  `pipe` succeeds; `ok` is the success of `fork`. -/
def shellStep (ok : Bool) (world : World) : Option World :=
  match world.pc with
  | .loop none => some { world with pc := .ret }
  | .loop (some p) =>
      match nodes[p]? with
      | none => none
      | some node =>
          match node.next with
          | none => some { world with pc := .spawn p }
          | some q =>
              let reads := world.table.alloc (.readEnd p)
              let writes := reads.2.alloc (.writeEnd p)
              some { world with
                table := writes.2
                outFd := Function.update world.outFd p writes.1
                inFd := Function.update world.inFd q reads.1
                pc := .spawn p }
  | .spawn p =>
      if ok then
        some { world.setProc p (.running ⟨.redirectIn, world.table, 0, 0⟩) with pc := .wait p }
      else some { world.setProc p .noProcess with pc := .closeIn p }
  | .wait p =>
      match world.procs p with
      | .exited => some { world with pc := .closeIn p }
      | _ => none
  | .closeIn p =>
      if p ≠ 0 then
        some { world with table := world.table.close (world.inFd p), pc := .closeOut p }
      else some { world with pc := .closeOut p }
  | .closeOut p =>
      match nodes[p]? with
      | none => none
      | some node =>
          match node.next with
          | none => some { world with pc := .loop none }
          | some q =>
              some { world with table := world.table.close (world.outFd p), pc := .loop (some q) }
  | .ret => none

/-- What the child of node `p` does. -/
def childStep (behaviour : Nat → Behaviour) (cap buffered : Nat) (world : World) (p : Nat)
    (act : Act) (child : Child) : Option World :=
  match act with
  | .setup _ ok =>
      match nodes[p]? with
      | none => none
      | some node =>
          (setupStep node (behaviour p) buffered (world.inFd p) (world.outFd p) ok child).map
            (world.setProc p)
  | .read _ => readStep nodes world p child
  | .write _ => writeStep nodes cap world p child
  | .exit _ =>
      if (child.pc = .run ∨ child.pc = .flush) ∧ child.toRead = 0 ∧ child.toWrite = 0 then
        some (world.setProc p .exited)
      else none
  | .shell _ => none

/-- Who moves, if not the shell. -/
def Act.child : Act → Nat
  | .shell _ => 0
  | .setup p _ => p
  | .read p => p
  | .write p => p
  | .exit p => p

/-- One step of the shell or of a child, when the shell has `buffered` bytes in the buffer of
its standard output.  The call prints nothing, so every child has a copy of the same bytes. -/
def step (behaviour : Nat → Behaviour) (cap buffered : Nat) (world : World) (act : Act) :
    Option World :=
  match act with
  | .shell ok => shellStep nodes ok world
  | act =>
      match world.procs act.child with
      | .running child => childStep nodes behaviour cap buffered world act.child act child
      | _ => none

/-- The nodes of `split_line`, from the head on. -/
structure IsPipeline : Prop where
  long : 2 ≤ nodes.length
  next : ∀ k node, nodes[k]? = some node →
    node.next = if k + 1 < nodes.length then some (k + 1) else none

/-- The call of `fork_cmd_node`. -/
def callOf (table : Table Desc) : World where
  table := table
  inFd p := (nodes[p]?.map CmdNode.inFd).getD 0
  outFd p := (nodes[p]?.map CmdNode.outFd).getD 0
  pc := .loop (some 0)
  procs _ := .notStarted
  pipes _ := 0

/-- No descriptor of the shell refers to a pipe of the pipeline yet. -/
def NoPipes (table : Table Desc) : Prop :=
  ∀ k, ¬table.Holds (.readEnd k) ∧ ¬table.Holds (.writeEnd k)

/-- Every run of a call, with pipes of the given capacity. -/
def running (behaviour : Nat → Behaviour) (cap buffered : Nat) : System World Act where
  init world := ∃ table, NoPipes table ∧ world = callOf nodes table
  step world act world' := step nodes behaviour cap buffered world act = some world'

/-- The shell waits for a stage that waits for room in a full pipe, and the stage that
could read from the pipe has not been started. -/
def Stuck (cap : Nat) (world : World) : Prop :=
  ∃ p child k node q, world.pc = .wait p ∧ world.procs p = .running child ∧
    (child.pc = .run ∨ child.pc = .flush) ∧ child.toWrite ≠ 0 ∧
    child.table.lookup 1 = some (.writeEnd k) ∧ world.Held nodes (.readEnd k) ∧
    cap ≤ world.pipes k ∧ nodes[k]? = some node ∧ node.next = some q ∧
    world.procs q = .notStarted

end NckuOs.Shell
