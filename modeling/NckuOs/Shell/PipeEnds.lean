import NckuOs.Shell.Stuck

/-!
# The ends of the pipes

`fork_cmd_node` has at most the read end of the previous pipe and both ends of the current
one, and closes each of them in time: none is left when it returns, and a reader is started
when nobody has the write end of its pipe any more.
-/

namespace NckuOs.Shell

open NckuOs.Descriptors
open NckuOs.Transition

variable (nodes : List CmdNode) (behaviour : Nat → Behaviour) (cap buffered : Nat)

/-- Every run of a call by a shell with the given descriptors. -/
def callWith (table : Table Desc) : System World Act where
  init world := world = callOf nodes table
  step world act world' := step nodes behaviour cap buffered world act = some world'

/-- The index of the node that the shell is at. -/
def ShellPc.node? : ShellPc → Option Nat
  | .loop p => p
  | .spawn p => some p
  | .wait p => some p
  | .closeIn p => some p
  | .closeOut p => some p
  | .ret => none

/-- The shell has the read end of pipe `k`, when there are `n` nodes. -/
def ShellPc.Reads (n : Nat) (pc : ShellPc) (k : Nat) : Prop :=
  match pc with
  | .loop (some p) => k + 1 = p
  | .spawn p | .wait p | .closeIn p => k + 1 = p ∨ (k = p ∧ p + 1 < n)
  | .closeOut p => k = p ∧ p + 1 < n
  | .loop none | .ret => False

/-- The shell has the write end of pipe `k`. -/
def ShellPc.Writes (n : Nat) (pc : ShellPc) (k : Nat) : Prop :=
  match pc with
  | .spawn p | .wait p | .closeIn p | .closeOut p => k = p ∧ p + 1 < n
  | .loop _ | .ret => False

/-- The shell is done with stage `p`. -/
def ShellPc.Past (n : Nat) (pc : ShellPc) (p : Nat) : Prop :=
  match pc with
  | .loop (some q) | .spawn q | .wait q => p < q
  | .closeIn q | .closeOut q => p ≤ q
  | .loop none | .ret => p < n

/-- A descriptor of the shell is the end of a pipe that it still has. -/
def PipeEnd (world : World) (fd : Nat) : Desc → Prop
  | .readEnd k => world.pc.Reads nodes.length k ∧ fd = world.inFd (k + 1)
  | .writeEnd k => world.pc.Writes nodes.length k ∧ fd = world.outFd k
  | .inherited _ => False
  | .opened _ => False

/-- The descriptors of a child, from those of the shell at the `fork`.  It may come to `exit`
from any place of `redirection`. -/
def TableAt (node : CmdNode) (inFd outFd : Nat) (table table' : Table Desc) : ChildPc → Prop
  | .redirectIn => table' = table
  | .redirectOut => table' = redirect table node.inFile inFd 0
  | .exec | .run => table' = redirect (redirect table node.inFile inFd 0) node.outFile outFd 1
  | .flush => table' = table ∨ table' = redirect table node.inFile inFd 0 ∨
      table' = redirect (redirect table node.inFile inFd 0) node.outFile outFd 1

variable {nodes behaviour cap buffered}

/-- The shell has what it had before the call and the ends of some pipes; the only child is
that which the shell waits for, and the earlier ones have exited. -/
structure EndsInv (nodes : List CmdNode) (table : Table Desc) (world : World) : Prop where
  ends : ∀ fd desc, world.table.lookup fd = some desc ↔
    table.lookup fd = some desc ∨ PipeEnd nodes world fd desc
  inside : ∀ p ∈ world.pc.node?, p < nodes.length
  waits : ∀ p child, world.procs p = .running child → world.pc = .wait p
  past : ∀ p, world.pc.Past nodes.length p →
    world.procs p = .exited ∨ world.procs p = .noProcess
  child : ∀ p child node, world.procs p = .running child → nodes[p]? = some node →
    TableAt node (world.inFd p) (world.outFd p) world.table child.table child.pc

theorem endsInv_start (pipeline : IsPipeline nodes) (table : Table Desc) :
    EndsInv nodes table (callOf nodes table) where
  ends fd desc := by
    have none : ¬PipeEnd nodes (callOf nodes table) fd desc := by
      cases desc with
      | readEnd k => exact fun isEnd => absurd isEnd.1 (Nat.succ_ne_zero k)
      | writeEnd k => exact fun isEnd => isEnd.1
      | inherited n => exact id
      | opened path => exact id
    rw [or_iff_left none]
    rfl
  inside p isNode := by
    cases isNode
    exact Nat.lt_of_lt_of_le Nat.zero_lt_two pipeline.long
  waits p child running := by cases running
  past p before := absurd before p.not_lt_zero
  child p child node running := by cases running

/-! ## The children -/

/-- A step of a child: what becomes of it, and of the bytes in the pipes.  Its descriptors
are those of its place in `redirection`. -/
def ChildMoves (nodes : List CmdNode) (world : World) (p : Nat) (child : Child)
    (world' : World) : Prop :=
  ∃ proc pipes, world' = { world.setProc p proc with pipes := pipes } ∧
    ∀ child', proc = .running child' → ∀ node, nodes[p]? = some node → ∀ table,
      TableAt node (world.inFd p) (world.outFd p) table child.table child.pc →
        TableAt node (world.inFd p) (world.outFd p) table child'.table child'.pc

variable {world world' : World} {p : Nat} {child : Child}

theorem childMoves_exited : ChildMoves nodes world p child (world.setProc p .exited) :=
  ⟨.exited, world.pipes, rfl, fun _ running => by cases running⟩

/-- A step of the program of a stage. -/
theorem childMoves_program (toRead toWrite : Nat) (pipes : Nat → Nat) :
    ChildMoves nodes world p child
      { world.setProc p (.running { child with toRead := toRead, toWrite := toWrite }) with
        pipes := pipes } := by
  refine ⟨_, pipes, rfl, ?_⟩
  rintro _ ⟨⟩ node _ table here
  exact here

theorem readStep_moves (stepped : readStep nodes world p child = some world') :
    ChildMoves nodes world p child world' := by
  unfold readStep at stepped
  split at stepped
  · cases stepped
  split at stepped
  next k =>
    split at stepped
    · cases stepped
      exact childMoves_program _ _ _
    · split at stepped
      · cases stepped
      · cases stepped
        exact childMoves_program 0 _ world.pipes
  · cases stepped
    exact childMoves_program _ _ world.pipes
  · cases stepped
    exact childMoves_program _ _ world.pipes
  · cases stepped
    exact childMoves_program 0 _ world.pipes

theorem writeStep_moves (stepped : writeStep nodes cap world p child = some world') :
    ChildMoves nodes world p child world' := by
  unfold writeStep at stepped
  split at stepped
  · cases stepped
  split at stepped
  next k =>
    split at stepped
    · cases stepped
      exact childMoves_exited
    · split at stepped
      · cases stepped
        exact childMoves_program _ _ _
      · cases stepped
  · cases stepped
    exact childMoves_program _ _ world.pipes
  · cases stepped
    exact childMoves_program _ _ world.pipes
  · cases stepped
    exact childMoves_program _ 0 world.pipes

/-- Going on to the next place of `redirection`, with the descriptors that it has there. -/
theorem childMoves_setup {node : CmdNode} {pc' : ChildPc} {table' : Table Desc}
    {toRead toWrite : Nat} (at_ : nodes[p]? = some node)
    (next : ∀ table, TableAt node (world.inFd p) (world.outFd p) table child.table child.pc →
      TableAt node (world.inFd p) (world.outFd p) table table' pc') :
    ChildMoves nodes world p child
      (world.setProc p (.running ⟨pc', table', toRead, toWrite⟩)) := by
  refine ⟨_, world.pipes, rfl, ?_⟩
  rintro _ ⟨⟩ node' at_' table here
  rw [at_, Option.some.injEq] at at_'
  subst at_'
  exact next table here

/-- `exit`, from any place of `redirection`. -/
theorem childMoves_exits {node : CmdNode} (at_ : nodes[p]? = some node) (buffered : Nat)
    (setup : child.pc ≠ .run) :
    ChildMoves nodes world p child (world.setProc p (child.exits buffered)) := by
  apply childMoves_setup at_
  intro table here
  unfold TableAt at here
  split at here
  next => exact .inl here
  next => exact .inr (.inl here)
  next => exact .inr (.inr here)
  next pc => exact absurd pc setup
  next => exact here

theorem setupStep_moves {node : CmdNode} {ok : Bool} {proc : Proc} {program : Behaviour}
    (at_ : nodes[p]? = some node)
    (stepped : setupStep node program buffered (world.inFd p) (world.outFd p) ok child =
      some proc) :
    ChildMoves nodes world p child (world.setProc p proc) := by
  unfold setupStep at stepped
  split at stepped
  next pc =>
    split at stepped
    · cases stepped
      exact childMoves_exits at_ buffered (by simp [pc])
    · cases stepped
      apply childMoves_setup at_
      intro table here
      rw [pc] at here
      exact congrArg (redirect · node.inFile (world.inFd p) 0) here
  next pc =>
    split at stepped
    · cases stepped
      exact childMoves_exits at_ buffered (by simp [pc])
    · cases stepped
      apply childMoves_setup at_
      intro table here
      rw [pc] at here
      exact congrArg (redirect · node.outFile (world.outFd p) 1) here
  next pc =>
    split at stepped
    · cases stepped
      apply childMoves_setup at_
      intro table here
      rw [pc] at here
      exact here
    · cases stepped
      exact childMoves_exits at_ buffered (by simp [pc])
  next => cases stepped
  next => cases stepped

theorem childStep_moves {act : Act}
    (stepped : childStep nodes behaviour cap buffered world p act child = some world') :
    ChildMoves nodes world p child world' := by
  cases act with
  | shell ok => cases stepped
  | setup q ok =>
      unfold childStep at stepped
      dsimp only at stepped
      split at stepped
      next => cases stepped
      next node at_ =>
        rcases Option.map_eq_some_iff.mp stepped with ⟨proc, setup, rfl⟩
        exact setupStep_moves at_ setup
  | read q => exact readStep_moves stepped
  | write q => exact writeStep_moves stepped
  | exit q =>
      unfold childStep at stepped
      dsimp only at stepped
      split at stepped
      · cases stepped
        exact childMoves_exited
      · cases stepped

/-- A child changes no descriptor of the shell. -/
theorem EndsInv.child_step {table : Table Desc} (inv : EndsInv nodes table world)
    (running : world.procs p = .running child) (moves : ChildMoves nodes world p child world') :
    EndsInv nodes table world' := by
  rcases moves with ⟨proc, pipes, rfl, keeps⟩
  have here := inv.waits p child running
  have cases_ {q : Nat} {child' : Child}
      (still : Function.update world.procs p proc q = .running child') :
      (q = p ∧ proc = .running child') ∨ world.procs q = .running child' := by
    by_cases same : q = p
    · subst same
      rw [Function.update_self] at still
      exact .inl ⟨rfl, still⟩
    · rw [Function.update_of_ne same] at still
      exact .inr still
  constructor
  · intro fd desc
    apply (inv.ends fd desc).trans
    cases desc <;> exact Iff.rfl
  · exact inv.inside
  · intro q child' still
    rcases cases_ still with ⟨rfl, _⟩ | before
    · exact here
    · exact inv.waits q child' before
  · intro q before
    have before : world.pc.Past nodes.length q := before
    have earlier := inv.past q before
    rw [here] at before
    have other : q ≠ p := Nat.ne_of_lt before
    rwa [← Function.update_of_ne other proc world.procs] at earlier
  · intro q child' node still at_
    rcases cases_ still with ⟨rfl, moved⟩ | before
    · exact keeps child' moved node at_ world.table (inv.child q child node running at_)
    · exact inv.child q child' node before at_

/-! ## The shell -/

/-- A step of the shell when there is no child. -/
theorem endsInv_of_idle {table : Table Desc}
    (idle : ∀ p child, world.procs p ≠ .running child) (procs : world'.procs = world.procs)
    (ends : ∀ fd desc, world'.table.lookup fd = some desc ↔
      table.lookup fd = some desc ∨ PipeEnd nodes world' fd desc)
    (inside : ∀ p ∈ world'.pc.node?, p < nodes.length)
    (past : ∀ p, world'.pc.Past nodes.length p →
      world.procs p = .exited ∨ world.procs p = .noProcess) : EndsInv nodes table world' where
  ends := ends
  inside := inside
  past p before := by
    rw [procs]
    exact past p before
  waits p child running := by
    rw [procs] at running
    exact absurd running (idle p child)
  child p child node running := by
    rw [procs] at running
    exact absurd running (idle p child)

/-- The shell is at a node of the list. -/
theorem EndsInv.node_lt {table : Table Desc} {now : ShellPc} {p : Nat}
    (inv : EndsInv nodes table world) (here : world.pc = now) (isNode : now.node? = some p) :
    p < nodes.length :=
  inv.inside p (here ▸ isNode)

/-- The stages that the shell is done with. -/
theorem EndsInv.ended {table : Table Desc} {now : ShellPc} {q : Nat}
    (inv : EndsInv nodes table world) (here : world.pc = now)
    (before : now.Past nodes.length q) :
    world.procs q = .exited ∨ world.procs q = .noProcess :=
  inv.past q (here ▸ before)

/-- Going on to the next statement with the same descriptors. -/
theorem EndsInv.move {table : Table Desc} {now pc' : ShellPc} (inv : EndsInv nodes table world)
    (idle : ∀ p child, world.procs p ≠ .running child) (here : world.pc = now)
    (reads : ∀ k, pc'.Reads nodes.length k ↔ now.Reads nodes.length k)
    (writes : ∀ k, pc'.Writes nodes.length k ↔ now.Writes nodes.length k)
    (inside : ∀ p ∈ pc'.node?, p < nodes.length)
    (past : ∀ p, pc'.Past nodes.length p →
      world.procs p = .exited ∨ world.procs p = .noProcess) :
    EndsInv nodes table { world with pc := pc' } := by
  subst now
  have procs : ({ world with pc := pc' } : World).procs = world.procs := rfl
  apply endsInv_of_idle idle procs _ inside past
  intro fd desc
  apply (inv.ends fd desc).trans
  cases desc with
  | readEnd k => exact or_congr_right (and_congr_left' (reads k).symm)
  | writeEnd k => exact or_congr_right (and_congr_left' (writes k).symm)
  | inherited n => exact Iff.rfl
  | opened path => exact Iff.rfl

/-- `pipe`. -/
theorem EndsInv.pipe {table : Table Desc} (inv : EndsInv nodes table world)
    (idle : ∀ p child, world.procs p ≠ .running child) (pc : world.pc = .loop (some p))
    (more : p + 1 < nodes.length) :
    let reads := world.table.alloc (.readEnd p)
    let writes := reads.2.alloc (.writeEnd p)
    EndsInv nodes table { world with
      table := writes.2
      outFd := Function.update world.outFd p writes.1
      inFd := Function.update world.inFd (p + 1) reads.1
      pc := .spawn p } := by
  intro reads writes
  let piped : World := { world with
    table := writes.2
    outFd := Function.update world.outFd p writes.1
    inFd := Function.update world.inFd (p + 1) reads.1
    pc := .spawn p }
  have procs : piped.procs = world.procs := rfl
  apply endsInv_of_idle idle procs
  · intro fd desc
    have opened : piped.table.lookup fd = some desc ↔ (world.table.lookup fd = some desc ∨
        (fd = reads.1 ∧ .readEnd p = desc)) ∨ (fd = writes.1 ∧ .writeEnd p = desc) :=
      (Table.lookup_alloc_iff _).trans (or_congr_left (Table.lookup_alloc_iff _))
    rw [opened, inv.ends, or_assoc, or_assoc]
    apply or_congr_right
    cases desc with
    | readEnd k =>
        have before :
            PipeEnd nodes world fd (.readEnd k) ↔ k + 1 = p ∧ fd = world.inFd (k + 1) := by
          rw [PipeEnd, pc]
          rfl
        have after : PipeEnd nodes piped fd (.readEnd k) ↔ (k + 1 = p ∨ (k = p ∧
            p + 1 < nodes.length)) ∧ fd = Function.update world.inFd (p + 1) reads.1 (k + 1) :=
          Iff.rfl
        rw [before, after]
        by_cases same : k = p
        · subst same
          simp [more]
        · have other : k + 1 ≠ p + 1 := fun eq => same (Nat.succ.inj eq)
          rw [Function.update_of_ne other]
          simp [same, Ne.symm same]
    | writeEnd k =>
        have before : ¬PipeEnd nodes world fd (.writeEnd k) := by
          rw [PipeEnd, pc]
          exact And.left
        have after : PipeEnd nodes piped fd (.writeEnd k) ↔ (k = p ∧ p + 1 < nodes.length) ∧
            fd = Function.update world.outFd p writes.1 k :=
          Iff.rfl
        rw [after]
        by_cases same : k = p
        · subst same
          simp [before, more]
        · simp [before, same, Ne.symm same]
    | inherited n => simp [PipeEnd]
    | opened path => simp [PipeEnd]
  · intro q isNode
    cases isNode
    exact Nat.lt_of_succ_lt more
  · exact fun q before => inv.ended pc before

theorem PipeEnd.unique {fd fd' : Nat} {desc : Desc} (isEnd : PipeEnd nodes world fd desc)
    (isEnd' : PipeEnd nodes world fd' desc) : fd = fd' := by
  cases desc with
  | readEnd k => exact isEnd.2.trans isEnd'.2.symm
  | writeEnd k => exact isEnd.2.trans isEnd'.2.symm
  | inherited n => exact isEnd.elim
  | opened path => exact isEnd.elim

/-- The pipes are new. -/
theorem PipeEnd.fresh {table : Table Desc} (noPipes : NoPipes table) {fd fd' : Nat} {desc : Desc}
    (isEnd : PipeEnd nodes world fd desc) : table.lookup fd' ≠ some desc := by
  intro found
  have held : table.Holds desc := Table.holds_iff.mpr ⟨fd', found⟩
  cases desc with
  | readEnd k => exact (noPipes k).1 held
  | writeEnd k => exact (noPipes k).2 held
  | inherited n => exact isEnd
  | opened path => exact isEnd

/-- `close` of the end of a pipe. -/
theorem EndsInv.close {table : Table Desc} (noPipes : NoPipes table)
    (inv : EndsInv nodes table world) (idle : ∀ p child, world.procs p ≠ .running child)
    {closed : Nat} {desc : Desc} {pc' : ShellPc} (isEnd : PipeEnd nodes world closed desc)
    (others : ∀ fd other, PipeEnd nodes { world with table := world.table.close closed, pc := pc' }
      fd other ↔ PipeEnd nodes world fd other ∧ other ≠ desc)
    (inside : ∀ p ∈ pc'.node?, p < nodes.length)
    (past : ∀ p, pc'.Past nodes.length p → world.pc.Past nodes.length p) :
    EndsInv nodes table { world with table := world.table.close closed, pc := pc' } := by
  have procs : ({ world with table := world.table.close closed, pc := pc' } : World).procs =
      world.procs := rfl
  apply endsInv_of_idle idle procs _ inside fun p before => inv.past p (past p before)
  intro fd other
  have opened : world.table.lookup closed = some desc := (inv.ends closed desc).mpr (.inr isEnd)
  have only : ∀ fd, world.table.lookup fd = some desc → fd = closed := by
    intro fd found
    rcases (inv.ends fd desc).mp found with old | isEnd'
    · exact absurd old (isEnd.fresh noPipes)
    · exact isEnd'.unique isEnd
  rw [Table.lookup_close_iff opened only, inv.ends, others, or_and_right]
  apply or_congr_left
  constructor
  · exact And.left
  · intro old
    refine ⟨old, ?_⟩
    rintro rfl
    exact isEnd.fresh noPipes old

/-- The read end of the previous pipe, after its reader has ended. -/
theorem EndsInv.closeRead {table : Table Desc} (noPipes : NoPipes table)
    (inv : EndsInv nodes table world) (idle : ∀ q child, world.procs q ≠ .running child)
    (pc : world.pc = .closeIn (p + 1)) :
    EndsInv nodes table
      { world with table := world.table.close (world.inFd (p + 1)), pc := .closeOut (p + 1) } := by
  have isEnd : PipeEnd nodes world (world.inFd (p + 1)) (.readEnd p) := by
    rw [PipeEnd, pc]
    exact ⟨.inl rfl, rfl⟩
  apply inv.close noPipes idle isEnd
  · intro fd other
    cases other with
    | readEnd k =>
        rw [PipeEnd, PipeEnd, pc]
        constructor
        · rintro ⟨⟨rfl, more⟩, same⟩
          exact ⟨⟨.inr ⟨rfl, more⟩, same⟩, by simp⟩
        · rintro ⟨⟨previous | current, same⟩, differs⟩
          · cases previous
            exact absurd rfl differs
          · exact ⟨current, same⟩
    | writeEnd k =>
        rw [PipeEnd, PipeEnd, pc]
        exact (and_iff_left (by simp)).symm
    | inherited n => exact (and_iff_left_of_imp False.elim).symm
    | opened path => exact (and_iff_left_of_imp False.elim).symm
  · intro q isNode
    cases isNode
    exact inv.node_lt pc rfl
  · rw [pc]
    exact fun _ => id

/-- The write end of the current pipe, before its reader is started. -/
theorem EndsInv.closeWrite {table : Table Desc} (noPipes : NoPipes table)
    (inv : EndsInv nodes table world) (idle : ∀ q child, world.procs q ≠ .running child)
    (pc : world.pc = .closeOut p) (more : p + 1 < nodes.length) :
    EndsInv nodes table
      { world with table := world.table.close (world.outFd p), pc := .loop (some (p + 1)) } := by
  have isEnd : PipeEnd nodes world (world.outFd p) (.writeEnd p) := by
    rw [PipeEnd, pc]
    exact ⟨⟨rfl, more⟩, rfl⟩
  apply inv.close noPipes idle isEnd
  · intro fd other
    cases other with
    | readEnd k =>
        rw [PipeEnd, PipeEnd, pc]
        constructor
        · rintro ⟨previous, same⟩
          exact ⟨⟨⟨Nat.succ.inj previous, more⟩, same⟩, by simp⟩
        · rintro ⟨⟨⟨rfl, _⟩, same⟩, _⟩
          exact ⟨rfl, same⟩
    | writeEnd k =>
        rw [PipeEnd, PipeEnd, pc]
        constructor
        · rintro ⟨⟨⟩, _⟩
        · rintro ⟨⟨⟨rfl, _⟩, _⟩, differs⟩
          exact absurd rfl differs
    | inherited n => exact (and_iff_left_of_imp False.elim).symm
    | opened path => exact (and_iff_left_of_imp False.elim).symm
  · intro r isNode
    cases isNode
    exact more
  · rw [pc]
    exact fun _ => Nat.le_of_lt_succ

/-- What `fork` leaves of the current stage. -/
theorem EndsInv.spawn {table : Table Desc} {proc : Proc} {pc' : ShellPc}
    (inv : EndsInv nodes table world) (idle : ∀ p child, world.procs p ≠ .running child)
    (pc : world.pc = .spawn p)
    (reads : ∀ k, pc'.Reads nodes.length k ↔ (ShellPc.spawn p).Reads nodes.length k)
    (writes : ∀ k, pc'.Writes nodes.length k ↔ (ShellPc.spawn p).Writes nodes.length k)
    (same : pc'.node? = some p)
    (past : ∀ q, pc'.Past nodes.length q → q < p ∨ q = p ∧ proc = .noProcess)
    (child : ∀ child, proc = .running child →
      pc' = .wait p ∧ child = ⟨.redirectIn, world.table, 0, 0⟩) :
    EndsInv nodes table { world.setProc p proc with pc := pc' } := by
  have only {q : Nat} {child : Child}
      (running : Function.update world.procs p proc q = .running child) :
      q = p ∧ proc = .running child := by
    by_cases same : q = p
    · subst same
      rw [Function.update_self] at running
      exact ⟨rfl, running⟩
    · rw [Function.update_of_ne same] at running
      exact absurd running (idle q child)
  constructor
  · intro fd desc
    apply (inv.ends fd desc).trans
    apply or_congr_right
    cases desc with
    | readEnd k =>
        rw [PipeEnd, pc]
        exact and_congr_left' (reads k).symm
    | writeEnd k =>
        rw [PipeEnd, pc]
        exact and_congr_left' (writes k).symm
    | inherited n => exact Iff.rfl
    | opened path => exact Iff.rfl
  · intro q isNode
    have isNode : q ∈ pc'.node? := isNode
    rw [same] at isNode
    cases isNode
    exact inv.node_lt pc rfl
  · intro q now running
    rw [(only running).1]
    exact (child now (only running).2).1
  · intro q before
    rcases past q before with earlier | ⟨rfl, rfl⟩
    · have ended := inv.ended pc earlier
      rwa [← Function.update_of_ne earlier.ne proc world.procs] at ended
    · have gone : Function.update world.procs q .noProcess q = .noProcess :=
        Function.update_self _ _ _
      exact .inr gone
  · intro q now node running _
    rcases only running with ⟨rfl, started⟩
    rw [(child now started).2]
    rfl

/-- `fork`: the child has what the shell has. -/
theorem EndsInv.fork {table : Table Desc} (inv : EndsInv nodes table world)
    (idle : ∀ p child, world.procs p ≠ .running child) (pc : world.pc = .spawn p) :
    EndsInv nodes table
      { world.setProc p (.running ⟨.redirectIn, world.table, 0, 0⟩) with pc := .wait p } := by
  apply inv.spawn idle pc
  · exact fun _ => Iff.rfl
  · exact fun _ => Iff.rfl
  · rfl
  · exact fun q before => .inl before
  · rintro _ ⟨⟩
    exact ⟨rfl, rfl⟩

/-- `fork` fails. -/
theorem EndsInv.noProcess {table : Table Desc} (inv : EndsInv nodes table world)
    (idle : ∀ p child, world.procs p ≠ .running child) (pc : world.pc = .spawn p) :
    EndsInv nodes table { world.setProc p .noProcess with pc := .closeIn p } := by
  apply inv.spawn idle pc
  · exact fun _ => Iff.rfl
  · exact fun _ => Iff.rfl
  · rfl
  · intro q before
    exact (Nat.lt_or_eq_of_le before).imp_right fun same => ⟨same, rfl⟩
  · rintro _ ⟨⟩

theorem IsPipeline.last (pipeline : IsPipeline nodes) {node : CmdNode}
    (at_ : nodes[p]? = some node) (noNext : node.next = none) : ¬p + 1 < nodes.length := by
  intro more
  have successor := pipeline.next p node at_
  rw [noNext, if_pos more] at successor
  cases successor

theorem IsPipeline.more (pipeline : IsPipeline nodes) {node : CmdNode} {q : Nat}
    (at_ : nodes[p]? = some node) (next : node.next = some q) : p + 1 < nodes.length := by
  by_contra last
  have successor := pipeline.next p node at_
  rw [next, if_neg last] at successor
  cases successor

/-- Every step of the shell. -/
theorem EndsInv.shellStep (pipeline : IsPipeline nodes) {table : Table Desc}
    (noPipes : NoPipes table) (inv : EndsInv nodes table world) {ok : Bool}
    (stepped : shellStep nodes ok world = some world') : EndsInv nodes table world' := by
  unfold Shell.shellStep at stepped
  have idle (notWait : ∀ p, world.pc ≠ .wait p) : ∀ p child, world.procs p ≠ .running child :=
    fun p child running => notWait p (inv.waits p child running)
  split at stepped
  next pc =>
    cases stepped
    apply inv.move (idle (by simp [pc])) pc
    · exact fun _ => Iff.rfl
    · exact fun _ => Iff.rfl
    · intro p isNode
      cases isNode
    · exact fun q before => inv.ended pc before
  next p pc =>
    have noChild := idle (by simp [pc])
    split at stepped
    next => cases stepped
    next node at_ =>
      split at stepped
      next noNext =>
        cases stepped
        have last := pipeline.last at_ noNext
        apply inv.move noChild pc
        · exact fun k => or_iff_left fun both => last both.2
        · exact fun k => iff_of_false (fun both => last both.2) id
        · intro q isNode
          cases isNode
          exact inv.node_lt pc rfl
        · exact fun q before => inv.ended pc before
      next q next =>
        cases stepped
        have more := pipeline.more at_ next
        obtain rfl := pipeline.successor at_ next
        exact inv.pipe noChild pc more
  next p pc =>
    have noChild := idle (by simp [pc])
    split at stepped
    · cases stepped
      exact inv.fork noChild pc
    · cases stepped
      exact inv.noProcess noChild pc
  next p pc =>
    split at stepped
    next exited =>
      cases stepped
      have noChild : ∀ q child, world.procs q ≠ .running child := by
        intro q child running
        have same := inv.waits q child running
        rw [pc] at same
        cases same
        rw [exited] at running
        cases running
      apply inv.move noChild pc
      · exact fun _ => Iff.rfl
      · exact fun _ => Iff.rfl
      · intro q isNode
        cases isNode
        exact inv.node_lt pc rfl
      · intro q before
        rcases Nat.lt_or_eq_of_le before with earlier | rfl
        · exact inv.ended pc earlier
        · exact .inl exited
    next => cases stepped
  next p pc =>
    have noChild := idle (by simp [pc])
    have inside : p < nodes.length := inv.node_lt pc rfl
    cases p with
    | zero =>
        rw [if_neg (not_not.mpr rfl)] at stepped
        cases stepped
        apply inv.move noChild pc
        · exact fun k => (or_iff_right (Nat.succ_ne_zero k)).symm
        · exact fun _ => Iff.rfl
        · intro q isNode
          cases isNode
          exact inside
        · exact fun q before => inv.ended pc before
    | succ p =>
        rw [if_pos (Nat.succ_ne_zero p)] at stepped
        cases stepped
        exact inv.closeRead noPipes noChild pc
  next p pc =>
    have noChild := idle (by simp [pc])
    split at stepped
    next => cases stepped
    next node at_ =>
      split at stepped
      next noNext =>
        cases stepped
        have last := pipeline.last at_ noNext
        apply inv.move noChild pc
        · exact fun k => iff_of_false id fun both => last both.2
        · exact fun k => iff_of_false id fun both => last both.2
        · intro q isNode
          cases isNode
        · intro q before
          have before : q < nodes.length := before
          exact inv.ended pc (show q ≤ p by omega)
      next q next =>
        cases stepped
        have more := pipeline.more at_ next
        obtain rfl := pipeline.successor at_ next
        exact inv.closeWrite noPipes noChild pc more
  next => cases stepped

theorem endsInv_of_reachable (pipeline : IsPipeline nodes) {table : Table Desc}
    (noPipes : NoPipes table)
    (reachable : Reachable (callWith nodes behaviour cap buffered table) world) :
    EndsInv nodes table world := by
  apply reachable.invariant
  · rintro _ rfl
    exact endsInv_start pipeline table
  · intro before act after inv stepped
    have stepped : step nodes behaviour cap buffered before act = some after := stepped
    unfold step at stepped
    split at stepped
    next ok => exact inv.shellStep pipeline noPipes stepped
    next =>
      split at stepped
      next child running => exact inv.child_step running (childStep_moves stepped)
      next => cases stepped

/-! ## What the ends are for -/

variable {table : Table Desc} {node : CmdNode}

/-- An end of a pipe is no standard descriptor. -/
theorem EndsInv.high (inv : EndsInv nodes table world) (opened : StandardOpen table)
    (noPipes : NoPipes table) {fd : Nat} {desc : Desc} (isEnd : PipeEnd nodes world fd desc) :
    3 ≤ fd := by
  by_contra few
  have low : fd ≤ 2 := Nat.le_of_lt_succ (Nat.lt_of_not_le few)
  rcases Option.ne_none_iff_exists'.mp (opened fd low) with ⟨old, found⟩
  have kept := (inv.ends fd old).mpr (.inl found)
  rw [(inv.ends fd desc).mpr (.inr isEnd), Option.some.injEq] at kept
  subst kept
  exact isEnd.fresh noPipes found

/-- When the call returns the descriptors are as they were. -/
theorem EndsInv.returned (inv : EndsInv nodes table world) (pc : world.pc = .ret) (fd : Nat) :
    world.table.lookup fd = table.lookup fd := by
  apply Option.ext
  intro desc
  rw [inv.ends]
  apply or_iff_left
  unfold PipeEnd
  rw [pc]
  cases desc with
  | readEnd k => exact And.left
  | writeEnd k => exact And.left
  | inherited n => exact id
  | opened path => exact id

/-- A program has the descriptors of both halves of `redirection`. -/
theorem EndsInv.redirected (inv : EndsInv nodes table world) (at_ : nodes[p]? = some node)
    (running : world.procs p = .running child) (ready : child.pc = .exec ∨ child.pc = .run) :
    child.table = redirect (redirect world.table node.inFile (world.inFd p) 0)
      node.outFile (world.outFd p) 1 := by
  have table := inv.child p child node running at_
  rcases ready with pc | pc <;> rw [pc] at table <;> exact table

/-- A stage without an input file reads from the pipe of the stage in front of it. -/
theorem EndsInv.stdin (inv : EndsInv nodes table world) (opened : StandardOpen table)
    (noPipes : NoPipes table) (at_ : nodes[p + 1]? = some node) (noFile : node.inFile = none)
    (running : world.procs (p + 1) = .running child) (ready : child.pc = .exec ∨ child.pc = .run) :
    child.table.lookup 0 = some (.readEnd p) := by
  have isEnd : PipeEnd nodes world (world.inFd (p + 1)) (.readEnd p) := by
    rw [PipeEnd, inv.waits (p + 1) child running]
    exact ⟨.inl rfl, rfl⟩
  have notStdin : world.inFd (p + 1) ≠ 0 := by
    have high := inv.high opened noPipes isEnd
    omega
  have reads := (inv.ends _ _).mpr (.inr isEnd)
  have input : (redirect world.table node.inFile (world.inFd (p + 1)) 0).lookup 0 =
      some (.readEnd p) := by
    rw [noFile, redirect, if_neg notStdin, Table.dup2_of_open reads, Table.lookup_put_self]
  rw [inv.redirected at_ running ready, lookup_redirect Nat.zero_ne_one (by rw [input]; exact Option.some_ne_none _), input]

/-- A stage without an output file writes to its pipe. -/
theorem EndsInv.stdout (inv : EndsInv nodes table world) (opened : StandardOpen table)
    (noPipes : NoPipes table) (at_ : nodes[p]? = some node) (more : p + 1 < nodes.length)
    (noFile : node.outFile = none) (running : world.procs p = .running child)
    (ready : child.pc = .exec ∨ child.pc = .run) :
    child.table.lookup 1 = some (.writeEnd p) := by
  have isEnd : PipeEnd nodes world (world.outFd p) (.writeEnd p) := by
    rw [PipeEnd, inv.waits p child running]
    exact ⟨⟨rfl, more⟩, rfl⟩
  have high := inv.high opened noPipes isEnd
  have notStdin : world.outFd p ≠ 0 := by omega
  have notStdout : world.outFd p ≠ 1 := by omega
  have writes := (inv.ends _ _).mpr (.inr isEnd)
  have kept : (redirect world.table node.inFile (world.inFd p) 0).lookup (world.outFd p) =
      some (.writeEnd p) := by
    rw [lookup_redirect notStdin (by rw [writes]; exact Option.some_ne_none _), writes]
  rw [inv.redirected at_ running ready, noFile, redirect, if_neg notStdout,
    Table.dup2_of_open kept, Table.lookup_put_self]

/-- A child has no write end that the shell does not have. -/
theorem holds_of_tableAt {inFd outFd k : Nat} {table table' : Table Desc} {pc : ChildPc}
    (here : TableAt node inFd outFd table table' pc) (held : table'.Holds (.writeEnd k)) :
    table.Holds (.writeEnd k) := by
  have redirected {file : Option Str} {fd std : Nat} {table : Table Desc}
      (held : (redirect table file fd std).Holds (.writeEnd k)) : table.Holds (.writeEnd k) :=
    holds_of_redirect held
  cases pc with
  | redirectIn => exact here ▸ held
  | redirectOut => exact redirected (here ▸ held)
  | exec => exact redirected (redirected (here ▸ held))
  | run => exact redirected (redirected (here ▸ held))
  | flush =>
      rcases here with same | same | same
      · exact same ▸ held
      · exact redirected (same ▸ held)
      · exact redirected (redirected (same ▸ held))

/-- From the `fork` of a stage on nobody has the write end of the pipe in front of it. -/
theorem EndsInv.not_held (inv : EndsInv nodes table world) (noPipes : NoPipes table)
    (stage : world.pc.stage = some (p + 1)) : ¬world.Held nodes (.writeEnd p) := by
  have notShell : ¬world.table.Holds (.writeEnd p) := by
    intro held
    rcases Table.holds_iff.mp held with ⟨fd, found⟩
    rcases (inv.ends fd _).mp found with old | isEnd
    · exact (noPipes p).2 (Table.holds_iff.mpr ⟨fd, old⟩)
    · have writes := isEnd.1
      cases pc : world.pc <;> rw [pc] at stage writes <;> cases stage
      all_goals exact absurd writes.1 p.lt_succ_self.ne
  rintro (held | ⟨q, inside, held⟩)
  · exact notShell held
  · split at held
    next child running =>
      exact notShell (holds_of_tableAt (inv.child q child _ running
        (List.getElem?_eq_getElem inside)) held)
    next => exact held

/-- Nothing is left open when the call returns, every stage whose `fork` succeeded has run to
its end before the shell goes on, and has the ends that it should have.  The program of a stage
comes to the end of its pipe when that is empty. -/
structure PipesConnect (nodes : List CmdNode) (table : Table Desc) (world : World) : Prop where
  returned : world.pc = .ret → ∀ fd, world.table.lookup fd = table.lookup fd
  past : ∀ p, world.pc.Past nodes.length p →
    world.procs p = .exited ∨ world.procs p = .noProcess
  stdin : ∀ p child node, nodes[p + 1]? = some node → node.inFile = none →
    world.procs (p + 1) = .running child → child.pc = .exec ∨ child.pc = .run →
      child.table.lookup 0 = some (.readEnd p)
  stdout : ∀ p child node, nodes[p]? = some node → p + 1 < nodes.length → node.outFile = none →
    world.procs p = .running child → child.pc = .exec ∨ child.pc = .run →
      child.table.lookup 1 = some (.writeEnd p)
  released : ∀ p, world.pc.stage = some (p + 1) → ¬world.Held nodes (.writeEnd p)
  endOfFile : ∀ p child node, nodes[p + 1]? = some node → node.inFile = none →
    world.procs (p + 1) = .running child → child.pc = .run → child.toRead ≠ 0 →
      world.pipes p = 0 → readStep nodes world (p + 1) child =
        some (world.setProc (p + 1) (.running { child with toRead := 0 }))

/-- In every state of a call the pipes connect the stages. -/
theorem pipes_connect (pipeline : IsPipeline nodes) (opened : StandardOpen table)
    (noPipes : NoPipes table)
    (reachable : Reachable (callWith nodes behaviour cap buffered table) world) :
    PipesConnect nodes table world := by
  have inv := endsInv_of_reachable pipeline noPipes reachable
  constructor
  · exact inv.returned
  · exact inv.past
  · intro p child node at_ noFile running ready
    exact inv.stdin opened noPipes at_ noFile running ready
  · intro p child node at_ more noFile running ready
    exact inv.stdout opened noPipes at_ more noFile running ready
  · exact fun p stage => inv.not_held noPipes stage
  · intro p child node at_ noFile running pc more empty
    have stdin := inv.stdin opened noPipes at_ noFile running (.inr pc)
    have stage : world.pc.stage = some (p + 1) := by
      rw [inv.waits (p + 1) child running]
      rfl
    have noWriter := inv.not_held noPipes stage
    rw [readStep, if_neg (by simp [pc, more]), stdin]
    dsimp only
    rw [if_neg (not_not.mpr empty), if_neg noWriter]

/-- `ls` writes one byte, and `wc` reads until it finds no more. -/
def lsWcBytes (p : Nat) : Behaviour :=
  if p = 0 then ⟨0, 1⟩ else ⟨2, 0⟩

/-- A whole run of `ls | wc`. -/
def lsWcRun : List Act :=
  [.shell true, .shell true, .setup 0 true, .setup 0 true, .setup 0 true, .write 0, .exit 0,
    .shell true, .shell true, .shell true, .shell true, .shell true, .setup 1 true,
    .setup 1 true, .setup 1 true, .read 1, .read 1, .exit 1, .shell true, .shell true,
    .shell true, .shell true]

/-- When the call has returned, and while the second stage reads from the empty pipe. -/
theorem pipes_connect_lsWc :
    (∃ world, world.pc = .ret ∧ PipesConnect lsWc standardTable world) ∧
      ∃ world, world.pc = .wait 1 ∧ world.pipes 0 = 0 ∧
        (step lsWc lsWcBytes 65536 6 world (.read 1)).isSome ∧
        PipesConnect lsWc standardTable world := by
  have first : Reachable (callWith lsWc lsWcBytes 65536 6 standardTable)
      (callOf lsWc standardTable) := .start rfl
  have connect {acts : List Act} {world : World} (ran : acts.foldlM
      (step lsWc lsWcBytes 65536 6) (callOf lsWc standardTable) = some world) :
      PipesConnect lsWc standardTable world :=
    pipes_connect lsWc_isPipeline standardTable_open standardTable_noPipes
      (first.foldlM (fun _ _ _ stepped => stepped) acts ran)
  constructor
  · have runs : ((lsWcRun.foldlM (step lsWc lsWcBytes 65536 6)
        (callOf lsWc standardTable)).any fun world => decide (world.pc = .ret)) = true := by
      decide +kernel
    rcases (Option.any_eq_true _ _).mp runs with ⟨world, ran, returned⟩
    exact ⟨world, of_decide_eq_true returned, connect ran⟩
  · have runs : (((lsWcRun.take 16).foldlM (step lsWc lsWcBytes 65536 6)
        (callOf lsWc standardTable)).any fun world => decide (world.pc = .wait 1 ∧
          world.pipes 0 = 0 ∧ (step lsWc lsWcBytes 65536 6 world (.read 1)).isSome)) = true := by
      decide +kernel
    rcases (Option.any_eq_true _ _).mp runs with ⟨world, ran, here⟩
    rcases of_decide_eq_true here with ⟨pc, empty, reads⟩
    exact ⟨world, pc, empty, reads, connect ran⟩

end NckuOs.Shell
