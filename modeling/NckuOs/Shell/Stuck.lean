import NckuOs.Shell.Capacity

/-!
# Pipelines that get stuck

Whether a pipeline can get stuck is decided by the output of each stage that writes to
a pipe, and by what is in the buffer of the shell's standard output, which a child whose
`open` or `execvp` fails writes in `exit`: when one of them is more than the pipe holds there
is a run of `fork_cmd_node` to a stuck state, and otherwise there is none.
-/

namespace NckuOs.Shell

open NckuOs.Descriptors
open NckuOs.Transition

variable {nodes : List CmdNode} {behaviour : Nat → Behaviour} {cap buffered : Nat}

/-- No stage writes more to its pipe than the pipe holds. -/
def FitsPipes (nodes : List CmdNode) (behaviour : Nat → Behaviour) (cap : Nat) : Prop :=
  ∀ p node, nodes[p]? = some node → node.next ≠ none → node.outFile = none →
    (behaviour p).writes ≤ cap

/-- A pipe never gets full before its stage has written everything. -/
theorem PipeInv.not_stuck {world : World} (inv : PipeInv nodes behaviour buffered world)
    (fits : FitsPipes nodes behaviour cap) (few : buffered ≤ cap) : ¬Stuck nodes cap world := by
  rintro ⟨p, child, k, node, q, _, running, writes, toWrite, stdout, _, full, at_, next, _⟩
  have childInv := inv.child p child running
  have own : k = p := (childInv.ends k (Table.holds_iff.mpr ⟨1, stdout⟩)).1
  subst own
  have written := childInv.written
  rcases writes with pc | pc
  · have noFile : node.outFile = none := by
      by_contra file
      exact childInv.file (.inr pc) node at_ file k stdout
    have hasNext : node.next ≠ none := by
      rw [next]
      exact Option.some_ne_none q
    have fewer := fits k node at_ hasNext noFile
    rw [pc, ChildPc.total] at written
    omega
  · rw [pc, ChildPc.total] at written
    omega

/-- Every run keeps the invariant. -/
theorem pipeInv_of_reachable (pipeline : IsPipeline nodes) {world : World}
    (reachable : Reachable (running nodes behaviour cap buffered) world) :
    PipeInv nodes behaviour buffered world := by
  apply reachable.invariant
  · rintro start ⟨table, noPipes, rfl⟩
    exact pipeInv_start noPipes
  · intro before act after inv stepped
    exact pipeInv_step pipeline inv stepped

/-! ## A run to a stuck state -/

/-- The standard descriptors are open. -/
def StandardOpen (table : Table Desc) : Prop :=
  ∀ fd ≤ 2, table.lookup fd ≠ none

/-- A table with nothing but the standard descriptors. -/
def standardTable : Table Desc :=
  [some (.inherited 0), some (.inherited 1), some (.inherited 2)]

theorem standardTable_open : StandardOpen standardTable := by
  intro fd few
  match fd, few with
  | 0, _ => decide
  | 1, _ => decide
  | 2, _ => decide

theorem standardTable_noPipes : NoPipes standardTable := by
  intro k
  constructor <;> simp [Table.Holds, standardTable]

namespace StandardOpen

variable {table : Table Desc}

theorem lowest (opened : StandardOpen table) : 3 ≤ table.lowest := by
  by_contra few
  exact opened table.lowest (Nat.le_of_lt_succ (Nat.lt_of_not_le few)) table.lookup_lowest

theorem alloc (opened : StandardOpen table) (desc : Desc) :
    StandardOpen (table.alloc desc).2 := by
  intro fd few
  rw [Table.lookup_alloc_of_open (opened fd few)]
  exact opened fd few

theorem close (opened : StandardOpen table) {closed : Nat} (high : 3 ≤ closed) :
    StandardOpen (table.close closed) := by
  intro fd few
  rw [Table.lookup_close_of_ne table (Nat.ne_of_lt (Nat.lt_of_le_of_lt few high))]
  exact opened fd few

end StandardOpen

/-- A redirection of the input leaves every other open descriptor. -/
theorem lookup_redirect {table : Table Desc} {fd' std : Nat} (other : fd' ≠ std)
    (opened : table.lookup fd' ≠ none) (file : Option Str) (fd : Nat) :
    (redirect table file fd std).lookup fd' = table.lookup fd' := by
  cases file with
  | some path =>
      have fresh := Table.ne_lowest opened
      calc (openOver table path std).lookup fd'
          = ((table.alloc (.opened path)).2.dup2 table.lowest std).lookup fd' :=
            Table.lookup_close_of_ne _ fresh
        _ = (table.alloc (.opened path)).2.lookup fd' := Table.lookup_dup2_of_ne _ other _
        _ = table.lookup fd' := Table.lookup_alloc_of_open opened _
  | none =>
      unfold redirect
      split
      next isFile => cases isFile
      next =>
        split
        · rfl
        · exact Table.lookup_dup2_of_ne _ other _

/-- The shell comes to a node, no stage having been started. -/
structure AtNode (p : Nat) (world : World) : Prop where
  pc : world.pc = .loop (some p)
  opened : StandardOpen world.table
  inFd : p ≠ 0 → 3 ≤ world.inFd p
  procs : ∀ k, p ≤ k → world.procs k = .notStarted
  pipes : world.pipes = fun _ => 0

theorem atNode_start : AtNode 0 (callOf nodes standardTable) where
  pc := rfl
  opened := standardTable_open
  inFd later := absurd rfl later
  procs _ _ := rfl
  pipes := rfl

/-- The shell has created the pipe of a node. -/
structure AtSpawn (p q : Nat) (world : World) : Prop where
  pc : world.pc = .spawn p
  opened : StandardOpen world.table
  inFd : p ≠ 0 → 3 ≤ world.inFd p
  nextFd : 3 ≤ world.inFd q
  outFd : 3 ≤ world.outFd p
  reads : world.table.lookup (world.inFd q) = some (.readEnd p)
  writes : world.table.lookup (world.outFd p) = some (.writeEnd p)
  procs : ∀ k, p ≤ k → world.procs k = .notStarted
  pipes : world.pipes = fun _ => 0

variable {p q : Nat} {node : CmdNode} {world : World} {child : Child}

/-- `pipe`. -/
theorem AtNode.pipe (at_ : nodes[p]? = some node) (next : node.next = some q) (other : p ≠ q)
    (atNode : AtNode p world)
    (reachable : Reachable (running nodes behaviour cap buffered) world) :
    ∃ world', Reachable (running nodes behaviour cap buffered) world' ∧ AtSpawn p q world' := by
  let reads := world.table.alloc (.readEnd p)
  let writes := reads.2.alloc (.writeEnd p)
  let piped : World := { world with
    table := writes.2
    outFd := Function.update world.outFd p writes.1
    inFd := Function.update world.inFd q reads.1
    pc := .spawn p }
  have stepped : step nodes behaviour cap buffered world (.shell true) = some piped := by
    simp only [step, shellStep, atNode.pc, at_, next]
    rfl
  refine ⟨piped, reachable.snoc stepped, ?_⟩
  have readsOpen : StandardOpen reads.2 := atNode.opened.alloc _
  have inFdNext : piped.inFd q = reads.1 := Function.update_self q reads.1 world.inFd
  have outFd : piped.outFd p = writes.1 := Function.update_self p writes.1 world.outFd
  have readsLookup : reads.2.lookup reads.1 = some (.readEnd p) :=
    Table.lookup_alloc_self world.table _
  constructor
  · rfl
  · exact readsOpen.alloc _
  · intro later
    have same : piped.inFd p = world.inFd p := Function.update_of_ne other _ _
    rw [same]
    exact atNode.inFd later
  · rw [inFdNext]
    exact atNode.opened.lowest
  · rw [outFd]
    exact readsOpen.lowest
  · rw [inFdNext, ← readsLookup]
    apply Table.lookup_alloc_of_open
    rw [readsLookup]
    exact Option.some_ne_none _
  · rw [outFd]
    exact Table.lookup_alloc_self reads.2 _
  · exact atNode.procs
  · exact atNode.pipes

/-- `fork` fails, and the shell goes on to the next node. -/
theorem AtSpawn.skip (at_ : nodes[p]? = some node) (next : node.next = some q) (later : p < q)
    (atSpawn : AtSpawn p q world)
    (reachable : Reachable (running nodes behaviour cap buffered) world) :
    ∃ world', Reachable (running nodes behaviour cap buffered) world' ∧ AtNode q world' := by
  let failed : World := { world.setProc p .noProcess with pc := .closeIn p }
  have first : step nodes behaviour cap buffered world (.shell false) = some failed := by
    simp only [step, shellStep, atSpawn.pc]
    rfl
  let closed : World :=
    { world.setProc p .noProcess with
      table := if p ≠ 0 then world.table.close (world.inFd p) else world.table
      pc := .closeOut p }
  have second : step nodes behaviour cap buffered failed (.shell true) = some closed := by
    simp only [step, shellStep, failed, closed]
    split <;> rfl
  let last : World := { closed with
    table := closed.table.close (world.outFd p)
    pc := .loop (some q) }
  have third : step nodes behaviour cap buffered closed (.shell true) = some last := by
    simp only [step, shellStep, closed, at_, next]
    rfl
  refine ⟨last, ((reachable.snoc first).snoc second).snoc third, ?_⟩
  have closedOpen : StandardOpen closed.table := by
    by_cases later : p ≠ 0
    · simp only [closed, if_pos later]
      exact atSpawn.opened.close (atSpawn.inFd later)
    · simp only [closed, if_neg later]
      exact atSpawn.opened
  constructor
  · rfl
  · exact closedOpen.close atSpawn.outFd
  · intro _
    exact atSpawn.nextFd
  · intro k behind
    have other : k ≠ p := (Nat.lt_of_lt_of_le later behind).ne'
    exact (Function.update_of_ne other _ _).trans (atSpawn.procs k (later.le.trans behind))
  · exact atSpawn.pipes

/-- A stage has written `n` of `total` bytes to its pipe, and nobody reads. -/
structure Writing (now : ChildPc) (total p q n : Nat) (world : World) : Prop where
  pc : world.pc = .wait p
  reader : world.table.Holds (.readEnd p)
  child : ∃ table toRead, table.lookup 1 = some (.writeEnd p) ∧
    world.procs p = .running ⟨now, table, toRead, total - n⟩
  notStarted : world.procs q = .notStarted
  pipe : world.pipes p = n

theorem setupStep_redirectIn (pc : child.pc = .redirectIn) (program : Behaviour)
    (inFd outFd : Nat) : setupStep node program buffered inFd outFd true child = some (.running
      { child with pc := .redirectOut, table := redirect child.table node.inFile inFd 0 }) := by
  simp [setupStep, pc]

theorem setupStep_redirectOut (pc : child.pc = .redirectOut) (program : Behaviour)
    (inFd outFd : Nat) : setupStep node program buffered inFd outFd true child = some (.running
      { child with pc := .exec, table := redirect child.table node.outFile outFd 1 }) := by
  simp [setupStep, pc]

theorem setupStep_exec (pc : child.pc = .exec) (program : Behaviour) (inFd outFd : Nat) :
    setupStep node program buffered inFd outFd true child =
      some (.running ⟨.run, child.table, program.reads, program.writes⟩) := by
  simp [setupStep, pc]

/-- Where a child can fail: a file for the standard descriptor, or `execvp`. -/
def ChildPc.Fails (node : CmdNode) : ChildPc → Prop
  | .redirectIn => node.inFile ≠ none
  | .redirectOut => node.outFile ≠ none
  | .exec => True
  | .run | .flush => False

theorem setupStep_fails (fails : child.pc.Fails node) (program : Behaviour)
    (inFd outFd : Nat) :
    setupStep node program buffered inFd outFd false child = some (child.exits buffered) := by
  unfold ChildPc.Fails at fails
  split at fails
  next pc => simp [setupStep, pc, Option.isSome_iff_ne_none, fails]
  next pc => simp [setupStep, pc, Option.isSome_iff_ne_none, fails]
  next pc => simp [setupStep, pc]
  next => exact fails.elim
  next => exact fails.elim

theorem World.setProc_setProc (world : World) (p : Nat) (proc proc' : Proc) :
    (world.setProc p proc).setProc p proc' = world.setProc p proc' := by
  rw [World.setProc, World.setProc, World.setProc, Function.update_idem]

/-- A step of a child before its program runs. -/
theorem reachable_setup (at_ : nodes[p]? = some node) {ok : Bool} {proc : Proc}
    (reachable : Reachable (running nodes behaviour cap buffered)
      (world.setProc p (.running child)))
    (setup : setupStep node (behaviour p) buffered (world.inFd p) (world.outFd p) ok child =
      some proc) :
    Reachable (running nodes behaviour cap buffered) (world.setProc p proc) := by
  have runs : (world.setProc p (.running child)).procs p = .running child :=
    Function.update_self p _ world.procs
  have stepped : step nodes behaviour cap buffered (world.setProc p (.running child))
      (.setup p ok) = some (world.setProc p proc) := by
    have setup' : setupStep node (behaviour p) buffered
        ((world.setProc p (.running child)).inFd p)
        ((world.setProc p (.running child)).outFd p) ok child = some proc := setup
    simp only [step, Act.child, runs, childStep, at_, setup', Option.map_some,
      World.setProc_setProc]
  exact reachable.snoc stepped

/-- `fork`, `redirection` and `execvp` of a stage without a file for its output. -/
theorem AtSpawn.start (at_ : nodes[p]? = some node) (noFile : node.outFile = none)
    (later : p < q) (atSpawn : AtSpawn p q world)
    (reachable : Reachable (running nodes behaviour cap buffered) world) :
    ∃ world', Reachable (running nodes behaviour cap buffered) world' ∧
      Writing .run (behaviour p).writes p q 0 world' := by
  let waiting : World := { world with pc := .wait p }
  let input := redirect world.table node.inFile (world.inFd p) 0
  let output := redirect input node.outFile (world.outFd p) 1
  have fork : step nodes behaviour cap buffered world (.shell true) =
      some (waiting.setProc p (.running ⟨.redirectIn, world.table, 0, 0⟩)) := by
    simp only [step, shellStep, atSpawn.pc]
    rfl
  have forked := reachable.snoc fork
  have redirectedIn := reachable_setup at_ forked (setupStep_redirectIn rfl _ _ _)
  have redirected := reachable_setup at_ redirectedIn (setupStep_redirectOut rfl _ _ _)
  have started := reachable_setup at_ redirected (setupStep_exec rfl _ _ _)
  refine ⟨_, started, ?_⟩
  have opened : world.table.lookup (world.outFd p) ≠ none := by
    rw [atSpawn.writes]
    exact Option.some_ne_none _
  have high := atSpawn.outFd
  have inputLookup : input.lookup (world.outFd p) = some (.writeEnd p) := by
    rw [← atSpawn.writes]
    exact lookup_redirect (by omega) opened _ _
  have outputLookup : output.lookup 1 = some (.writeEnd p) := by
    have notStdout : world.outFd p ≠ 1 := by omega
    simp only [output, redirect, noFile, if_neg notStdout]
    rw [Table.dup2_of_open inputLookup, Table.lookup_put_self]
  constructor
  · rfl
  · exact Table.holds_iff.mpr ⟨world.inFd q, atSpawn.reads⟩
  · exact ⟨output, (behaviour p).reads, outputLookup, Function.update_self p _ world.procs⟩
  · exact (Function.update_of_ne later.ne' _ _).trans (atSpawn.procs q later.le)
  · exact congrFun atSpawn.pipes p

/-- A child fails, and comes to `exit`. -/
theorem reachable_exits (at_ : nodes[p]? = some node)
    (reachable : Reachable (running nodes behaviour cap buffered)
      (world.setProc p (.running child))) (fails : child.pc.Fails node) :
    Reachable (running nodes behaviour cap buffered)
      (world.setProc p (.running ⟨.flush, child.table, 0, buffered⟩)) :=
  reachable_setup at_ reachable (setupStep_fails fails _ _ _)

/-- A child whose standard output is open can come to `exit` with that. -/
theorem exit_reachable (at_ : nodes[p]? = some node) {table : Table Desc} {desc : Desc}
    (stdout : table.lookup 1 = some desc) (outFd : world.outFd p = 1)
    (reachable : Reachable (running nodes behaviour cap buffered)
      (world.setProc p (.running ⟨.redirectIn, table, 0, 0⟩))) :
    ∃ table', table'.lookup 1 = some desc ∧
      Reachable (running nodes behaviour cap buffered)
        (world.setProc p (.running ⟨.flush, table', 0, buffered⟩)) := by
  by_cases inFile : node.inFile = none
  · let input := redirect table node.inFile (world.inFd p) 0
    have inputLookup : input.lookup 1 = some desc := by
      rw [← stdout]
      apply lookup_redirect Nat.one_ne_zero
      rw [stdout]
      exact Option.some_ne_none _
    have redirectedIn := reachable_setup at_ reachable (setupStep_redirectIn rfl _ _ _)
    by_cases outFile : node.outFile = none
    · have redirected := reachable_setup at_ redirectedIn (setupStep_redirectOut rfl _ _ _)
      have same : redirect input node.outFile (world.outFd p) 1 = input := by
        rw [outFile, redirect, if_pos outFd]
      refine ⟨_, ?_, reachable_exits at_ redirected trivial⟩
      exact (congrArg (Table.lookup · 1) same).trans inputLookup
    · exact ⟨_, inputLookup, reachable_exits at_ redirectedIn outFile⟩
  · exact ⟨table, stdout, reachable_exits at_ reachable inFile⟩

theorem IsPipeline.head (pipeline : IsPipeline nodes) :
    ∃ node, nodes[0]? = some node ∧ node.next = some 1 := by
  have inside : 0 < nodes.length := Nat.lt_of_lt_of_le Nat.zero_lt_two pipeline.long
  have at_ : nodes[0]? = some nodes[0] := List.getElem?_eq_getElem inside
  have next := pipeline.next 0 nodes[0] at_
  rw [if_pos (Nat.lt_of_lt_of_le Nat.one_lt_two pipeline.long)] at next
  exact ⟨nodes[0], at_, next⟩

/-- When the shell has closed its standard descriptors, the first pipe takes their place, and
the first stage can come to `exit` with its standard output in that pipe. -/
theorem flush_reachable (pipeline : IsPipeline nodes) :
    ∃ world, Reachable (running nodes behaviour cap buffered) world ∧
      Writing .flush buffered 0 1 0 world := by
  rcases pipeline.head with ⟨node, at_, next⟩
  let start : World := callOf nodes []
  let table : Table Desc := [some (.readEnd 0), some (.writeEnd 0)]
  let piped : World := { start with
    table := table
    outFd := Function.update start.outFd 0 1
    inFd := Function.update start.inFd 1 0
    pc := .spawn 0 }
  let waiting : World := { piped with pc := .wait 0 }
  have pipe : step nodes behaviour cap buffered start (.shell true) = some piped := by
    simp only [step, shellStep, start, callOf, at_, next]
    rfl
  have fork : step nodes behaviour cap buffered piped (.shell true) =
      some (waiting.setProc 0 (.running ⟨.redirectIn, table, 0, 0⟩)) := by
    simp only [step, shellStep, piped]
    rfl
  have noPipes : NoPipes [] := by
    intro k
    constructor <;> exact List.not_mem_nil
  have first : Reachable (running nodes behaviour cap buffered) start :=
    .start ⟨[], noPipes, rfl⟩
  have forked := (first.snoc pipe).snoc fork
  have open_ : table.lookup 1 = some (.writeEnd 0) := rfl
  rcases exit_reachable at_ open_ rfl forked with ⟨table', stdout, exits⟩
  refine ⟨_, exits, ?_⟩
  constructor
  · rfl
  · exact Table.holds_iff.mpr ⟨0, rfl⟩
  · exact ⟨table', 0, stdout, Function.update_self 0 _ waiting.procs⟩
  · rfl
  · rfl

/-- A byte goes into a pipe that is not full. -/
theorem Writing.write {now : ChildPc} {total n : Nat} (writes : now = .run ∨ now = .flush)
    (notFull : n < cap) (more : n < total) (writing : Writing now total p q n world)
    (reachable : Reachable (running nodes behaviour cap buffered) world) (other : p ≠ q) :
    ∃ world', Reachable (running nodes behaviour cap buffered) world' ∧
      Writing now total p q (n + 1) world' := by
  rcases writing.child with ⟨table, toRead, stdout, runs⟩
  let proc := Proc.running ⟨now, table, toRead, total - (n + 1)⟩
  let wrote : World := { world.setProc p proc with
    pipes := Function.update world.pipes p (world.pipes p + 1) }
  have left : total - n ≠ 0 := by omega
  have enabled : ¬((now ≠ .run ∧ now ≠ .flush) ∨ total - n = 0) := by
    rintro (neither | none)
    · exact writes.elim neither.1 neither.2
    · exact left none
  have held : world.Held nodes (.readEnd p) := .inl writing.reader
  have room : world.pipes p < cap := by
    rw [writing.pipe]
    exact notFull
  have stepped : step nodes behaviour cap buffered world (.write p) = some wrote := by
    simp only [step, Act.child, runs, childStep, writeStep, enabled, if_false, stdout, held,
      not_true_eq_false, room, if_true]
    rfl
  have ran : wrote.procs p = proc := by
    change Function.update world.procs p proc p = proc
    exact Function.update_self p proc world.procs
  have counted : wrote.pipes p = world.pipes p + 1 := Function.update_self p _ world.pipes
  refine ⟨wrote, reachable.snoc stepped, ?_⟩
  constructor
  · exact writing.pc
  · exact writing.reader
  · exact ⟨table, toRead, stdout, ran⟩
  · exact (Function.update_of_ne other.symm _ _).trans writing.notStarted
  · rw [counted, writing.pipe]

/-- A stage fills its pipe. -/
theorem Writing.fill {now : ChildPc} {total n : Nat} (writes : now = .run ∨ now = .flush)
    (few : n ≤ cap) (more : cap < total) (other : p ≠ q)
    (writing : Writing now total p q 0 world)
    (reachable : Reachable (running nodes behaviour cap buffered) world) :
    ∃ world', Reachable (running nodes behaviour cap buffered) world' ∧
      Writing now total p q n world' := by
  induction n with
  | zero => exact ⟨world, reachable, writing⟩
  | succ n ih =>
      rcases ih (Nat.le_of_succ_le few) with ⟨middle, reached, writing'⟩
      exact writing'.write writes few (Nat.lt_trans few more) reached other

/-- With a full pipe and bytes left the pipeline is stuck. -/
theorem Writing.stuck {now : ChildPc} {total : Nat} (writes : now = .run ∨ now = .flush)
    (more : cap < total) (at_ : nodes[p]? = some node) (next : node.next = some q)
    (writing : Writing now total p q cap world) : Stuck nodes cap world := by
  rcases writing.child with ⟨table, toRead, stdout, runs⟩
  refine ⟨p, _, p, node, q, writing.pc, runs, writes, ?_, stdout, .inl writing.reader,
    writing.pipe.ge, at_, next, writing.notStarted⟩
  exact Nat.sub_ne_zero_of_lt more

/-- The successor of a node that has one. -/
theorem IsPipeline.successor (pipeline : IsPipeline nodes) (at_ : nodes[p]? = some node)
    (next : node.next = some q) : q = p + 1 := by
  have successor := pipeline.next p node at_
  rw [next] at successor
  split at successor
  · cases successor
    rfl
  · cases successor

/-- The shell can come to every node without a stage started. -/
theorem atNode_reachable (pipeline : IsPipeline nodes) (inside : p < nodes.length) :
    ∃ world, Reachable (running nodes behaviour cap buffered) world ∧ AtNode p world := by
  induction p with
  | zero =>
      have start : (running nodes behaviour cap buffered).init (callOf nodes standardTable) :=
        ⟨standardTable, standardTable_noPipes, rfl⟩
      exact ⟨callOf nodes standardTable, .start start, atNode_start⟩
  | succ p ih =>
      rcases ih (Nat.lt_of_succ_lt inside) with ⟨world, reachable, atNode⟩
      have at_ := List.getElem?_eq_getElem (Nat.lt_of_succ_lt inside)
      have next := pipeline.next p _ at_
      rw [if_pos inside] at next
      rcases atNode.pipe at_ next p.lt_succ_self.ne reachable with ⟨_, piped, atSpawn⟩
      exact atSpawn.skip at_ next p.lt_succ_self piped

/-- A stage that writes more than its pipe holds can get stuck. -/
theorem stage_gets_stuck (pipeline : IsPipeline nodes) (at_ : nodes[p]? = some node)
    (hasNext : node.next ≠ none) (noFile : node.outFile = none)
    (more : cap < (behaviour p).writes) :
    ∃ world, Reachable (running nodes behaviour cap buffered) world ∧ Stuck nodes cap world := by
  rcases Option.ne_none_iff_exists'.mp hasNext with ⟨q, next⟩
  have later : p < q := by
    rw [pipeline.successor at_ next]
    exact p.lt_succ_self
  rcases List.getElem?_eq_some_iff.mp at_ with ⟨inside, _⟩
  have comes : ∃ world, Reachable (running nodes behaviour cap buffered) world ∧ AtNode p world :=
    atNode_reachable pipeline inside
  rcases comes with ⟨_, atNodeReached, atNode⟩
  rcases atNode.pipe at_ next later.ne atNodeReached with ⟨_, spawnReached, atSpawn⟩
  rcases atSpawn.start at_ noFile later spawnReached with ⟨_, started, writing⟩
  rcases writing.fill (.inl rfl) (le_refl cap) more later.ne started with ⟨world, filled, full⟩
  exact ⟨world, filled, full.stuck (.inl rfl) more at_ next⟩

/-- A stage without a program that has more to write in `exit` than its pipe holds can get
stuck. -/
theorem exit_gets_stuck (pipeline : IsPipeline nodes) (more : cap < buffered) :
    ∃ world, Reachable (running nodes behaviour cap buffered) world ∧ Stuck nodes cap world := by
  rcases pipeline.head with ⟨node, at_, next⟩
  have comes : ∃ world, Reachable (running nodes behaviour cap buffered) world ∧
      Writing .flush buffered 0 1 0 world :=
    flush_reachable pipeline
  rcases comes with ⟨_, exits, writing⟩
  rcases writing.fill (.inr rfl) (le_refl cap) more Nat.zero_ne_one exits with
    ⟨world, filled, full⟩
  exact ⟨world, filled, full.stuck (.inr rfl) more at_ next⟩

/-! ## The condition -/

theorem linked_length (stages : List Stage) (k : Nat) :
    (linked k stages).length = stages.length := by
  induction stages generalizing k with
  | nil => rfl
  | cons stage rest ih =>
      cases rest with
      | nil => rfl
      | cons second rest =>
          rw [linked_cons_cons, List.length_cons, ih]
          rfl

theorem linked_next (stages : List Stage) {k i : Nat}
    (at_ : (linked k stages)[i]? = some node) :
    node.next = if i + 1 < stages.length then some (k + i + 1) else none := by
  induction stages generalizing k i with
  | nil => cases at_
  | cons stage rest ih =>
      cases rest with
      | nil =>
          cases i with
          | zero =>
              cases at_
              rfl
          | succ i => cases at_
      | cons second rest =>
          rw [linked_cons_cons] at at_
          cases i with
          | zero =>
              cases at_
              rw [if_pos (by simp)]
              rfl
          | succ i =>
              rw [List.getElem?_cons_succ] at at_
              have shifted := ih at_
              rw [Nat.add_right_comm k 1 i] at shifted
              by_cases inside : i + 1 < (second :: rest).length
              · have inside' : i + 1 + 1 < (stage :: second :: rest).length :=
                  Nat.succ_lt_succ inside
                rw [shifted, if_pos inside, if_pos inside']
                rfl
              · have outside : ¬i + 1 + 1 < (stage :: second :: rest).length :=
                  fun inside' => inside (Nat.lt_of_succ_lt_succ inside')
                rw [shifted, if_neg inside, if_neg outside]

/-- What `split_line` makes of two or more commands is a pipeline. -/
theorem linked_isPipeline {stages : List Stage} (two : 2 ≤ stages.length) :
    IsPipeline (linked 0 stages) where
  long := by
    rw [linked_length]
    exact two
  next k node at_ := by
    rw [linked_next stages at_, linked_length, Nat.zero_add]

/-- The runs of `fork_cmd_node` never get stuck exactly when every stage that writes to a
pipe writes no more than the pipe holds, and the shell has no more than that in the buffer of
its standard output. -/
theorem pipeline_never_stuck_iff (pipeline : IsPipeline nodes) :
    (∀ world, Reachable (running nodes behaviour cap buffered) world → ¬Stuck nodes cap world) ↔
      FitsPipes nodes behaviour cap ∧ buffered ≤ cap := by
  constructor
  · intro never
    constructor
    · intro p node at_ hasNext noFile
      by_contra more
      rcases stage_gets_stuck pipeline at_ hasNext noFile (Nat.lt_of_not_le more) with
        ⟨world, reachable, stuck⟩
      exact never world reachable stuck
    · by_contra more
      rcases exit_gets_stuck pipeline (Nat.lt_of_not_le more) with ⟨world, reachable, stuck⟩
      exact never world reachable stuck
  · rintro ⟨fits, few⟩ world reachable
    exact (pipeInv_of_reachable pipeline reachable).not_stuck fits few

/-- `ls | wc`. -/
def lsWc : List CmdNode :=
  [nodeOf [.arg [108, 115]] (some 1), nodeOf [.arg [119, 99]] none]

theorem lsWc_isPipeline : IsPipeline lsWc where
  long := le_refl 2
  next k node at_ := by
    match k, at_ with
    | 0, rfl => rfl
    | 1, rfl => rfl

/-- A first command that writes 65536 bytes, or the six of the prompt when there is no such
command, and pipes that hold as many. -/
theorem pipeline_never_stuck_fullPipe :
    IsPipeline lsWc ∧
      ∀ world, Reachable (running lsWc (fun _ => ⟨0, 65536⟩) 65536 6) world →
        ¬Stuck lsWc 65536 world := by
  constructor
  · exact lsWc_isPipeline
  · apply (pipeline_never_stuck_iff lsWc_isPipeline).mpr
    constructor
    · exact fun _ _ _ _ _ => le_refl 65536
    · decide

/-- One byte more, and the shell waits for ever. -/
theorem one_byte_more_gets_stuck :
    IsPipeline lsWc ∧
      ∃ world, Reachable (running lsWc (fun _ => ⟨0, 65537⟩) 65536 6) world ∧
        Stuck lsWc 65536 world := by
  constructor
  · exact lsWc_isPipeline
  · have first : lsWc[0]? = some (nodeOf [.arg [108, 115]] (some 1)) := rfl
    exact stage_gets_stuck lsWc_isPipeline first (Option.some_ne_none 1) rfl
      (Nat.lt_succ_self 65536)

end NckuOs.Shell
