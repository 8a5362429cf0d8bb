import NckuOs.Shell.Stages

/-!
# The bytes of a pipeline

In every run of `fork_cmd_node` the stages so far have done what they are for, and the one
that is running is halfway.
-/

namespace NckuOs.Shell

open NckuOs.Descriptors
open NckuOs.Streams
open NckuOs.Transition

variable {σ : Type} {nodes : List CmdNode} {programs : Programs σ} {cap i o : Nat}
  {first : Store}

/-! ## The descriptors of a stage -/

/-- What `split_line` leaves and the shell starts with. -/
structure Plumbed (nodes : List CmdNode) (table : Table Desc) (i o : Nat) : Prop where
  pipeline : IsPipeline nodes
  standard : ∀ node ∈ nodes, node.inFd = 0 ∧ node.outFd = 1
  opened : StandardOpen table
  noPipes : NoPipes table
  stdin : table.lookup 0 = some (.inherited i)
  stdout : table.lookup 1 = some (.inherited o)

variable {table : Table Desc} {world world' : World} {p : Nat} {child : Child}
  {node : CmdNode}

/-- The first stage keeps standard input, the last one standard output. -/
structure EndsOpen (nodes : List CmdNode) (world : World) : Prop where
  first : world.inFd 0 = 0
  last : ∀ p, p + 1 = nodes.length → world.outFd p = 1

theorem endsOpen_start (plumbed : Plumbed nodes table i o) :
    EndsOpen nodes (callOf nodes table) := by
  have long := plumbed.pipeline.long
  constructor
  · have at_ : nodes[0]? = some nodes[0] := List.getElem?_eq_getElem (by omega)
    simp only [callOf, at_, Option.map_some, Option.getD_some]
    exact (plumbed.standard _ (List.getElem_mem _)).1
  · intro p last
    have at_ : nodes[p]? = some nodes[p] := List.getElem?_eq_getElem (by omega)
    simp only [callOf, at_, Option.map_some, Option.getD_some]
    exact (plumbed.standard _ (List.getElem_mem _)).2

theorem EndsOpen.shellStep (pipeline : IsPipeline nodes) (ends : EndsOpen nodes world) {ok : Bool}
    (stepped : shellStep nodes ok world = some world') : EndsOpen nodes world' := by
  unfold Shell.shellStep at stepped
  have same {world' : World} (inFd : world'.inFd = world.inFd)
      (outFd : world'.outFd = world.outFd) : EndsOpen nodes world' := by
    constructor
    · rw [inFd]
      exact ends.first
    · rw [outFd]
      exact ends.last
  split at stepped
  next => cases stepped; exact same rfl rfl
  next p pc =>
    split at stepped
    next => cases stepped
    next node at_ =>
      split at stepped
      next => cases stepped; exact same rfl rfl
      next q next =>
        cases stepped
        have more := pipeline.more at_ next
        obtain rfl := pipeline.successor at_ next
        constructor
        · simpa using ends.first
        · intro k last
          have other : k ≠ p := by omega
          simpa [Function.update_of_ne other] using ends.last k last
  next =>
    split at stepped
    · cases stepped; exact same rfl rfl
    · cases stepped; exact same rfl rfl
  next =>
    split at stepped
    · cases stepped; exact same rfl rfl
    · cases stepped
  next =>
    split at stepped
    · cases stepped; exact same rfl rfl
    · cases stepped; exact same rfl rfl
  next =>
    split at stepped
    next => cases stepped
    next =>
      split at stepped
      · cases stepped; exact same rfl rfl
      · cases stepped; exact same rfl rfl
  next => cases stepped

theorem lookup_openOver_self {path : Str} {std : Nat} (opened : table.lookup std ≠ none) :
    (openOver table path std).lookup std = some (.opened path) := by
  have fresh := Table.ne_lowest opened
  have found : (table.alloc (.opened path)).2.lookup table.lowest = some (.opened path) :=
    table.lookup_alloc_self _
  calc (openOver table path std).lookup std
      = ((table.alloc (.opened path)).2.dup2 table.lowest std).lookup std :=
        Table.lookup_close_of_ne _ fresh
    _ = ((table.alloc (.opened path)).2.put std (some (.opened path))).lookup std := by
        rw [Table.dup2_of_open found]
    _ = some (.opened path) := Table.lookup_put_self _ _ _

theorem EndsInv.inherits (inv : EndsInv nodes table world) {fd : Nat} {desc : Desc}
    (opened : table.lookup fd = some desc) : world.table.lookup fd = some desc :=
  (inv.ends fd desc).mpr (.inl opened)

/-- Standard input of a program is the source of its stage. -/
theorem EndsInv.source (inv : EndsInv nodes table world) (plumbed : Plumbed nodes table i o)
    (ends : EndsOpen nodes world) (at_ : nodes[p]? = some node)
    (running : world.procs p = .running child) (ready : child.pc = .exec ∨ child.pc = .run) :
    child.table.lookup 0 = some (node.source i p) := by
  have inherited := inv.inherits plumbed.stdin
  have kept {desc : Desc}
      (found : (redirect world.table node.inFile (world.inFd p) 0).lookup 0 = some desc) :
      child.table.lookup 0 = some desc := by
    rw [inv.redirected at_ running ready,
      lookup_redirect Nat.zero_ne_one (by rw [found]; exact Option.some_ne_none _), found]
  cases file : node.inFile with
  | some path =>
      have opened : (redirect world.table node.inFile (world.inFd p) 0).lookup 0 =
          some (.opened path) := by
        rw [file]
        exact lookup_openOver_self (by rw [inherited]; exact Option.some_ne_none _)
      cases p <;> simpa [CmdNode.source, file] using kept opened
  | none =>
      cases p with
      | zero =>
          have unchanged : redirect world.table node.inFile (world.inFd 0) 0 = world.table := by
            rw [file, redirect, if_pos ends.first]
          rw [← unchanged] at inherited
          simpa [CmdNode.source, file] using kept inherited
      | succ p =>
          simpa [CmdNode.source, file] using
            inv.stdin plumbed.opened plumbed.noPipes at_ file running ready

/-- Standard output of a program is the sink of its stage. -/
theorem EndsInv.sink (inv : EndsInv nodes table world) (plumbed : Plumbed nodes table i o)
    (ends : EndsOpen nodes world) (at_ : nodes[p]? = some node)
    (running : world.procs p = .running child) (ready : child.pc = .exec ∨ child.pc = .run) :
    child.table.lookup 1 = some (node.sink o nodes.length p) := by
  have inherited := inv.inherits plumbed.stdout
  have before : (redirect world.table node.inFile (world.inFd p) 0).lookup 1 =
      some (.inherited o) := by
    rw [lookup_redirect Nat.one_ne_zero (by rw [inherited]; exact Option.some_ne_none _),
      inherited]
  cases file : node.outFile with
  | some path =>
      have opened : child.table.lookup 1 = some (.opened path) := by
        rw [inv.redirected at_ running ready, file]
        exact lookup_openOver_self (by rw [before]; exact Option.some_ne_none _)
      simpa [CmdNode.sink, file] using opened
  | none =>
      by_cases more : p + 1 < nodes.length
      · simpa [CmdNode.sink, file, more] using
          inv.stdout plumbed.opened plumbed.noPipes at_ more file running ready
      · have last : p + 1 = nodes.length := by
          have inside := (List.getElem?_eq_some_iff.mp at_).1
          omega
        have unchanged : child.table = redirect world.table node.inFile (world.inFd p) 0 := by
          rw [inv.redirected at_ running ready, file, redirect, if_pos (ends.last p last)]
        simpa [CmdNode.sink, file, more, unchanged] using before

/-! ## The bytes -/

variable {flow flow' : Flow σ}

/-- The program of stage `p` has started with the store `before`, has written `written`, and
has `left` still to read. -/
structure Halfway (nodes : List CmdNode) (programs : Programs σ) (cap i o p : Nat)
    (node : CmdNode) (before : Store) (progress : Progress σ) (store : Store)
    (written left : List UInt8) : Prop where
  reaches : Reaches (programs.act p) (programs.start p) (before.front 0 (node.source i p))
    progress.state left written
  outOff : progress.outOff = written.length
  room : (node.sink o nodes.length p).Room cap written
  file : ∀ path, node.source i p = .opened path →
    left = (before.files path).drop progress.inOff
  bytes : store = (before.leave left (node.source i p)).put written (node.sink o nodes.length p)

/-- The store while the child of stage `p` goes on, when the stages in front of it have left
`before`. -/
def Amid (nodes : List CmdNode) (programs : Programs σ) (cap i o p : Nat) (node : CmdNode)
    (before : Store) (progress : Progress σ) (store : Store) : ChildPc → Prop
  | .redirectIn | .redirectOut => store = before
  | .exec => store = before.truncate node.outFile
  | .run => ∃ written left, Halfway nodes programs cap i o p node (before.truncate node.outFile)
      progress store written left
  | .flush => False

/-- What the shell has got from the stages so far, by its next statement. -/
def Computed (nodes : List CmdNode) (programs : Programs σ) (cap i o : Nat)
    (first : Store) (flow : Flow σ) : ShellPc → Prop
  | .loop (some p) | .spawn p =>
      StagesRun nodes programs cap i o first p flow.store
  | .wait p => ∃ node before, nodes[p]? = some node ∧
      StagesRun nodes programs cap i o first p before ∧
      match flow.world.procs p with
      | .notStarted | .noProcess => False
      | .running child =>
          Amid nodes programs cap i o p node before (flow.stage p) flow.store child.pc
      | .exited => StageRuns nodes programs cap i o p node before flow.store
  | .closeIn p | .closeOut p =>
      StagesRun nodes programs cap i o first (p + 1) flow.store
  | .loop none | .ret => StagesRun nodes programs cap i o first nodes.length flow.store

structure FlowInv (nodes : List CmdNode) (programs : Programs σ) (cap i o : Nat)
    (table : Table Desc) (first : Store) (flow : Flow σ) : Prop where
  ends : EndsInv nodes table flow.world
  standard : EndsOpen nodes flow.world
  computed : Computed nodes programs cap i o first flow flow.world.pc

theorem flowInv_start (plumbed : Plumbed nodes table i o) (world : flow.world = callOf nodes table)
    (store : flow.store = first) :
    FlowInv nodes programs cap i o table first flow where
  ends := by
    rw [world]
    exact endsInv_start plumbed.pipeline table
  standard := by
    rw [world]
    exact endsOpen_start plumbed
  computed := by
    rw [world]
    change StagesRun nodes programs cap i o first 0 flow.store
    rw [store]
    exact .none

/-- The shell goes on: what it has got so far is left alone. -/
theorem FlowInv.shell (plumbed : Plumbed nodes table i o)
    (inv : FlowInv nodes programs cap i o table first flow)
    (stepped : shellStep nodes true flow.world = some world') :
    FlowInv nodes programs cap i o table first { flow with world := world' } where
  ends := inv.ends.shellStep plumbed.pipeline plumbed.noPipes stepped
  standard := inv.standard.shellStep plumbed.pipeline stepped
  computed := by
    have computed := inv.computed
    have inside := inv.ends.inside
    unfold shellStep at stepped
    split at stepped
    next pc =>
      cases stepped
      rw [pc] at computed
      exact computed
    next p pc =>
      rw [pc] at computed
      split at stepped
      next => cases stepped
      next node at_ => split at stepped <;> cases stepped <;> exact computed
    next p pc =>
      rw [pc] at computed inside
      have below : p < nodes.length := inside p rfl
      have at_ : nodes[p]? = some nodes[p] := List.getElem?_eq_getElem below
      rw [if_pos rfl] at stepped
      cases stepped
      refine ⟨_, flow.store, at_, computed, ?_⟩
      simp [World.setProc, Amid]
    next p pc =>
      rw [pc] at computed
      rcases computed with ⟨node, before, at_, earlier, stage⟩
      split at stepped
      next exited =>
        cases stepped
        rw [exited] at stage
        exact .next earlier at_ stage
      next => cases stepped
    next p pc =>
      rw [pc] at computed
      split at stepped <;> cases stepped <;> exact computed
    next p pc =>
      rw [pc] at computed inside
      split at stepped
      next => cases stepped
      next node at_ =>
        split at stepped
        next noNext =>
          cases stepped
          have last := plumbed.pipeline.last at_ noNext
          have below : p < nodes.length := inside p rfl
          have all : p + 1 = nodes.length := by omega
          have run : StagesRun nodes programs cap i o first (p + 1) flow.store := computed
          rw [all] at run
          exact run
        next q next =>
          cases stepped
          obtain rfl := plumbed.pipeline.successor at_ next
          exact computed
    next => cases stepped

/-- While the shell waits for a stage it has the read end of the pipe behind it. -/
theorem EndsInv.held (inv : EndsInv nodes table world) (pc : world.pc = .wait p)
    (more : p + 1 < nodes.length) : world.Held nodes (.readEnd p) := by
  have isEnd : PipeEnd nodes world (world.inFd (p + 1)) (.readEnd p) := by
    rw [PipeEnd, pc]
    exact ⟨.inr ⟨rfl, more⟩, rfl⟩
  exact .inl (Table.holds_iff.mpr ⟨_, (inv.ends _ _).mpr (.inr isEnd)⟩)

/-- A stage reads: from the front of its source, or it has come to its end. -/
theorem Flow.readStep_cases {next : Option UInt8 → σ} {source : Desc}
    (at_ : child.table.lookup 0 = some source)
    (stepped : flow.readStep nodes p child next = some flow') :
    (∃ byte rest, flow.store.front (flow.stage p).inOff source = byte :: rest ∧
      flow' = { flow.setStage p
        ⟨next (some byte), (flow.stage p).inOff + 1, (flow.stage p).outOff⟩ with
          store := flow.store.advance source }) ∨
    (flow.store.front (flow.stage p).inOff source = [] ∧
      flow' = flow.setStage p { flow.stage p with state := next none }) := by
  unfold Flow.readStep at stepped
  rw [at_] at stepped
  dsimp only at stepped
  split at stepped
  next byte rest front =>
    cases stepped
    exact .inl ⟨byte, rest, front, rfl⟩
  next front =>
    refine .inr ⟨front, ?_⟩
    split at stepped
    · split at stepped
      · cases stepped
      · cases stepped
        rfl
    · cases stepped
      rfl

/-- A stage writes to its sink, unless nobody could read that. -/
theorem Flow.writeStep_cases {byte : UInt8} {next : σ} {sink : Desc}
    (at_ : child.table.lookup 1 = some sink)
    (held : ∀ k, sink = .writeEnd k → flow.world.Held nodes (.readEnd k))
    (stepped : flow.writeStep nodes cap p child byte next = some flow') :
    (∀ k, sink = .writeEnd k → (flow.store.pipes k).length < cap) ∧
      flow' = { flow.setStage p ⟨next, (flow.stage p).inOff, (flow.stage p).outOff + 1⟩ with
        store := flow.store.push (flow.stage p).outOff byte sink } := by
  unfold Flow.writeStep at stepped
  rw [at_] at stepped
  dsimp only at stepped
  split at stepped
  next none => cases none
  next k pipe =>
    cases pipe
    rw [if_neg (not_not.mpr (held k rfl))] at stepped
    split at stepped
    next room =>
      cases stepped
      refine ⟨?_, rfl⟩
      rintro _ ⟨⟩
      exact room
    next => cases stepped
  next other notPipe same =>
    cases same
    cases stepped
    refine ⟨?_, rfl⟩
    rintro k rfl
    exact absurd rfl (notPipe k)

namespace Halfway

variable {before store : Store} {progress : Progress σ} {written left : List UInt8}

/-- What is left is what the program finds in front of it. -/
theorem front (halfway : Halfway nodes programs cap i o p node before progress store written left)
    (apart : Apart (node.source i p) (node.sink o nodes.length p)) :
    store.front progress.inOff (node.source i p) = left := by
  rw [halfway.bytes, Store.front_put apart]
  exact Store.front_leave _ halfway.file (node.source_ne_writeEnd p)

theorem readSome {byte : UInt8} {next : Option UInt8 → σ}
    (halfway : Halfway nodes programs cap i o p node before progress store written (byte :: left))
    (apart : Apart (node.source i p) (node.sink o nodes.length p))
    (now : programs.act p progress.state = .read next) :
    Halfway nodes programs cap i o p node before
      ⟨next (some byte), progress.inOff + 1, progress.outOff⟩
      (store.advance (node.source i p)) written left where
  reaches := halfway.reaches.readSome now
  outOff := halfway.outOff
  room := halfway.room
  file path opened := by
    have drop := congrArg List.tail (halfway.file path opened)
    rwa [List.tail_cons, List.tail_drop] at drop
  bytes := by
    rw [halfway.bytes]
    exact Store.advance_put apart

theorem readEnd {next : Option UInt8 → σ}
    (halfway : Halfway nodes programs cap i o p node before progress store written [])
    (now : programs.act p progress.state = .read next) :
    Halfway nodes programs cap i o p node before { progress with state := next none } store
      written [] where
  reaches := halfway.reaches.readEnd now
  outOff := halfway.outOff
  room := halfway.room
  file := halfway.file
  bytes := halfway.bytes

theorem write {byte : UInt8} {next : σ}
    (halfway : Halfway nodes programs cap i o p node before progress store written left)
    (now : programs.act p progress.state = .write byte next)
    (room : (node.sink o nodes.length p).Room cap (written ++ [byte])) :
    Halfway nodes programs cap i o p node before ⟨next, progress.inOff, progress.outOff + 1⟩
      (store.push progress.outOff byte (node.sink o nodes.length p)) (written ++ [byte])
      left where
  reaches := halfway.reaches.write now
  outOff := by rw [halfway.outOff, List.length_append, List.length_singleton]
  room := room
  file := halfway.file
  bytes := by
    rw [halfway.bytes, halfway.outOff]
    exact Store.push_put

/-- The pipe behind the stage holds what the program has written. -/
theorem pipe (halfway : Halfway nodes programs cap i o p node before progress store written left)
    (empty : before.pipes p = []) {k : Nat} (toPipe : node.sink o nodes.length p = .writeEnd k) :
    store.pipes k = written := by
  have same : k = p := by
    by_contra other
    exact node.sink_ne other toPipe
  subst same
  have kept : (before.leave left (node.source i k)).pipes k = [] := by
    rw [Store.pipes_leave_of_ne (node.source_ne (by omega)), empty]
  rw [halfway.bytes, toPipe]
  simp [Store.put, kept]

end Halfway

/-- `execvp`: the program has all of its input in front of it. -/
theorem halfway_start (before : Store) :
    Halfway nodes programs cap i o p node (before.truncate node.outFile)
      ⟨programs.start p, 0, 0⟩ (before.truncate node.outFile) []
      ((before.truncate node.outFile).front 0 (node.source i p)) where
  reaches := Reaches.refl
  outOff := rfl
  room := by cases node.sink o nodes.length p <;> simp [Desc.Room]
  file path opened := by rw [opened]; rfl
  bytes := by
    rw [Store.leave_front, Store.put_nil]
    intro path opened
    rw [node.outFile_of_sink opened]
    exact Function.update_self _ _ _

/-- A child goes on: the shell still waits for it. -/
theorem FlowInv.waiting
    (inv : FlowInv nodes programs cap i o table first flow)
    (running : flow.world.procs p = .running child)
    (moves : ChildMoves nodes flow.world p child flow'.world)
    (computed : Computed nodes programs cap i o first flow' (.wait p)) :
    FlowInv nodes programs cap i o table first flow' := by
  have waits := inv.ends.waits p child running
  have ends := inv.ends.child_step running moves
  rcases moves with ⟨proc, pipes, moved, _⟩
  refine ⟨ends, ?_, ?_⟩
  · rw [moved]
    exact ⟨inv.standard.first, inv.standard.last⟩
  · have pc : flow'.world.pc = .wait p := by
      rw [moved]
      exact waits
    rw [pc]
    exact computed

theorem computed_running {before : Store} {child' : Child} (at_ : nodes[p]? = some node)
    (earlier : StagesRun nodes programs cap i o first p before)
    (procs : flow'.world.procs p = .running child')
    (amid : Amid nodes programs cap i o p node before (flow'.stage p) flow'.store child'.pc) :
    Computed nodes programs cap i o first flow' (.wait p) := by
  refine ⟨node, before, at_, earlier, ?_⟩
  rw [procs]
  exact amid

theorem computed_exited {before : Store} (at_ : nodes[p]? = some node)
    (earlier : StagesRun nodes programs cap i o first p before)
    (procs : flow'.world.procs p = .exited)
    (stage : StageRuns nodes programs cap i o p node before flow'.store) :
    Computed nodes programs cap i o first flow' (.wait p) := by
  refine ⟨node, before, at_, earlier, ?_⟩
  rw [procs]
  exact stage

/-- While a child is alive the stages in front of it are done. -/
theorem FlowInv.amid (inv : FlowInv nodes programs cap i o table first flow)
    (running : flow.world.procs p = .running child) :
    ∃ node before, nodes[p]? = some node ∧
      StagesRun nodes programs cap i o first p before ∧
      Amid nodes programs cap i o p node before (flow.stage p) flow.store child.pc := by
  have computed := inv.computed
  rw [inv.ends.waits p child running] at computed
  rcases computed with ⟨node, before, at_, earlier, stage⟩
  rw [running] at stage
  exact ⟨node, before, at_, earlier, stage⟩

/-- A step of a child before its program runs. -/
theorem FlowInv.setup (inv : FlowInv nodes programs cap i o table first flow)
    (running : flow.world.procs p = .running child)
    (stepped : flow.setup nodes programs p child = some flow') :
    FlowInv nodes programs cap i o table first flow' := by
  rcases inv.amid running with ⟨node, before, at_, earlier, amid⟩
  unfold Flow.setup at stepped
  rw [at_] at stepped
  rcases Option.map_eq_some_iff.mp stepped with ⟨proc, setup, rfl⟩
  apply inv.waiting running (setupStep_moves at_ setup)
  have procs : (flow.world.setProc p proc).procs p = proc := Function.update_self _ _ _
  cases pc : child.pc <;> rw [pc] at amid
  case redirectIn =>
    rw [setupStep_redirectIn pc] at setup
    cases setup
    apply computed_running at_ earlier procs
    simpa [Amid, Flow.entered, pc] using amid
  case redirectOut =>
    have same : flow.store = before := amid
    rw [setupStep_redirectOut pc] at setup
    cases setup
    apply computed_running at_ earlier procs
    simp [Amid, Flow.entered, pc, same]
  case exec =>
    have truncated : flow.store = before.truncate node.outFile := amid
    rw [setupStep_exec pc] at setup
    cases setup
    apply computed_running at_ earlier procs
    refine ⟨[], (before.truncate node.outFile).front 0 (node.source i p), ?_⟩
    simpa [Flow.entered, Flow.setStage, pc, truncated] using halfway_start before
  case run =>
    simp only [setupStep, pc] at setup
    cases setup
  case flush => exact amid.elim

theorem childMoves_same (running : world.procs p = .running child) :
    ChildMoves nodes world p child world := by
  refine ⟨.running child, world.pipes, ?_, ?_⟩
  · rw [World.setProc, ← running, Function.update_eq_self]
  · rintro _ ⟨⟩ _ _ _ here
    exact here

/-- A step of the program of the child that the shell waits for. -/
theorem FlowInv.stays {before : Store}
    (inv : FlowInv nodes programs cap i o table first flow)
    (running : flow.world.procs p = .running child) (pc : child.pc = .run)
    (at_ : nodes[p]? = some node)
    (earlier : StagesRun nodes programs cap i o first p before)
    (same : flow'.world = flow.world)
    (halfway : ∃ written left, Halfway nodes programs cap i o p node
      (before.truncate node.outFile) (flow'.stage p) flow'.store written left) :
    FlowInv nodes programs cap i o table first flow' := by
  apply inv.waiting running
  · rw [same]
    exact childMoves_same running
  · apply computed_running at_ earlier
    · rw [same]
      exact running
    · rw [pc]
      exact halfway

/-- No stage reads the file that it writes. -/
def NoneReadsItsOutput (nodes : List CmdNode) : Prop :=
  ∀ node ∈ nodes, ∀ path, node.inFile = some path → node.outFile ≠ some path

theorem FlowInv.read (plumbed : Plumbed nodes table i o) (differ : NoneReadsItsOutput nodes)
    (inv : FlowInv nodes programs cap i o table first flow)
    (running : flow.world.procs p = .running child) (pc : child.pc = .run)
    {next : Option UInt8 → σ} (now : programs.act p (flow.stage p).state = .read next)
    (stepped : flow.readStep nodes p child next = some flow') :
    FlowInv nodes programs cap i o table first flow' := by
  rcases inv.amid running with ⟨node, before, at_, earlier, amid⟩
  rw [pc] at amid
  rcases amid with ⟨written, left, halfway⟩
  have apart := CmdNode.apart (i := i) (o := o) (differ node (List.mem_of_getElem? at_))
    nodes.length p
  have source := inv.ends.source plumbed inv.standard at_ running (.inr pc)
  have front := halfway.front apart
  rcases Flow.readStep_cases source stepped with ⟨byte, rest, found, rfl⟩ | ⟨found, rfl⟩
  · rw [front] at found
    subst found
    refine inv.stays running pc at_ earlier rfl ⟨written, rest, ?_⟩
    simpa [Flow.setStage] using halfway.readSome apart now
  · rw [front] at found
    subst found
    refine inv.stays running pc at_ earlier rfl ⟨written, [], ?_⟩
    simpa [Flow.setStage] using halfway.readEnd now

theorem FlowInv.write (plumbed : Plumbed nodes table i o) (empty : ∀ k, first.pipes k = [])
    (inv : FlowInv nodes programs cap i o table first flow)
    (running : flow.world.procs p = .running child) (pc : child.pc = .run) {byte : UInt8}
    {next : σ} (now : programs.act p (flow.stage p).state = .write byte next)
    (stepped : flow.writeStep nodes cap p child byte next = some flow') :
    FlowInv nodes programs cap i o table first flow' := by
  rcases inv.amid running with ⟨node, before, at_, earlier, amid⟩
  rw [pc] at amid
  rcases amid with ⟨written, left, halfway⟩
  have waits := inv.ends.waits p child running
  have sink := inv.ends.sink plumbed inv.standard at_ running (.inr pc)
  have held : ∀ k, node.sink o nodes.length p = .writeEnd k →
      flow.world.Held nodes (.readEnd k) := by
    intro k toPipe
    rcases node.sink_eq_writeEnd toPipe with ⟨rfl, more⟩
    exact inv.ends.held waits more
  rcases Flow.writeStep_cases sink held stepped with ⟨room, rfl⟩
  refine inv.stays running pc at_ earlier rfl ⟨written ++ [byte], left, ?_⟩
  have pipes : (before.truncate node.outFile).pipes p = [] := by
    rw [Store.truncate_pipes]
    exact earlier.pipes empty p (Nat.le_refl p)
  have fits : (node.sink o nodes.length p).Room cap (written ++ [byte]) := by
    cases toPipe : node.sink o nodes.length p with
    | writeEnd k =>
        have below := room k toPipe
        rw [halfway.pipe pipes toPipe] at below
        rw [Desc.Room, List.length_append]
        exact below
    | _ => trivial
  simpa [Flow.setStage] using halfway.write now fits

theorem FlowInv.exit (inv : FlowInv nodes programs cap i o table first flow)
    (running : flow.world.procs p = .running child) (pc : child.pc = .run)
    (now : programs.act p (flow.stage p).state = .exit) :
    FlowInv nodes programs cap i o table first
      { flow with world := flow.world.setProc p .exited } := by
  rcases inv.amid running with ⟨node, before, at_, earlier, amid⟩
  rw [pc] at amid
  rcases amid with ⟨written, left, halfway⟩
  apply inv.waiting running childMoves_exited
  apply computed_exited at_ earlier (Function.update_self _ _ _)
  rw [halfway.bytes]
  exact .ran (halfway.reaches.exit now) halfway.room

theorem FlowInv.program (plumbed : Plumbed nodes table i o) (differ : NoneReadsItsOutput nodes)
    (empty : ∀ k, first.pipes k = [])
    (inv : FlowInv nodes programs cap i o table first flow)
    (running : flow.world.procs p = .running child) (pc : child.pc = .run) {act : Act}
    (stepped : flow.programStep nodes programs cap p child act = some flow') :
    FlowInv nodes programs cap i o table first flow' := by
  unfold Flow.programStep at stepped
  split at stepped
  next now => exact inv.read plumbed differ running pc now stepped
  next now => exact inv.write plumbed empty running pc now stepped
  next now =>
    cases stepped
    exact inv.exit running pc now
  next => cases stepped

theorem FlowInv.step (plumbed : Plumbed nodes table i o) (differ : NoneReadsItsOutput nodes)
    (empty : ∀ k, first.pipes k = [])
    (inv : FlowInv nodes programs cap i o table first flow) {act : Act}
    (stepped : flow.step nodes programs cap act = some flow') :
    FlowInv nodes programs cap i o table first flow' := by
  unfold Flow.step at stepped
  split at stepped
  next ok =>
    rcases Option.map_eq_some_iff.mp (Option.ite_none_right_eq_some.mp stepped).2 with
      ⟨world', moved, rfl⟩
    exact inv.shell plumbed moved
  next notShell =>
    split at stepped
    next child running =>
      have ran (program : child.pc = .run ∧
          flow.programStep nodes programs cap act.child child act = some flow') :
          FlowInv nodes programs cap i o table first flow' :=
        inv.program plumbed differ empty running program.1 program.2
      cases act with
      | shell ok => exact absurd rfl (notShell ok)
      | setup p ok => exact inv.setup running (Option.ite_none_right_eq_some.mp stepped).2
      | read p => exact ran (Option.ite_none_right_eq_some.mp stepped)
      | write p => exact ran (Option.ite_none_right_eq_some.mp stepped)
      | exit p => exact ran (Option.ite_none_right_eq_some.mp stepped)
    next => cases stepped

theorem flowInv_of_reachable (plumbed : Plumbed nodes table i o)
    (differ : NoneReadsItsOutput nodes) (empty : ∀ k, first.pipes k = [])
    (reachable : Reachable (flows nodes programs cap table first) flow) :
    FlowInv nodes programs cap i o table first flow := by
  apply reachable.invariant
  · rintro start ⟨world, store⟩
    exact flowInv_start plumbed world store
  · intro before act after inv stepped
    exact inv.step plumbed differ empty stepped

end NckuOs.Shell
