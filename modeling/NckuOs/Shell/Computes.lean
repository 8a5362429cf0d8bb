import NckuOs.Shell.Dataflow

/-!
# A pipeline computes what it is for

`fork_cmd_node` returns with the bytes where the meaning of the pipeline puts them, and it
can return with all that its meaning allows.
-/

namespace NckuOs.Shell

open NckuOs.Descriptors
open NckuOs.Streams
open NckuOs.Transition

variable {σ : Type} {nodes : List CmdNode} {programs : Programs σ} {cap i o : Nat}
  {first : Store} {table : Table Desc} {world : World} {p : Nat} {child : Child}
  {node : CmdNode} {flow : Flow σ}

/-! ## Steps that can be taken -/

/-- A step of the shell with the bytes left alone. -/
theorem reach_shell (reachable : Reachable (flows nodes programs cap table first) flow)
    {world' : World} (stepped : shellStep nodes true flow.world = some world') :
    Reachable (flows nodes programs cap table first) { flow with world := world' } := by
  have step : flow.step nodes programs cap (.shell true) =
      some { flow with world := world' } := by
    simp only [Flow.step, if_true, stepped, Option.map_some]
  exact reachable.snoc step

theorem reach_setup (reachable : Reachable (flows nodes programs cap table first) flow)
    (running : flow.world.procs p = .running child) (at_ : nodes[p]? = some node) {proc : Proc}
    (setup : setupStep node ⟨0, 0⟩ 0 (flow.world.inFd p) (flow.world.outFd p) true child =
      some proc) :
    Reachable (flows nodes programs cap table first)
      { flow.entered programs p node child with world := flow.world.setProc p proc } := by
  have step : flow.step nodes programs cap (.setup p true) =
      some { flow.entered programs p node child with world := flow.world.setProc p proc } := by
    simp only [Flow.step, Act.child, running, Flow.childStep, if_true, Flow.setup, at_, setup,
      Option.map_some]
  exact reachable.snoc step

theorem reach_program (reachable : Reachable (flows nodes programs cap table first) flow)
    (running : flow.world.procs p = .running child) (pc : child.pc = .run) {act : Act}
    (isProgram : act = .read p ∨ act = .write p ∨ act = .exit p) {flow' : Flow σ}
    (stepped : flow.programStep nodes programs cap p child act = some flow') :
    Reachable (flows nodes programs cap table first) flow' := by
  have step : flow.step nodes programs cap act = some flow' := by
    rcases isProgram with rfl | rfl | rfl <;>
      simp [Flow.step, Act.child, running, Flow.childStep, pc, stepped]
  exact reachable.snoc step

/-! ## The shell between the stages -/

/-- `pipe`, when there is a next node. -/
theorem shellStep_loop (pc : world.pc = .loop (some p)) (below : p < nodes.length) :
    ∃ world', shellStep nodes true world = some world' ∧ world'.pc = .spawn p := by
  have at_ : nodes[p]? = some nodes[p] := List.getElem?_eq_getElem below
  cases next : nodes[p].next with
  | none => exact ⟨_, by simp only [shellStep, pc, at_, next]; rfl, rfl⟩
  | some q => exact ⟨_, by simp only [shellStep, pc, at_, next]; rfl, rfl⟩

/-- The `close` of both ends, and on to the next node. -/
theorem reach_next (pipeline : IsPipeline nodes)
    (reachable : Reachable (flows nodes programs cap table first) flow)
    (pc : flow.world.pc = .closeIn p) (below : p < nodes.length) :
    ∃ flow', Reachable (flows nodes programs cap table first) flow' ∧
      flow'.world.pc = .loop (if p + 1 < nodes.length then some (p + 1) else none) ∧
      flow'.store = flow.store := by
  have at_ : nodes[p]? = some nodes[p] := List.getElem?_eq_getElem below
  have closed : ∃ world', shellStep nodes true flow.world = some world' ∧
      world'.pc = .closeOut p := by
    by_cases head : p = 0
    · exact ⟨_, by simp only [shellStep, pc, head]; rfl, by rw [head]⟩
    · exact ⟨_, by simp only [shellStep, pc, if_pos head]; rfl, rfl⟩
  rcases closed with ⟨world', stepped, pc'⟩
  have reachable' := reach_shell reachable stepped
  have next := pipeline.next p nodes[p] at_
  by_cases more : p + 1 < nodes.length
  · rw [if_pos more] at next ⊢
    have moved : shellStep nodes true world' = some
        { world' with
          table := world'.table.close (world'.outFd p), pc := .loop (some (p + 1)) } := by
      simp only [shellStep, pc', at_, next]
    exact ⟨_, reach_shell reachable' moved, rfl, rfl⟩
  · rw [if_neg more] at next ⊢
    have moved : shellStep nodes true world' = some { world' with pc := .loop none } := by
      simp only [shellStep, pc', at_, next]
    exact ⟨_, reach_shell reachable' moved, rfl, rfl⟩

/-- `waitpid` returns. -/
theorem reach_waited (reachable : Reachable (flows nodes programs cap table first) flow)
    (pc : flow.world.pc = .wait p) (exited : flow.world.procs p = .exited) :
    ∃ flow', Reachable (flows nodes programs cap table first) flow' ∧
      flow'.world.pc = .closeIn p ∧ flow'.store = flow.store := by
  have stepped : shellStep nodes true flow.world = some { flow.world with pc := .closeIn p } := by
    simp [shellStep, pc, exited]
  exact ⟨_, reach_shell reachable stepped, rfl, rfl⟩

/-! ## A stage -/

/-- `fork` and `redirection` succeed: the child is in front of `execvp`. -/
theorem reach_exec (reachable : Reachable (flows nodes programs cap table first) flow)
    (pc : flow.world.pc = .spawn p) (at_ : nodes[p]? = some node) :
    ∃ flow' child, Reachable (flows nodes programs cap table first) flow' ∧
      flow'.world.pc = .wait p ∧ flow'.world.procs p = .running child ∧ child.pc = .exec ∧
      flow'.store = flow.store.truncate node.outFile := by
  let forked : World := { flow.world.setProc p
    (.running ⟨.redirectIn, flow.world.table, 0, 0⟩) with pc := .wait p }
  have fork : shellStep nodes true flow.world = some forked := by
    simp [shellStep, pc, forked]
  have reachable₁ := reach_shell reachable fork
  have running₁ : forked.procs p = .running ⟨.redirectIn, flow.world.table, 0, 0⟩ :=
    Function.update_self _ _ _
  have reachable₂ := reach_setup reachable₁ running₁ at_ (setupStep_redirectIn rfl _ _ _)
  have reachable₃ := reach_setup reachable₂ (Function.update_self _ _ _) at_
    (setupStep_redirectOut rfl _ _ _)
  exact ⟨_, _, reachable₃, rfl, Function.update_self _ _ _, rfl, rfl⟩

theorem programStep_read {next : Option UInt8 → σ}
    (now : programs.act p (flow.stage p).state = .read next) :
    flow.programStep nodes programs cap p child (.read p) = flow.readStep nodes p child next := by
  simp only [Flow.programStep, now]

theorem programStep_write {byte : UInt8} {next : σ}
    (now : programs.act p (flow.stage p).state = .write byte next) :
    flow.programStep nodes programs cap p child (.write p) =
      flow.writeStep nodes cap p child byte next := by
  simp only [Flow.programStep, now]

/-- A read of a program that does not wait. -/
theorem readStep_front (flow : Flow σ) (p : Nat) (next : Option UInt8 → σ) {source : Desc}
    (at_ : child.table.lookup 0 = some source)
    (released : ∀ k, source = .readEnd k → ¬flow.world.Held nodes (.writeEnd k)) :
    flow.readStep nodes p child next = some
      (match flow.store.front (flow.stage p).inOff source with
      | byte :: _ => { flow.setStage p
          ⟨next (some byte), (flow.stage p).inOff + 1, (flow.stage p).outOff⟩ with
            store := flow.store.advance source }
      | [] => flow.setStage p { flow.stage p with state := next none }) := by
  rw [Flow.readStep, at_]
  dsimp only
  cases front : flow.store.front (flow.stage p).inOff source with
  | cons byte rest => rfl
  | nil =>
      cases source with
      | readEnd k => simp [released k rfl]
      | _ => rfl

/-- A write of a program that does not wait. -/
theorem writeStep_room (p : Nat) (byte : UInt8) (next : σ) {sink : Desc}
    (at_ : child.table.lookup 1 = some sink)
    (held : ∀ k, sink = .writeEnd k → flow.world.Held nodes (.readEnd k))
    (room : ∀ k, sink = .writeEnd k → (flow.store.pipes k).length < cap) :
    flow.writeStep nodes cap p child byte next = some
      { flow.setStage p ⟨next, (flow.stage p).inOff, (flow.stage p).outOff + 1⟩ with
        store := flow.store.push (flow.stage p).outOff byte sink } := by
  rw [Flow.writeStep, at_]
  dsimp only
  cases sink with
  | writeEnd k => simp [held k rfl, room k rfl]
  | _ => rfl

theorem EndsInv.released (inv : EndsInv nodes table world) (noPipes : NoPipes table)
    (running : world.procs p = .running child) {k : Nat} (fromPipe : node.source i p = .readEnd k) :
    ¬world.Held nodes (.writeEnd k) := by
  have previous : k + 1 = p := by
    by_contra other
    exact node.source_ne other fromPipe
  subst previous
  apply inv.not_held noPipes
  rw [inv.waits (k + 1) child running]
  rfl

theorem EndsInv.heldSink (inv : EndsInv nodes table world)
    (running : world.procs p = .running child) {k : Nat}
    (toPipe : node.sink o nodes.length p = .writeEnd k) : world.Held nodes (.readEnd k) := by
  rcases node.sink_eq_writeEnd toPipe with ⟨rfl, more⟩
  exact inv.held (inv.waits k child running) more

/-- The program of a stage does what it does with its input. -/
theorem reach_exited (plumbed : Plumbed nodes table i o) (differ : NoneReadsItsOutput nodes)
    (empty : ∀ k, first.pipes k = []) (at_ : nodes[p]? = some node) (pc : child.pc = .run)
    {before : Store} (clean : before.pipes p = []) {state : σ} {input output rest : List UInt8}
    (runs : Runs (programs.act p) state input output rest) {written : List UInt8}
    (reachable : Reachable (flows nodes programs cap table first) flow)
    (running : flow.world.procs p = .running child)
    (halfway : Halfway nodes programs cap i o p node before (flow.stage p) flow.store written
      input) (here : (flow.stage p).state = state)
    (room : (node.sink o nodes.length p).Room cap (written ++ output)) :
    ∃ flow', Reachable (flows nodes programs cap table first) flow' ∧
      flow'.world.pc = .wait p ∧ flow'.world.procs p = .exited ∧
      flow'.store = (before.leave rest (node.source i p)).put (written ++ output)
        (node.sink o nodes.length p) := by
  have apart := CmdNode.apart (i := i) (o := o) (differ node (List.mem_of_getElem? at_))
    nodes.length p
  induction runs generalizing flow written with
  | exit now =>
      have inv := flowInv_of_reachable plumbed differ empty reachable
      have stepped : flow.programStep nodes programs cap p child (.exit p) =
          some { flow with world := flow.world.setProc p .exited } := by
        simp only [Flow.programStep, here, now]
      have exited := reach_program reachable running pc (.inr (.inr rfl)) stepped
      refine ⟨_, exited, inv.ends.waits p child running, Function.update_self _ _ _, ?_⟩
      rw [List.append_nil]
      exact halfway.bytes
  | @readSome state next byte input output rest now later ih =>
      have inv := flowInv_of_reachable plumbed differ empty reachable
      have source := inv.ends.source plumbed inv.standard at_ running (.inr pc)
      have read := readStep_front flow p next source
        fun k => inv.ends.released plumbed.noPipes running
      rw [halfway.front apart] at read
      subst here
      have reachable' := reach_program reachable running pc (.inl rfl)
        ((programStep_read now).trans read)
      apply ih reachable' running _ _ room
      · simpa [Flow.setStage] using halfway.readSome apart now
      · simp [Flow.setStage]
  | @readEnd state next output rest now later ih =>
      have inv := flowInv_of_reachable plumbed differ empty reachable
      have source := inv.ends.source plumbed inv.standard at_ running (.inr pc)
      have read := readStep_front flow p next source
        fun k => inv.ends.released plumbed.noPipes running
      rw [halfway.front apart] at read
      subst here
      have reachable' := reach_program reachable running pc (.inl rfl)
        ((programStep_read now).trans read)
      apply ih reachable' running _ _ room
      · simpa [Flow.setStage] using halfway.readEnd now
      · simp [Flow.setStage]
  | @write state next byte input output rest now later ih =>
      have inv := flowInv_of_reachable plumbed differ empty reachable
      have sink := inv.ends.sink plumbed inv.standard at_ running (.inr pc)
      have whole : written ++ byte :: output = written ++ [byte] ++ output := by simp
      rw [whole] at room ⊢
      have fits : ∀ k, node.sink o nodes.length p = .writeEnd k →
          written.length + 1 + output.length ≤ cap := by
        intro k toPipe
        rw [toPipe] at room
        rwa [Desc.Room, List.length_append, List.length_append, List.length_singleton] at room
      have notFull : ∀ k, node.sink o nodes.length p = .writeEnd k →
          (flow.store.pipes k).length < cap := by
        intro k toPipe
        have below := fits k toPipe
        rw [halfway.pipe clean toPipe]
        omega
      have wrote := writeStep_room p byte next sink
        (fun k => inv.ends.heldSink running) notFull
      have roomNow : (node.sink o nodes.length p).Room cap (written ++ [byte]) := by
        cases toPipe : node.sink o nodes.length p with
        | writeEnd k =>
            have below := fits k toPipe
            rw [Desc.Room, List.length_append, List.length_singleton]
            omega
        | _ => trivial
      subst here
      have reachable' := reach_program reachable running pc (.inr (.inl rfl))
        ((programStep_write now).trans wrote)
      apply ih reachable' running _ _ room
      · simpa [Flow.setStage] using halfway.write now roomNow
      · simp [Flow.setStage]

/-- A stage can do all that it is for. -/
theorem reach_stage (plumbed : Plumbed nodes table i o) (differ : NoneReadsItsOutput nodes)
    (empty : ∀ k, first.pipes k = []) (at_ : nodes[p]? = some node)
    (reachable : Reachable (flows nodes programs cap table first) flow)
    (pc : flow.world.pc = .loop (some p)) {store' : Store}
    (stage : StageRuns nodes programs cap i o p node flow.store store') :
    ∃ flow', Reachable (flows nodes programs cap table first) flow' ∧
      flow'.world.pc = .loop (if p + 1 < nodes.length then some (p + 1) else none) ∧
      flow'.store = store' := by
  have below := (List.getElem?_eq_some_iff.mp at_).1
  have clean : flow.store.pipes p = [] := by
    have inv := flowInv_of_reachable plumbed differ empty reachable
    have computed := inv.computed
    rw [pc] at computed
    exact StagesRun.pipes empty computed p (Nat.le_refl p)
  rcases shellStep_loop pc below with ⟨piped, stepped, pcSpawn⟩
  have spawned := reach_shell reachable stepped
  rcases stage with @⟨written, left, runs, room⟩
  rcases reach_exec spawned pcSpawn at_ with
    ⟨ready, child, reachable', waits, running, pcExec, store⟩
  have started := reach_setup reachable' running at_ (setupStep_exec pcExec _ _ _)
  have halfway : Halfway nodes programs cap i o p node (flow.store.truncate node.outFile)
      ((ready.entered programs p node child).stage p)
      (ready.entered programs p node child).store []
      ((flow.store.truncate node.outFile).front 0 (node.source i p)) := by
    simpa [Flow.entered, Flow.setStage, pcExec, store] using halfway_start flow.store
  have state : ((ready.entered programs p node child).stage p).state = programs.start p := by
    simp [Flow.entered, Flow.setStage, pcExec]
  have truncated : (flow.store.truncate node.outFile).pipes p = [] := by
    rw [Store.truncate_pipes, clean]
  rcases reach_exited plumbed differ empty at_ rfl truncated runs started
    (Function.update_self _ _ _) halfway state room with
    ⟨done, reachable'', waits', exited, bytes⟩
  rcases reach_waited reachable'' waits' exited with ⟨waited, reached, pc', store'⟩
  rcases reach_next plumbed.pipeline reached pc' below with ⟨flow', last, next, same⟩
  exact ⟨flow', last, next, same.trans (store'.trans bytes)⟩

/-- The stages, one after the other. -/
theorem reach_stages (plumbed : Plumbed nodes table i o) (differ : NoneReadsItsOutput nodes)
    (empty : ∀ k, first.pipes k = []) {store : Store}
    (stages : StagesRun nodes programs cap i o first p store) :
    ∃ flow, Reachable (flows nodes programs cap table first) flow ∧
      flow.world.pc = .loop (if p < nodes.length then some p else none) ∧
      flow.store = store := by
  induction stages with
  | none =>
      have some : 0 < nodes.length := Nat.lt_of_lt_of_le Nat.zero_lt_two plumbed.pipeline.long
      rw [if_pos some]
      exact ⟨⟨callOf nodes table, fun p => ⟨programs.start p, 0, 0⟩, first⟩,
        .start ⟨rfl, rfl⟩, rfl, rfl⟩
  | @next p node store store' earlier at_ stage ih =>
      rcases ih with ⟨flow, reachable, pc, rfl⟩
      rw [if_pos (List.getElem?_eq_some_iff.mp at_).1] at pc
      exact reach_stage plumbed differ empty at_ reachable pc stage

/-- The last `return`. -/
theorem reach_ret (plumbed : Plumbed nodes table i o) (differ : NoneReadsItsOutput nodes)
    (empty : ∀ k, first.pipes k = []) {last : Store}
    (stages : StagesRun nodes programs cap i o first nodes.length last) :
    ∃ flow, Reachable (flows nodes programs cap table first) flow ∧
      flow.world.pc = .ret ∧ flow.store = last := by
  rcases reach_stages plumbed differ empty stages with ⟨flow, reachable, pc, store⟩
  rw [if_neg (lt_irrefl nodes.length)] at pc
  have returns : shellStep nodes true flow.world = some { flow.world with pc := .ret } := by
    simp [shellStep, pc]
  exact ⟨_, reach_shell reachable returns, rfl, store⟩

theorem stagesRun_of_ret (plumbed : Plumbed nodes table i o) (differ : NoneReadsItsOutput nodes)
    (empty : ∀ k, first.pipes k = [])
    (reachable : Reachable (flows nodes programs cap table first) flow)
    (pc : flow.world.pc = .ret) :
    StagesRun nodes programs cap i o first nodes.length flow.store := by
  have computed := (flowInv_of_reachable plumbed differ empty reachable).computed
  rw [pc] at computed
  exact computed

/-- A program that writes some bytes, and one that copies its input. -/
inductive Relay
  | emit (bytes : List UInt8)
  | copy
  | hold (byte : UInt8)
  | done

def Relay.act : Relay → Action Relay UInt8
  | .emit [] => .exit
  | .emit (byte :: bytes) => .write byte (.emit bytes)
  | .copy => .read fun
      | none => .done
      | some byte => .hold byte
  | .hold byte => .write byte .copy
  | .done => .exit

theorem Relay.runs_emit (bytes input : List UInt8) :
    Runs Relay.act (.emit bytes) input bytes input := by
  induction bytes with
  | nil => exact .exit rfl
  | cons byte bytes ih => exact .write rfl ih

theorem Relay.runs_copy (input : List UInt8) : Runs Relay.act .copy input input [] := by
  induction input with
  | nil => exact .readEnd rfl (.exit rfl)
  | cons byte input ih => exact .readSome rfl (.write rfl ih)

/-- The first stage prints, every other one copies. -/
def printThenCopy (bytes : List UInt8) : Programs Relay where
  start
    | 0 => .emit bytes
    | _ + 1 => .copy
  act _ := Relay.act

def noBytes : Store where
  files _ := []
  input _ := []
  output _ := []
  pipes _ := []

theorem lsWc_plumbed : Plumbed lsWc standardTable 0 1 where
  pipeline := lsWc_isPipeline
  standard node isMem := by
    simp only [lsWc, List.mem_cons, List.not_mem_nil, or_false] at isMem
    rcases isMem with rfl | rfl <;> exact ⟨rfl, rfl⟩
  opened := standardTable_open
  noPipes := standardTable_noPipes
  stdin := rfl
  stdout := rfl

theorem lsWc_noFiles : ∀ node ∈ lsWc, node.inFile = none ∧ node.outFile = none := by
  intro node isMem
  simp only [lsWc, List.mem_cons, List.not_mem_nil, or_false] at isMem
  rcases isMem with rfl | rfl <;> exact ⟨rfl, rfl⟩

end NckuOs.Shell
