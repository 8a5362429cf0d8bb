import NckuOs.Shell.Pipeline
import NckuOs.Shell.RoundTrip

/-!
# When a pipeline gets stuck

Only the stage of a node writes to its pipe, and nobody reads before it has exited.  So
a stage gets stuck exactly when it writes more than its pipe can hold.
-/

namespace NckuOs.Shell

open NckuOs.Descriptors
open NckuOs.Transition

/-! ## What redirection leaves open -/

theorem holds_of_put {table : Table Desc} {fd : Nat} {entry : Option Desc} {desc : Desc}
    (held : (table.put fd entry).Holds desc) : table.Holds desc ∨ entry = some desc := by
  rcases Table.holds_iff.mp held with ⟨fd', found⟩
  rw [Table.lookup_put] at found
  split at found
  · exact .inr found
  · exact .inl (Table.holds_iff.mpr ⟨fd', found⟩)

theorem holds_of_dup2 {table : Table Desc} {old new : Nat} {desc : Desc}
    (held : (table.dup2 old new).Holds desc) : table.Holds desc := by
  rcases Table.holds_iff.mp held with ⟨fd, found⟩
  rcases Table.lookup_dup2 found with same | ⟨_, same⟩
  · exact Table.holds_iff.mpr ⟨fd, same⟩
  · exact Table.holds_iff.mpr ⟨old, same⟩

theorem holds_of_close {table : Table Desc} {fd : Nat} {desc : Desc}
    (held : (table.close fd).Holds desc) : table.Holds desc := by
  rcases holds_of_put held with same | closed
  · exact same
  · cases closed

/-- A redirection opens no pipe. -/
theorem holds_of_redirect {table : Table Desc} {file : Option Str} {fd std k : Nat}
    (held : (redirect table file fd std).Holds (.writeEnd k)) : table.Holds (.writeEnd k) := by
  cases file with
  | some path =>
      rcases holds_of_put (holds_of_dup2 (holds_of_close held)) with same | opened
      · exact same
      · cases opened
  | none =>
      by_cases same : fd = std
      · simpa only [redirect, if_pos same] using held
      · simp only [redirect, if_neg same] at held
        exact holds_of_dup2 held

/-- Behind a redirection to a file the standard descriptor is no pipe. -/
theorem lookup_openOver {table : Table Desc} {path : Str} {std k : Nat} :
    (openOver table path std).lookup std ≠ some (.writeEnd k) := by
  intro found
  unfold openOver Table.close Table.alloc at found
  dsimp only at found
  rw [Table.lookup_put] at found
  split at found
  · cases found
  · rw [Table.dup2_of_open (Table.lookup_put_self _ _ _), Table.lookup_put_self] at found
    cases found

/-! ## The invariant -/

variable {nodes : List CmdNode} {behaviour : Nat → Behaviour} {cap buffered : Nat}

/-- The node that the shell is at, once its pipe exists. -/
def ShellPc.stage : ShellPc → Option Nat
  | .loop _ => none
  | .spawn p => some p
  | .wait p => some p
  | .closeIn p => some p
  | .closeOut p => some p
  | .ret => none

/-- The nodes from `p` on have no process yet. -/
def ShellPc.Unstarted (pc : ShellPc) (p : Nat) : Prop :=
  match pc with
  | .loop (some q) => q ≤ p
  | .loop none => False
  | .spawn q => q ≤ p
  | .wait q => q < p
  | .closeIn q => q < p
  | .closeOut q => q < p
  | .ret => False

/-- The node has a successor. -/
def HasNext (nodes : List CmdNode) (p : Nat) : Prop :=
  ∃ node q, nodes[p]? = some node ∧ node.next = some q

/-- How many bytes a child writes in all at this place. -/
def ChildPc.total (behaviour : Behaviour) (buffered : Nat) : ChildPc → Nat
  | .redirectIn | .redirectOut | .exec => 0
  | .run => behaviour.writes
  | .flush => buffered

/-- What a child may write to, and how much it has written. -/
structure ChildInv (nodes : List CmdNode) (behaviour : Nat → Behaviour) (buffered inPipe p : Nat)
    (child : Child) : Prop where
  ends : ∀ k, child.table.Holds (.writeEnd k) → k = p ∧ HasNext nodes p
  file : child.pc = .exec ∨ child.pc = .run → ∀ node, nodes[p]? = some node →
    node.outFile ≠ none → ∀ k, child.table.lookup 1 ≠ some (.writeEnd k)
  written : inPipe + child.toWrite ≤ child.pc.total (behaviour p) buffered

theorem ChildInv.mono {inPipe inPipe' p : Nat} {child : Child}
    (inv : ChildInv nodes behaviour buffered inPipe p child) (fewer : inPipe' ≤ inPipe) :
    ChildInv nodes behaviour buffered inPipe' p child where
  ends := inv.ends
  file := inv.file
  written := (Nat.add_le_add_right fewer _).trans inv.written

/-- `redirection` of the standard input. -/
theorem ChildInv.redirectIn {inPipe p : Nat} {child : Child}
    (inv : ChildInv nodes behaviour buffered inPipe p child) (pc : child.pc = .redirectIn)
    (file : Option Str) (fd : Nat) :
    ChildInv nodes behaviour buffered inPipe p
      { child with pc := .redirectOut, table := redirect child.table file fd 0 } where
  ends k held := inv.ends k (holds_of_redirect held)
  file atExec := by
    rcases atExec with eq | eq
    · cases eq
    · cases eq
  written := by
    have written := inv.written
    rw [pc] at written
    exact written

/-- `redirection` of the standard output. -/
theorem ChildInv.redirectOut {inPipe p : Nat} {child : Child}
    (inv : ChildInv nodes behaviour buffered inPipe p child) (pc : child.pc = .redirectOut)
    {node : CmdNode} (at_ : nodes[p]? = some node) (fd : Nat) :
    ChildInv nodes behaviour buffered inPipe p
      { child with pc := .exec, table := redirect child.table node.outFile fd 1 } where
  ends k held := inv.ends k (holds_of_redirect held)
  file _ node' at_' file k found := by
    rw [at_] at at_'
    cases at_'
    rcases Option.ne_none_iff_exists'.mp file with ⟨path, isFile⟩
    simp only [isFile] at found
    exact lookup_openOver found
  written := by
    have written := inv.written
    rw [pc] at written
    exact written

/-- Before its program runs, or `exit`, a stage has written nothing. -/
theorem ChildInv.early {inPipe p : Nat} {child : Child}
    (inv : ChildInv nodes behaviour buffered inPipe p child)
    (before : child.pc.total (behaviour p) buffered = 0) : inPipe = 0 := by
  have written := inv.written
  rw [before] at written
  exact (Nat.add_eq_zero_iff.mp (Nat.le_zero.mp written)).1

/-- `execvp`. -/
theorem ChildInv.exec {inPipe p : Nat} {child : Child}
    (inv : ChildInv nodes behaviour buffered inPipe p child) (pc : child.pc = .exec) :
    ChildInv nodes behaviour buffered inPipe p
      ⟨.run, child.table, (behaviour p).reads, (behaviour p).writes⟩ where
  ends := inv.ends
  file _ := inv.file (.inl pc)
  written := by
    rw [inv.early (by rw [pc]; rfl), Nat.zero_add]
    exact Nat.le_refl _

/-- `exit`, when `open` or `execvp` fails. -/
theorem ChildInv.flush {inPipe p : Nat} {child : Child}
    (inv : ChildInv nodes behaviour buffered inPipe p child)
    (before : child.pc.total (behaviour p) buffered = 0) :
    ChildInv nodes behaviour buffered inPipe p ⟨.flush, child.table, 0, buffered⟩ where
  ends := inv.ends
  file atExec := by
    rcases atExec with eq | eq
    · cases eq
    · cases eq
  written := by
    rw [inv.early before, Nat.zero_add]
    exact Nat.le_refl _

/-- The program of a stage, or `exit`, has fewer bytes to read or to write. -/
theorem ChildInv.ran {inPipe inPipe' p toRead toWrite : Nat} {child : Child}
    (inv : ChildInv nodes behaviour buffered inPipe p child)
    (moved : inPipe' + toWrite ≤ inPipe + child.toWrite) :
    ChildInv nodes behaviour buffered inPipe' p
      { child with toRead := toRead, toWrite := toWrite } where
  ends := inv.ends
  file := inv.file
  written := moved.trans inv.written

/-- What a step leaves of a stage. -/
def ProcInv (nodes : List CmdNode) (behaviour : Nat → Behaviour) (buffered inPipe p : Nat)
    (proc : Proc) : Prop :=
  proc = .exited ∨
    ∃ child, proc = .running child ∧ ChildInv nodes behaviour buffered inPipe p child

theorem ChildInv.exits {inPipe p : Nat} {child : Child}
    (inv : ChildInv nodes behaviour buffered inPipe p child)
    (before : child.pc.total (behaviour p) buffered = 0) :
    ProcInv nodes behaviour buffered inPipe p (child.exits buffered) :=
  .inr ⟨_, rfl, inv.flush before⟩

/-- The write end that the shell has is that of the current node; a pipe holds no more
than its stage has written. -/
structure PipeInv (nodes : List CmdNode) (behaviour : Nat → Behaviour) (buffered : Nat)
    (world : World) : Prop where
  ends : ∀ fd k, world.table.lookup fd = some (.writeEnd k) →
    world.pc.stage = some k ∧ fd = world.outFd k ∧ HasNext nodes k
  unstarted : ∀ p, world.pc.Unstarted p → world.procs p = .notStarted
  empty : ∀ p, world.procs p = .notStarted → world.pipes p = 0
  child : ∀ p child, world.procs p = .running child →
    ChildInv nodes behaviour buffered (world.pipes p) p child

theorem pipeInv_start {table : Table Desc} (noPipes : NoPipes table) :
    PipeInv nodes behaviour buffered (callOf nodes table) where
  ends fd k found := absurd (Table.holds_iff.mpr ⟨fd, found⟩) (noPipes k).2
  unstarted _ _ := rfl
  empty _ _ := rfl
  child p child running := by cases running

namespace PipeInv

variable {world : World}

/-- A step of the shell that touches no process. -/
theorem shell_step (inv : PipeInv nodes behaviour buffered world) {world' : World}
    (ends : ∀ fd k, world'.table.lookup fd = some (.writeEnd k) →
      world'.pc.stage = some k ∧ fd = world'.outFd k ∧ HasNext nodes k)
    (unstarted : ∀ p, world'.pc.Unstarted p → world.pc.Unstarted p)
    (procs : world'.procs = world.procs) (pipes : world'.pipes = world.pipes) :
    PipeInv nodes behaviour buffered world' where
  ends := ends
  unstarted p holds := by
    rw [procs]
    exact inv.unstarted p (unstarted p holds)
  empty p holds := by
    rw [procs] at holds
    rw [pipes]
    exact inv.empty p holds
  child p child holds := by
    rw [procs] at holds
    rw [pipes]
    exact inv.child p child holds

/-- Going on to the next statement, with no more open than before. -/
theorem advance (inv : PipeInv nodes behaviour buffered world) {pc' : ShellPc} {table' : Table Desc}
    (fewer : ∀ fd k, table'.lookup fd = some (.writeEnd k) →
      world.table.lookup fd = some (.writeEnd k) ∧ pc'.stage = some k)
    (unstarted : ∀ p, pc'.Unstarted p → world.pc.Unstarted p) :
    PipeInv nodes behaviour buffered { world with table := table', pc := pc' } := by
  apply inv.shell_step
  · intro fd k found
    rcases fewer fd k found with ⟨before, stage⟩
    exact ⟨stage, (inv.ends fd k before).2⟩
  · exact unstarted
  · rfl
  · rfl

/-- Going on to the next statement of the same node. -/
theorem move (inv : PipeInv nodes behaviour buffered world) {pc pc' : ShellPc}
    (atPc : world.pc = pc) (stage : ∀ k, pc.stage = some k → pc'.stage = some k)
    (unstarted : ∀ p, pc'.Unstarted p → pc.Unstarted p) :
    PipeInv nodes behaviour buffered { world with pc := pc' } := by
  apply inv.advance
  · intro fd k found
    exact ⟨found, stage k (atPc ▸ (inv.ends fd k found).1)⟩
  · rw [atPc]
    exact unstarted

/-- `pipe`, when the node has a successor. -/
theorem loop_next (inv : PipeInv nodes behaviour buffered world) {p q : Nat} {node : CmdNode}
    (pc : world.pc = .loop (some p)) (at_ : nodes[p]? = some node)
    (next : node.next = some q) :
    let reads := world.table.alloc (.readEnd p)
    let writes := reads.2.alloc (.writeEnd p)
    PipeInv nodes behaviour buffered { world with
      table := writes.2
      outFd := Function.update world.outFd p writes.1
      inFd := Function.update world.inFd q reads.1
      pc := .spawn p } := by
  intro reads writes
  apply inv.shell_step
  · intro fd k found
    have found : (reads.2.put writes.1 (some (.writeEnd p))).lookup fd = some (.writeEnd k) :=
      found
    rw [Table.lookup_put] at found
    split at found
    next same =>
      cases found
      constructor
      · rfl
      · constructor
        · rw [same]
          exact (Function.update_self p writes.1 world.outFd).symm
        · exact ⟨node, q, at_, next⟩
    next =>
      have found : (world.table.put reads.1 (some (.readEnd p))).lookup fd =
          some (.writeEnd k) := found
      rw [Table.lookup_put] at found
      split at found
      · cases found
      · have noStage := (inv.ends fd k found).1
        rw [pc] at noStage
        cases noStage
  · intro p' holds
    rw [pc]
    exact holds
  · rfl
  · rfl

/-- What `fork` leaves of the current stage. -/
theorem spawn (inv : PipeInv nodes behaviour buffered world) {p : Nat} {proc : Proc}
    {pc' : ShellPc} (pc : world.pc = .spawn p) (stage : pc'.stage = some p)
    (behind : ∀ p', pc'.Unstarted p' → p < p') (started : proc ≠ .notStarted)
    (kept : ∀ child, proc = .running child →
      ChildInv nodes behaviour buffered (world.pipes p) p child) :
    PipeInv nodes behaviour buffered { world.setProc p proc with pc := pc' } where
  ends fd k found := by
    rcases inv.ends fd k found with ⟨now, same, hasNext⟩
    rw [pc] at now
    cases now
    exact ⟨stage, same, hasNext⟩
  unstarted p' holds := by
    have later := behind p' holds
    have before : world.pc.Unstarted p' := by
      rw [pc]
      exact later.le
    exact (Function.update_of_ne later.ne' _ _).trans (inv.unstarted p' before)
  empty p' holds := by
    by_cases same : p' = p
    · rw [same] at holds
      exact absurd ((Function.update_self p _ world.procs).symm.trans holds) started
    · exact inv.empty p' ((Function.update_of_ne same _ _).symm.trans holds)
  child p' child holds := by
    by_cases same : p' = p
    · subst same
      exact kept child ((Function.update_self p' _ world.procs).symm.trans holds)
    · exact inv.child p' child ((Function.update_of_ne same _ _).symm.trans holds)

/-- `fork`: the child has what the shell has. -/
theorem fork (inv : PipeInv nodes behaviour buffered world) {p : Nat}
    (pc : world.pc = .spawn p) :
    PipeInv nodes behaviour buffered
      { world.setProc p (.running ⟨.redirectIn, world.table, 0, 0⟩) with pc := .wait p } := by
  apply inv.spawn pc rfl (fun _ => id) (by rintro ⟨⟩)
  rintro child ⟨⟩
  constructor
  · intro k held
    rcases Table.holds_iff.mp held with ⟨fd, found⟩
    rcases inv.ends fd k found with ⟨stage, _, hasNext⟩
    rw [pc] at stage
    cases stage
    exact ⟨rfl, hasNext⟩
  · rintro (atExec | atRun)
    · cases atExec
    · cases atRun
  · have notStarted : world.procs p = .notStarted := by
      apply inv.unstarted
      rw [pc]
      exact le_refl p
    exact (inv.empty p notStarted).le

/-- A step of one child takes bytes out of any pipe, but puts none into another's. -/
theorem child_step (inv : PipeInv nodes behaviour buffered world) {p : Nat} {child : Child}
    {proc : Proc} {pipes : Nat → Nat} (running : world.procs p = .running child)
    (others : ∀ k, k ≠ p → pipes k ≤ world.pipes k)
    (kept : ProcInv nodes behaviour buffered (pipes p) p proc) :
    PipeInv nodes behaviour buffered { world.setProc p proc with pipes := pipes } where
  ends := inv.ends
  unstarted p' holds := by
    have notStarted := inv.unstarted p' holds
    have other : p' ≠ p := by
      rintro rfl
      rw [running] at notStarted
      cases notStarted
    exact (Function.update_of_ne other _ _).trans notStarted
  empty p' holds := by
    have holds : Function.update world.procs p proc p' = .notStarted := holds
    by_cases same : p' = p
    · rw [same, Function.update_self] at holds
      rcases kept with exited | ⟨child', running', _⟩
      · rw [exited] at holds
        cases holds
      · rw [running'] at holds
        cases holds
    · rw [Function.update_of_ne same] at holds
      exact Nat.le_zero.mp (inv.empty p' holds ▸ others p' same)
  child p' child' holds := by
    have holds : Function.update world.procs p proc p' = .running child' := holds
    by_cases same : p' = p
    · subst same
      rw [Function.update_self] at holds
      rcases kept with exited | ⟨child'', running', inv'⟩
      · rw [exited] at holds
        cases holds
      · rw [running'] at holds
        cases holds
        exact inv'
    · rw [Function.update_of_ne same] at holds
      exact (inv.child p' child' holds).mono (others p' same)

/-- A step of a child that moves no byte. -/
theorem setProc (inv : PipeInv nodes behaviour buffered world) {p : Nat} {child : Child}
    {proc : Proc} (running : world.procs p = .running child)
    (kept : ProcInv nodes behaviour buffered (world.pipes p) p proc) :
    PipeInv nodes behaviour buffered (world.setProc p proc) :=
  inv.child_step running (fun _ _ => le_refl _) kept

/-- Before its program runs, a child only redirects, or goes to `exit`. -/
theorem setup (inv : PipeInv nodes behaviour buffered world) {p : Nat} {node : CmdNode}
    {child : Child} {inFd outFd : Nat} {ok : Bool} {proc : Proc} (at_ : nodes[p]? = some node)
    (running : world.procs p = .running child)
    (step : setupStep node (behaviour p) buffered inFd outFd ok child = some proc) :
    PipeInv nodes behaviour buffered (world.setProc p proc) := by
  have childInv := inv.child p child running
  apply inv.setProc running
  unfold setupStep at step
  split at step
  next atIn =>
    split at step
    · cases step
      exact childInv.exits (by rw [atIn]; rfl)
    · cases step
      exact .inr ⟨_, rfl, childInv.redirectIn atIn _ _⟩
  next atOut =>
    split at step
    · cases step
      exact childInv.exits (by rw [atOut]; rfl)
    · cases step
      exact .inr ⟨_, rfl, childInv.redirectOut atOut at_ _⟩
  next atExec =>
    split at step
    · cases step
      exact .inr ⟨_, rfl, childInv.exec atExec⟩
    · cases step
      exact childInv.exits (by rw [atExec]; rfl)
  next => cases step
  next => cases step

/-- A program reads a byte, or comes to the end of its input. -/
theorem read (inv : PipeInv nodes behaviour buffered world) {p : Nat} {child : Child}
    {world' : World} (running : world.procs p = .running child)
    (step : readStep nodes world p child = some world') :
    PipeInv nodes behaviour buffered world' := by
  have childInv := inv.child p child running
  unfold readStep at step
  split at step
  · cases step
  next =>
    have moved {inPipe toRead : Nat} (fewer : inPipe ≤ world.pipes p) :
        ProcInv nodes behaviour buffered inPipe p (.running { child with toRead := toRead }) :=
      .inr ⟨_, rfl, childInv.ran (Nat.add_le_add_right fewer _)⟩
    split at step
    next k _ =>
      split at step
      · cases step
        have fewer (k' : Nat) :
            Function.update world.pipes k (world.pipes k - 1) k' ≤ world.pipes k' := by
          by_cases same : k' = k
          · rw [same, Function.update_self]
            exact Nat.sub_le _ _
          · rw [Function.update_of_ne same]
        exact inv.child_step running (fun k' _ => fewer k') (moved (fewer p))
      · split at step
        · cases step
        · cases step
          exact inv.setProc running (moved (le_refl _))
    next =>
      cases step
      exact inv.setProc running (moved (le_refl _))
    next =>
      cases step
      exact inv.setProc running (moved (le_refl _))
    next =>
      cases step
      exact inv.setProc running (moved (le_refl _))

/-- A program writes a byte; when it goes to a pipe, that is the pipe of the stage. -/
theorem write (inv : PipeInv nodes behaviour buffered world) {p : Nat} {child : Child}
    {world' : World} (running : world.procs p = .running child)
    (step : writeStep nodes cap world p child = some world') :
    PipeInv nodes behaviour buffered world' := by
  have childInv := inv.child p child running
  unfold writeStep at step
  split at step
  · cases step
  next enabled =>
    have toWrite : child.toWrite ≠ 0 := by
      intro none
      exact enabled (.inr none)
    have moved {inPipe toWrite : Nat}
        (fewer : inPipe + toWrite ≤ world.pipes p + child.toWrite) :
        ProcInv nodes behaviour buffered inPipe p (.running { child with toWrite := toWrite }) :=
      .inr ⟨_, rfl, childInv.ran fewer⟩
    split at step
    next k stdout =>
      split at step
      · cases step
        exact inv.setProc running (.inl rfl)
      · split at step
        · cases step
          have own : k = p := (childInv.ends k (Table.holds_iff.mpr ⟨1, stdout⟩)).1
          subst own
          apply inv.child_step running
          · intro k' other
            rw [Function.update_of_ne other]
          · apply moved
            rw [Function.update_self]
            omega
        · cases step
    next =>
      cases step
      exact inv.setProc running (moved (by omega))
    next =>
      cases step
      exact inv.setProc running (moved (by omega))
    next =>
      cases step
      exact inv.setProc running (moved (by omega))

/-- Any step of a child. -/
theorem childStep (inv : PipeInv nodes behaviour buffered world) {p : Nat} {act : Act}
    {child : Child} {world' : World} (running : world.procs p = .running child)
    (step : childStep nodes behaviour cap buffered world p act child = some world') :
    PipeInv nodes behaviour buffered world' := by
  unfold Shell.childStep at step
  split at step
  · split at step
    · cases step
    next at_ =>
      rcases Option.map_eq_some_iff.mp step with ⟨proc, stepped, rfl⟩
      exact inv.setup at_ running stepped
  · exact inv.read running step
  · exact inv.write running step
  · split at step
    · cases step
      exact inv.setProc running (.inl rfl)
    · cases step
  · cases step

/-- Any step of the shell. -/
theorem shellStep (inv : PipeInv nodes behaviour buffered world) (pipeline : IsPipeline nodes)
    {ok : Bool} {world' : World} (step : shellStep nodes ok world = some world') :
    PipeInv nodes behaviour buffered world' := by
  unfold Shell.shellStep at step
  split at step
  next pc =>
    cases step
    apply inv.move pc
    · intro k stage
      cases stage
    · intro p holds
      cases holds
  next p pc =>
    split at step
    · cases step
    next node at_ =>
      split at step
      · cases step
        apply inv.move pc
        · intro k stage
          cases stage
        · exact fun _ => id
      next q next =>
        cases step
        exact inv.loop_next pc at_ next
  next p pc =>
    split at step
    · cases step
      exact inv.fork pc
    · cases step
      exact inv.spawn pc rfl (fun _ => id) (by rintro ⟨⟩) (by rintro _ ⟨⟩)
  next p pc =>
    split at step
    · cases step
      exact inv.move pc (fun _ => id) (fun _ => id)
    · cases step
  next p pc =>
    split at step
    · cases step
      apply inv.advance
      · intro fd k found
        rw [Table.close, Table.lookup_put] at found
        split at found
        · cases found
        · have stage := (inv.ends fd k found).1
          rw [pc] at stage
          exact ⟨found, stage⟩
      · rw [pc]
        exact fun _ => id
    · cases step
      exact inv.move pc (fun _ => id) (fun _ => id)
  next p pc =>
    split at step
    · cases step
    next node at_ =>
      split at step
      next last =>
        cases step
        apply inv.advance
        · intro fd k found
          rcases inv.ends fd k found with ⟨stage, _, node', q, at_', next⟩
          rw [pc] at stage
          cases stage
          rw [at_] at at_'
          cases at_'
          rw [last] at next
          cases next
        · intro p' holds
          cases holds
      next q next =>
        cases step
        apply inv.advance
        · intro fd k found
          rw [Table.close, Table.lookup_put] at found
          split at found
          · cases found
          next other =>
            rcases inv.ends fd k found with ⟨stage, same, _⟩
            rw [pc] at stage
            cases stage
            exact absurd same other
        · intro p' behind
          have behind : q ≤ p' := behind
          have successor := pipeline.next p node at_
          rw [next] at successor
          split at successor
          · cases successor
            rw [pc]
            exact behind
          · cases successor
  · cases step

end PipeInv

/-- Every step keeps the invariant. -/
theorem pipeInv_step (pipeline : IsPipeline nodes) {world world' : World} {act : Act}
    (inv : PipeInv nodes behaviour buffered world)
    (stepped : step nodes behaviour cap buffered world act = some world') :
    PipeInv nodes behaviour buffered world' := by
  unfold step at stepped
  split at stepped
  · exact inv.shellStep pipeline stepped
  · split at stepped
    next running => exact inv.childStep running stepped
    · cases stepped

end NckuOs.Shell
