import NckuOs.Shell.Computes

/-!
# A pipeline composes its programs

Without redirections to files a pipeline is the composition of what its programs compute,
from the standard input of the shell to its standard output.
-/

namespace NckuOs.Shell

open NckuOs.Descriptors
open NckuOs.Streams
open NckuOs.Transition

variable {σ : Type} {nodes : List CmdNode} {programs : Programs σ} {cap i o : Nat}
  {first store store' : Store} {table : Table Desc} {p : Nat}
  {node : CmdNode} {f : Nat → List UInt8 → List UInt8}

/-- Nothing is redirected to or from a file. -/
def NoFiles (nodes : List CmdNode) : Prop :=
  ∀ node ∈ nodes, node.inFile = none ∧ node.outFile = none

theorem NoFiles.noneReadsItsOutput (noFiles : NoFiles nodes) : NoneReadsItsOutput nodes := by
  intro node isMem path file
  rw [(noFiles node isMem).1] at file
  cases file

/-- After the first `p` stages: what they have computed is in front of the next one. -/
structure Piped (f : Nat → List UInt8 → List UInt8) (first : Store) (i p : Nat)
    (store : Store) : Prop where
  files : store.files = first.files
  output : store.output = first.output
  front : ∀ node : CmdNode, node.inFile = none →
    store.front 0 (node.source i p) = through f p (first.input i)

theorem piped_start : Piped f first i 0 first where
  files := rfl
  output := rfl
  front node noFile := by simp [CmdNode.source, noFile, Store.front, through]

/-- What a stage writes is what its program computes. -/
theorem StageRuns.computed (noFile : node.inFile = none ∧ node.outFile = none)
    (computes : Computes (programs.act p) (programs.start p) (f p))
    (piped : Piped f first i p store)
    (stage : StageRuns nodes programs cap i o p node store store') :
    ∃ left, store' = (store.leave left (node.source i p)).put
        (through f (p + 1) (first.input i)) (node.sink o nodes.length p) ∧
      (node.sink o nodes.length p).Room cap (through f (p + 1) (first.input i)) := by
  rcases stage with @⟨written, left, runs, room⟩
  rw [noFile.2] at runs ⊢
  rcases computes (through f p (first.input i)) with ⟨left', runs'⟩
  rw [Store.truncate, piped.front node noFile.1] at runs
  rcases runs'.unique runs with ⟨rfl, rfl⟩
  exact ⟨left, rfl, room⟩

/-- A stage in front of the last one passes on what it computes. -/
theorem Piped.next (noFile : node.inFile = none ∧ node.outFile = none)
    (computes : Computes (programs.act p) (programs.start p) (f p))
    (piped : Piped f first i p store) (clean : store.pipes p = []) (more : p + 1 < nodes.length)
    (stage : StageRuns nodes programs cap i o p node store store') :
    Piped f first i (p + 1) store' ∧ (through f (p + 1) (first.input i)).length ≤ cap := by
  rcases stage.computed noFile computes piped with ⟨left, rfl, room⟩
  have sink : node.sink o nodes.length p = .writeEnd p := by simp [CmdNode.sink, noFile.2, more]
  rw [sink] at room ⊢
  refine ⟨?_, room⟩
  constructor
  · exact (Store.files_leave _ _).trans piped.files
  · exact (Store.output_leave _ _).trans piped.output
  · intro node' noFile'
    have kept : (store.leave left (node.source i p)).pipes p = [] := by
      rw [Store.pipes_leave_of_ne (node.source_ne (by omega)), clean]
    have source : node'.source i (p + 1) = .readEnd p := by simp [CmdNode.source, noFile']
    rw [source]
    change Function.update _ p (_ ++ _) p = _
    rw [Function.update_self, kept, List.nil_append]

/-- The last stage writes to standard output. -/
theorem Piped.last (noFile : node.inFile = none ∧ node.outFile = none)
    (computes : Computes (programs.act p) (programs.start p) (f p))
    (piped : Piped f first i p store) (last : p + 1 = nodes.length)
    (stage : StageRuns nodes programs cap i o p node store store') :
    store'.files = first.files ∧ store'.output = Function.update first.output o
      (first.output o ++ through f (p + 1) (first.input i)) := by
  rcases stage.computed noFile computes piped with ⟨left, rfl, room⟩
  have sink : node.sink o nodes.length p = .inherited o := by
    simp [CmdNode.sink, noFile.2, last]
  rw [sink]
  constructor
  · exact (Store.files_leave _ _).trans piped.files
  · change Function.update (store.leave left _).output o _ = _
    rw [Store.output_leave, piped.output]

/-- The stages in front of the last one pass on what they compute, within the capacity. -/
theorem piped_of_stagesRun (noFiles : NoFiles nodes) (empty : ∀ k, first.pipes k = [])
    (computes : ∀ p < nodes.length, Computes (programs.act p) (programs.start p) (f p))
    (stages : StagesRun nodes programs cap i o first p store)
    (below : p < nodes.length) :
    Piped f first i p store ∧ ∀ k < p, (through f (k + 1) (first.input i)).length ≤ cap := by
  induction stages with
  | none => exact ⟨piped_start, fun k before => absurd before k.not_lt_zero⟩
  | @next p node store store' earlier at_ stage ih =>
      have inside : p < nodes.length := Nat.lt_of_succ_lt below
      rcases ih inside with ⟨piped, fits⟩
      have clean := earlier.pipes empty p (Nat.le_refl p)
      rcases piped.next (noFiles node (List.mem_of_getElem? at_)) (computes p inside) clean below
        stage with ⟨piped', room⟩
      refine ⟨piped', ?_⟩
      intro k before
      rcases Nat.lt_succ_iff_lt_or_eq.mp before with early | rfl
      · exact fits k early
      · exact room

/-- Every stage can run when what it passes on fits. -/
theorem stagesRun_of_fits (noFiles : NoFiles nodes) (empty : ∀ k, first.pipes k = [])
    (computes : ∀ p < nodes.length, Computes (programs.act p) (programs.start p) (f p))
    (fits : ∀ p, p + 1 < nodes.length → (through f (p + 1) (first.input i)).length ≤ cap)
    (inside : p ≤ nodes.length) :
    ∃ store, StagesRun nodes programs cap i o first p store := by
  induction p with
  | zero => exact ⟨first, .none⟩
  | succ p ih =>
      have below : p < nodes.length := inside
      rcases ih (Nat.le_of_lt below) with ⟨store, stages⟩
      have at_ : nodes[p]? = some nodes[p] := List.getElem?_eq_getElem below
      have noFile := noFiles nodes[p] (List.getElem_mem below)
      have piped := (piped_of_stagesRun noFiles empty computes stages below).1
      rcases computes p below (through f p (first.input i)) with ⟨left, runs⟩
      rw [← piped.front nodes[p] noFile.1] at runs
      have room : (nodes[p].sink o nodes.length p).Room cap
          (f p (store.front 0 (nodes[p].source i p))) := by
        cases sink : nodes[p].sink o nodes.length p with
        | writeEnd k =>
            have short := fits p (nodes[p].sink_eq_writeEnd sink).2
            rw [piped.front nodes[p] noFile.1]
            exact short
        | _ => trivial
      have same : store.truncate nodes[p].outFile = store := by rw [noFile.2, Store.truncate]
      rw [← same] at runs room
      exact ⟨_, .next stages at_ (.ran runs room)⟩

/-- The last stage of a pipeline, and what is in front of it. -/
theorem last_stage (long : 2 ≤ nodes.length) (noFiles : NoFiles nodes)
    (empty : ∀ k, first.pipes k = [])
    (computes : ∀ p < nodes.length, Computes (programs.act p) (programs.start p) (f p))
    (stages : StagesRun nodes programs cap i o first nodes.length store) :
    ∃ m node before, m + 1 = nodes.length ∧ node ∈ nodes ∧ Piped f first i m before ∧
      (∀ k < m, (through f (k + 1) (first.input i)).length ≤ cap) ∧
      StageRuns nodes programs cap i o m node before store := by
  rcases Nat.exists_eq_add_of_le' (Nat.lt_of_lt_of_le Nat.zero_lt_two long) with ⟨m, length⟩
  have inside : m < nodes.length := by omega
  rw [length] at stages
  cases stages with
  | @next _ node before _ earlier at_ stage =>
      have piped := piped_of_stagesRun noFiles empty computes earlier inside
      exact ⟨m, node, before, length.symm, List.mem_of_getElem? at_, piped.1, piped.2, stage⟩

/-- What is written when the call returns. -/
theorem composed_of_ret (plumbed : Plumbed nodes table i o) (noFiles : NoFiles nodes)
    (empty : ∀ k, first.pipes k = [])
    (computes : ∀ p < nodes.length, Computes (programs.act p) (programs.start p) (f p))
    {flow : Flow σ}
    (reachable : Reachable (flows nodes programs cap table first) flow)
    (pc : flow.world.pc = .ret) :
    flow.store.files = first.files ∧ flow.store.output = Function.update first.output o
      (first.output o ++ through f nodes.length (first.input i)) := by
  have stages := stagesRun_of_ret plumbed noFiles.noneReadsItsOutput empty reachable pc
  rcases last_stage plumbed.pipeline.long noFiles empty computes stages with
    ⟨m, node, before, length, isMem, piped, -, stage⟩
  have inside : m < nodes.length := by omega
  rw [← length]
  exact piped.last (noFiles node isMem) (computes m inside) length stage

/-- When the call can return. -/
theorem can_return_iff (plumbed : Plumbed nodes table i o) (noFiles : NoFiles nodes)
    (empty : ∀ k, first.pipes k = [])
    (computes : ∀ p < nodes.length, Computes (programs.act p) (programs.start p) (f p)) :
    (∃ flow, Reachable (flows nodes programs cap table first) flow ∧
      flow.world.pc = .ret) ↔
        ∀ p, p + 1 < nodes.length → (through f (p + 1) (first.input i)).length ≤ cap := by
  have differ := noFiles.noneReadsItsOutput
  constructor
  · rintro ⟨flow, reachable, pc⟩ p more
    have stages := stagesRun_of_ret plumbed differ empty reachable pc
    rcases last_stage plumbed.pipeline.long noFiles empty computes stages with
      ⟨m, _, _, length, _, _, fits, _⟩
    exact fits p (by omega)
  · intro fits
    rcases stagesRun_of_fits noFiles empty computes fits (Nat.le_refl nodes.length) with
      ⟨store, stages⟩
    rcases reach_ret plumbed differ empty stages with ⟨flow, reachable, pc, _⟩
    exact ⟨flow, reachable, pc⟩

/-- Without files a pipeline whose programs compute functions composes these: its call
returns with the composition in standard output and nothing else written, and it can return
exactly when what every stage in front of the last one passes on fits in a pipe. -/
theorem pipeline_composes (plumbed : Plumbed nodes table i o) (noFiles : NoFiles nodes)
    (empty : ∀ k, first.pipes k = [])
    (computes : ∀ p < nodes.length, Computes (programs.act p) (programs.start p) (f p)) :
    (∀ flow, Reachable (flows nodes programs cap table first) flow →
      flow.world.pc = .ret → flow.store.files = first.files ∧
        flow.store.output = Function.update first.output o
          (first.output o ++ through f nodes.length (first.input i))) ∧
    ((∃ flow, Reachable (flows nodes programs cap table first) flow ∧
      flow.world.pc = .ret) ↔
        ∀ p, p + 1 < nodes.length → (through f (p + 1) (first.input i)).length ≤ cap) := by
  constructor
  · intro flow reachable pc
    exact composed_of_ret plumbed noFiles empty computes reachable pc
  · exact can_return_iff plumbed noFiles empty computes

/-- One stage prints two bytes, the other copies them, and a pipe has room for them. -/
theorem pipeline_composes_lsWc :
    (∃ flow, Reachable (flows lsWc (printThenCopy [104, 105]) 2 standardTable noBytes) flow ∧
      flow.world.pc = .ret) ∧
    ¬∃ flow, Reachable (flows lsWc (printThenCopy [104, 105]) 1 standardTable noBytes) flow ∧
      flow.world.pc = .ret := by
  let f (p : Nat) (bytes : List UInt8) : List UInt8 := if p = 0 then [104, 105] else bytes
  have computes : ∀ p < lsWc.length, Computes ((printThenCopy [104, 105]).act p)
      ((printThenCopy [104, 105]).start p) (f p) := by
    intro p _ input
    cases p with
    | zero => exact ⟨input, Relay.runs_emit [104, 105] input⟩
    | succ p => exact ⟨[], Relay.runs_copy input⟩
  constructor
  · apply (pipeline_composes lsWc_plumbed lsWc_noFiles (fun _ => rfl) computes).2.mpr
    intro p more
    obtain rfl : p = 0 := Nat.lt_one_iff.mp (Nat.lt_of_succ_lt_succ more)
    exact Nat.le_refl 2
  · intro returns
    have fits := (pipeline_composes lsWc_plumbed lsWc_noFiles (fun _ => rfl) computes).2.mp
      returns 0 Nat.one_lt_two
    exact absurd fits (by decide)

end NckuOs.Shell
