import NckuOs.Shell.Composed
import NckuOs.Shell.LoopSteps
import NckuOs.Shell.RoundTrip

/-!
# From a typed line to what it computes

A line that spells a pipeline goes through `read_line` and `split_line` to `fork_cmd_node`, and
what the call writes is the composition of what the named programs compute.
-/

namespace NckuOs.Shell

open NckuOs.Blocks
open NckuOs.Chunks
open NckuOs.Descriptors
open NckuOs.Lines
open NckuOs.Streams
open NckuOs.Transition
open NckuOs.Words

/-! ## The meaning of a pipeline -/

/-- What the programs of the stages compute, one after the other; `run` says what a program
computes when it gets these arguments. -/
def meaning (run : List Str → List UInt8 → List UInt8) (stages : List Stage)
    (input : List UInt8) : List UInt8 :=
  stages.foldl (fun bytes stage => run (Item.args stage.items) bytes) input

variable {run : List Str → List UInt8 → List UInt8} {stages : List Stage}

/-- Behind a `|` the meaning goes on with what it has. -/
theorem meaning_append (front back : List Stage) (input : List UInt8) :
    meaning run (front ++ back) input = meaning run back (meaning run front input) :=
  List.foldl_append

/-- What stage `p` computes. -/
def stageFun (run : List Str → List UInt8 → List UInt8) (stages : List Stage) (p : Nat) :
    List UInt8 → List UInt8 :=
  match stages[p]? with
  | some stage => run (Item.args stage.items)
  | none => id

theorem through_stageFun (p : Nat) (input : List UInt8) :
    through (stageFun run stages) p input = meaning run (stages.take p) input := by
  induction p with
  | zero => rfl
  | succ p ih =>
      rw [through, ih, List.take_add_one, meaning_append, stageFun]
      cases stages[p]? <;> rfl

/-- A stage without redirections. -/
def Stage.NoFile (stage : Stage) : Prop :=
  Item.inputs stage.items = [] ∧ Item.outputs stage.items = []

theorem mem_linked {k : Nat} {node : CmdNode} (isMem : node ∈ linked k stages) :
    ∃ stage ∈ stages, ∃ next, node = nodeOf stage.items next := by
  induction stages generalizing k with
  | nil => cases isMem
  | cons stage rest ih =>
      cases rest with
      | nil => exact ⟨stage, List.mem_cons_self, none, List.mem_singleton.mp isMem⟩
      | cons second rest =>
          rw [linked_cons_cons] at isMem
          rcases List.mem_cons.mp isMem with first | later
          · exact ⟨stage, List.mem_cons_self, _, first⟩
          · rcases ih later with ⟨stage', inRest, next, same⟩
            exact ⟨stage', List.mem_cons_of_mem _ inRest, next, same⟩

theorem linked_noFiles (noFile : ∀ stage ∈ stages, stage.NoFile) : NoFiles (linked 0 stages) := by
  intro node isMem
  rcases mem_linked isMem with ⟨stage, inStages, next, rfl⟩
  rcases noFile stage inStages with ⟨inputs, outputs⟩
  simp only [nodeOf, inputs, outputs, List.getLast?_nil, and_self]

theorem linked_standard : ∀ node ∈ linked 0 stages, node.inFd = 0 ∧ node.outFd = 1 := by
  intro node isMem
  rcases mem_linked isMem with ⟨stage, _, next, rfl⟩
  exact ⟨rfl, rfl⟩

/-! ## From the prompt to the pipeline -/

/-- A line as it is typed: it begins with no blank, and fits into the buffer. -/
structure IsTyped (line : Str) : Prop where
  notBlank : ¬Blank line
  noNewline : newline ∉ line
  short : line.length < bufSize - 1

/-- The shell is in front of `read_line`, with room for one more line. -/
structure AtPrompt (session : Session) (answers : Answers) : Prop where
  has : session.HasHistory
  inRange : session.historyCount < intMax
  unused : session.heap answers.block = none
  size : answers.garbage.length = bufSize

section Line

variable {line rest : Str} {session : Session} {answers : Answers}

theorem noNul_of_spells (spells : Spells space line (lineTokens stages)) : 0 ∉ line := by
  intro isMem
  rcases spells.mem isMem with isDelim | ⟨word, inWords, inWord⟩
  · cases isDelim
  · exact lineTokens_noNul stages word inWords inWord

/-- `split_line` on a line that spells a pipeline. -/
theorem split_spelt (nonempty : stages ≠ []) (spells : Spells space line (lineTokens stages)) :
    splitLine line = some ⟨linked 0 stages, 0, rounds stages⟩ := by
  have noNul : ∀ c ∈ line, decide (c ≠ 0) = true := by
    intro c isMem
    rw [decide_eq_true_eq]
    rintro rfl
    exact noNul_of_spells spells isMem
  have whole : line.takeWhile (fun c => decide (c ≠ 0)) = line :=
    List.takeWhile_eq_self_iff.mpr noNul
  have start : (⟨[.fresh], 0, 0⟩ : Parse) = parseOf [] [] 0 := rfl
  rw [splitLine, whole, spells.words_eq, start, splitLoop_stages [] 0 stages nonempty,
    Option.map_some, List.nil_append, Nat.zero_add, List.length_nil]

/-- `read_line` hands on the line, and leaves what is behind it. -/
theorem readLine_typed (typed : IsTyped line) (nonempty : line ≠ []) (noNul : 0 ∉ line)
    (prompt : AtPrompt session answers) (input : session.stdin = line ++ newline :: rest) :
    ∃ next, readLine answers.block answers.garbage session = some (next, some answers.block) ∧
      next.stdin = rest ∧ next.heap.string answers.block = some line := by
  rcases readLine_defined prompt.unused prompt.size prompt.has prompt.inRange with
    ⟨next, buffer, done⟩
  have cutLine : cut newline (bufSize - 1) session.stdin = (line ++ [newline], rest) := by
    have ends : (line ++ [newline]).getLast? = some newline := List.getLast?_concat
    have split : session.stdin = (line ++ [newline]) ++ rest := by
      rw [input, List.append_assoc, List.singleton_append]
    have alone : cut newline (bufSize - 1) (line ++ [newline]) = (line ++ [newline], []) :=
      @cut_of_lt _ _ newline _ ⟨line, true⟩ typed.noNewline typed.short
    rw [split, (cut_append_right ends _ rest).1, alone, List.nil_append]
  rcases (readLine_cases done).2 with ⟨nothing, _⟩ | ⟨read, rest', isCut, _, kept⟩
  · rw [input] at nothing
    exact absurd nothing (List.append_ne_nil_of_left_ne_nil nonempty _)
  rw [cutLine, Prod.mk.injEq] at isCut
  rcases isCut with ⟨rfl, rfl⟩
  have sameHead : (line ++ [newline]).head? = line.head? := by
    cases line with
    | nil => exact absurd rfl nonempty
    | cons c line => rfl
  rcases kept with ⟨blank, _⟩ | ⟨_, rfl, heap, others, ⟨old, content⟩, kept⟩
  · rw [Blank, sameHead] at blank
    exact absurd blank typed.notBlank
  rcases keepLine_cases content kept with ⟨slot, ended, place, _, string, stored, _, isNext⟩
  rcases Heap.store_cases stored with ⟨_, _, _, _, apart⟩
  have ne : answers.block ≠ slot := by
    rintro rfl
    exact prompt.has.notMem prompt.unused (List.mem_of_getElem? place)
  refine ⟨next, done, ?_, ?_⟩
  · rw [isNext]
  · rw [Heap.string_congr (apart answers.block ne), string,
      lineText_append_newline typed.noNewline noNul]

end Line

/-! ## Every stage is started -/

/-- `fork_cmd_node` goes through the nodes of all stages. -/
theorem forked_linked (front : List CmdNode) (nonempty : stages ≠ []) {fuel : Nat}
    (enough : stages.length ≤ fuel) :
    forked (front ++ linked front.length stages) fuel (some front.length) =
      linked front.length stages := by
  induction stages generalizing front fuel with
  | nil => exact absurd rfl nonempty
  | cons stage rest ih =>
      cases fuel with
      | zero => cases enough
      | succ fuel =>
          cases rest with
          | nil =>
              have here : (front ++ linked front.length [stage])[front.length]? =
                  some (nodeOf stage.items none) := List.getElem?_concat_length
              simp only [forked, here]
              cases fuel <;> rfl
          | cons second rest =>
              have others := ih (front ++ [nodeOf stage.items (some (front.length + 1))])
                (List.cons_ne_nil second rest) (Nat.le_of_succ_le_succ enough)
              rw [List.length_append, List.length_singleton, List.append_assoc,
                List.singleton_append] at others
              rw [linked_cons_cons]
              simp only [forked, List.getElem?_append_right (Nat.le_refl front.length),
                Nat.sub_self, List.getElem?_cons_zero]
              exact congrArg _ others

theorem spawned_linked (two : 2 ≤ stages.length) :
    spawned ⟨linked 0 stages, 0, rounds stages⟩ = linked 0 stages := by
  have nonempty : stages ≠ [] := List.ne_nil_of_length_pos (Nat.lt_of_lt_of_le (by decide) two)
  have inside : 0 < (linked 0 stages).length := by
    rw [linked_length]
    exact Nat.lt_of_lt_of_le (by decide) two
  have at_ : (linked 0 stages)[0]? = some (linked 0 stages)[0] := List.getElem?_eq_getElem inside
  have next : (linked 0 stages)[0].next = some (0 + 0 + 1) := by
    rw [linked_next stages at_, if_pos (Nat.lt_of_lt_of_le (by decide) two)]
  have all := forked_linked [] nonempty (Nat.le_of_eq (linked_length stages 0).symm)
  simp only [spawned, at_, next, reduceCtorEq, if_false]
  exact all

/-! ## The whole way -/

/-- The descriptors of a shell that reads `i` and writes `o`. -/
structure Standard (table : Table Desc) (i o : Nat) : Prop where
  opened : StandardOpen table
  noPipes : NoPipes table
  stdin : table.lookup 0 = some (.inherited i)
  stdout : table.lookup 1 = some (.inherited o)

variable {σ : Type} {programs : Programs σ} {cap i o : Nat} {first : Store} {table : Table Desc}
  {line rest : Str} {session : Session} {answers : Answers}

theorem linked_plumbed (two : 2 ≤ stages.length) (standard : Standard table i o) :
    Plumbed (linked 0 stages) table i o where
  pipeline := linked_isPipeline two
  standard := linked_standard
  opened := standard.opened
  noPipes := standard.noPipes
  stdin := standard.stdin
  stdout := standard.stdout

theorem ne_nil_of_spells (two : 2 ≤ stages.length)
    (spells : Spells space line (lineTokens stages)) : line ≠ [] := by
  rintro rfl
  have words := spells.words_eq
  rcases stages with _ | ⟨stage, _ | ⟨second, rest⟩⟩
  · cases two
  · cases Nat.le_of_succ_le_succ two
  · rw [lineTokens_cons_cons] at words
    exact absurd words.symm (List.append_ne_nil_of_right_ne_nil _ (List.cons_ne_nil _ _))

/-- A typed line that spells a pipeline of at least two commands, without redirections: the
shell reads it and no more, starts every stage in order, and what it prints in the end is what
the programs compute one after the other; it comes to this end exactly when what every stage
passes on fits in a pipe. -/
theorem typed_pipeline_computes (two : 2 ≤ stages.length)
    (noFile : ∀ stage ∈ stages, stage.NoFile) (spells : Spells space line (lineTokens stages))
    (typed : IsTyped line) (prompt : AtPrompt session answers)
    (input : session.stdin = line ++ newline :: rest) (standard : Standard table i o)
    (empty : ∀ k, first.pipes k = [])
    (computes : ∀ p stage, stages[p]? = some stage →
      Computes (programs.act p) (programs.start p) (run (Item.args stage.items))) :
    ∃ session' session'' cmd,
      loopStep answers (session, .prompt) = some (session', .parse answers.block) ∧
      loopStep answers (session', .parse answers.block) =
        some (session'', .act answers.block cmd) ∧
      session''.stdin = rest ∧ spawned cmd = cmd.nodes ∧ cmd.nodes.length = stages.length ∧
      (∀ flow, Reachable (flows cmd.nodes programs cap table first) flow →
        flow.world.pc = .ret → flow.store.files = first.files ∧
          flow.store.output = Function.update first.output o
            (first.output o ++ meaning run stages (first.input i))) ∧
      ((∃ flow, Reachable (flows cmd.nodes programs cap table first) flow ∧
        flow.world.pc = .ret) ↔ ∀ p, p + 1 < stages.length →
          (meaning run (stages.take (p + 1)) (first.input i)).length ≤ cap) := by
  have nonempty : stages ≠ [] := List.ne_nil_of_length_pos (Nat.lt_of_lt_of_le (by decide) two)
  rcases readLine_typed typed (ne_nil_of_spells two spells) (noNul_of_spells spells) prompt input
    with ⟨session', read, left, string⟩
  have split := split_spelt nonempty spells
  rcases parse_defined string split answers with ⟨⟨session'', phase⟩, parse⟩
  rcases parse_cases string parse with ⟨cmd, isCmd, isAct, same, _⟩
  cases split.symm.trans isCmd
  have isAct : phase = _ := isAct
  subst isAct
  have plumbed := linked_plumbed two standard
  have noFiles := linked_noFiles noFile
  have length := linked_length stages 0
  have functions : ∀ p < (linked 0 stages).length,
      Computes (programs.act p) (programs.start p) (stageFun run stages p) := by
    intro p inside
    rw [length] at inside
    have at_ := List.getElem?_eq_getElem inside
    rw [stageFun, at_]
    exact computes p _ at_
  refine ⟨session', session'', _, ?_, parse, same.trans left, spawned_linked two, length, ?_, ?_⟩
  · simp only [loopStep, read, Option.bind_eq_bind, Option.bind_some]
  · intro flow reachable pc
    have ends := composed_of_ret plumbed noFiles empty functions reachable pc
    rw [through_stageFun, length, List.take_length] at ends
    exact ends
  · rw [can_return_iff plumbed noFiles empty functions, length]
    simp only [through_stageFun]

/-- `ls` prints two bytes, and every other program copies its input. -/
def lsOrCopy (arguments : List Str) (input : List UInt8) : List UInt8 :=
  if arguments = [[108, 115]] then [104, 105] else input

/-- The line `ls | wc` at the first prompt. -/
theorem typed_pipeline_computes_lsWc : ∃ session' session'' cmd flow,
    loopStep ⟨16, List.replicate bufSize 0, true, none, []⟩
      (Session.start [108, 115, 32, 124, 32, 119, 99, 10], .prompt) =
        some (session', .parse 16) ∧
    loopStep ⟨16, List.replicate bufSize 0, true, none, []⟩ (session', .parse 16) =
      some (session'', .act 16 cmd) ∧
    Reachable (flows cmd.nodes (printThenCopy [104, 105]) 2 standardTable noBytes) flow ∧
      flow.world.pc = .ret ∧ flow.store.output 1 = [104, 105] := by
  have ls : IsWord [108, 115] := ⟨by decide, by decide, by decide⟩
  have wc : IsWord [119, 99] := ⟨by decide, by decide, by decide⟩
  have pipe : IsWord [bar] := ⟨by decide, by decide, by decide⟩
  let one : Stage :=
    { items := [.arg [108, 115]]
      valid := List.forall_mem_singleton.mpr ⟨ls, by simp [bar, less, greater]⟩
      fewArgs := by decide }
  let other : Stage :=
    { items := [.arg [119, 99]]
      valid := List.forall_mem_singleton.mpr ⟨wc, by simp [bar, less, greater]⟩
      fewArgs := by decide }
  have spells : Spells space [108, 115, 32, 124, 32, 119, 99] (lineTokens [one, other]) :=
    .cons 0 ls.nonempty ls.noSpace (.cons 0 pipe.nonempty pipe.noSpace
      (.last 0 wc.nonempty wc.noSpace))
  have noFile : ∀ stage ∈ [one, other], stage.NoFile :=
    List.forall_mem_cons.mpr ⟨⟨rfl, rfl⟩, List.forall_mem_singleton.mpr ⟨rfl, rfl⟩⟩
  have typed : IsTyped [108, 115, 32, 124, 32, 119, 99] :=
    ⟨by decide, by decide, by decide⟩
  have prompt : AtPrompt (Session.start [108, 115, 32, 124, 32, 119, 99, 10])
      ⟨16, List.replicate bufSize 0, true, none, []⟩ :=
    ⟨Session.start_hasHistory _, by decide, rfl, List.length_replicate⟩
  have standard : Standard standardTable 0 1 :=
    ⟨standardTable_open, standardTable_noPipes, rfl, rfl⟩
  have computes : ∀ p stage, [one, other][p]? = some stage →
      Computes ((printThenCopy [104, 105]).act p) ((printThenCopy [104, 105]).start p)
        (lsOrCopy (Item.args stage.items)) := by
    intro p stage at_ input
    rcases p with _ | _ | p
    · cases at_
      exact ⟨input, Relay.runs_emit [104, 105] input⟩
    · cases at_
      exact ⟨[], Relay.runs_copy input⟩
    · cases at_
  rcases @typed_pipeline_computes lsOrCopy [one, other] _ (printThenCopy [104, 105]) 2 0 1 noBytes
    standardTable _ [] _ _ (Nat.le_refl 2) noFile spells typed prompt rfl standard
    (fun _ => rfl) computes with ⟨session', session'', cmd, read, parse, _, _, _, prints, returns⟩
  have fits : ∀ p, p + 1 < [one, other].length →
      (meaning lsOrCopy ([one, other].take (p + 1)) (noBytes.input 0)).length ≤ 2 := by
    intro p more
    obtain rfl : p = 0 := Nat.lt_one_iff.mp (Nat.lt_of_succ_lt_succ more)
    exact Nat.le_refl 2
  rcases returns.mpr fits with ⟨flow, reachable, pc⟩
  have output := (prints flow reachable pc).2
  refine ⟨session', session'', cmd, flow, read, parse, reachable, pc, ?_⟩
  rw [output]
  rfl

end NckuOs.Shell
