import NckuOs.Shell.Freed
import NckuOs.Shell.LoopSteps

/-!
# The loop of `shell` in memory

The loop once more, with the command structures as blocks that `malloc` gives and `free` takes
back.  It goes where the loop of the model goes, and between two lines nothing is allocated but
the history.
-/

namespace NckuOs.Shell

open NckuOs.Blocks (Heap)
open NckuOs.Blocks.Heap (SameBut)
open NckuOs.Transition

/-- Where the loop is; `cmd` is a pointer.  `exited` is the `exit` inside `redirection`, which
frees nothing. -/
inductive MemoryPhase
  | prompt
  | parse (buffer : Nat)
  | act (buffer cmd : Nat)
  | ended
  | exited
  deriving DecidableEq

/-- The shell's process. -/
structure Process where
  session : Session
  objects : Nat → Option Object
  phase : MemoryPhase

/-- What the loop gets from outside: also the blocks of `split_line`, and the descriptors of the
pipes. -/
structure MemoryAnswers extends Answers where
  supply : Nat → Nat
  fds : Nat → Nat × Nat

namespace Process

def memory (process : Process) : Memory :=
  ⟨process.session.heap, process.objects⟩

/-- The process with this memory and this input, at this place. -/
def goOn (process : Process) (memory : Memory) (stdin : List UInt8) (phase : MemoryPhase) :
    Process :=
  ⟨{ process.session with heap := memory.heap, stdin := stdin }, memory.objects, phase⟩

/-- More than there are nodes for the line in a buffer. -/
def fuel (process : Process) (buffer : Nat) : Nat :=
  ((process.session.heap buffer).getD []).length + 1

/-- The strings that the slots of a command point to. -/
def words (process : Process) (slots : List (Option CharPtr)) : Option (List (Option Str)) :=
  slots.mapM fun slot =>
    match slot with
    | none => some none
    | some pointer => (stringOf process.session.heap pointer).map some

/-- A single command: `searchBuiltInCommand`, `redirection`, `execBuiltInCommand`, and the end of
the loop. -/
def single (process : Process) (answers : Answers) (buffer cmd : Nat) (node : NodeObject) :
    Option Process := do
  let slots ← process.memory.args? node.args
  let pointer ← slots.head?.join
  let name ← stringOf process.session.heap pointer
  match builtinStr.findIdx? fun builtin => builtin = name with
  | none => do
      let memory ← freeLine (process.fuel buffer) cmd buffer process.memory
      some (process.goOn memory answers.left .prompt)
  | some status =>
      if !answers.opens && (node.inFile.isSome || node.outFile.isSome) then
        some { process with phase := .exited }
      else do
        let words ← process.words slots
        let _ ← printed answers process.session status words
        let memory ← freeLine (process.fuel buffer) cmd buffer process.memory
        some (process.goOn memory process.session.stdin
          (if name = exitName then .ended else .prompt))

/-- The commands of a line, and the end of the loop. -/
def act (process : Process) (answers : MemoryAnswers) (buffer cmd : Nat) : Option Process := do
  let (head, _) ← process.memory.cmd? cmd
  let first ← head
  let node ← process.memory.node? first
  match node.next with
  | none => process.single answers.toAnswers buffer cmd node
  | some _ => do
      let memory ← forkIn answers.fds (process.fuel buffer) 0 head process.memory
      let memory ← freeLine (process.fuel buffer) cmd buffer memory
      some (process.goOn memory answers.left .prompt)

/-- The next step of the loop. -/
def step (process : Process) (answers : MemoryAnswers) : Option Process :=
  match process.phase with
  | .prompt =>
      if (process.objects answers.block).isNone then
        (readLine answers.block answers.garbage process.session).map fun (session, buffer) =>
          ⟨session, process.objects, buffer.elim .prompt .parse⟩
      else none
  | .parse buffer =>
      (splitIn answers.supply buffer process.memory).map fun (memory, cmd) =>
        process.goOn memory process.session.stdin (.act buffer cmd)
  | .act buffer cmd => process.act answers buffer cmd
  | .ended => none
  | .exited => none

end Process

/-- The shell with an input; `main` has allocated the history and nothing else. -/
def memoryLoop (input : List UInt8) : System Process MemoryAnswers where
  init process := (loop (fun _ => False) input).init (process.session, .prompt) ∧
    (∀ block, process.session.heap block ≠ none ↔ block ∈ process.session.history) ∧
    process.objects = (fun _ => none) ∧ process.phase = .prompt
  step process answers next := answers.garbage.length = bufSize ∧
    (∀ buffer, process.phase = .parse buffer → Fresh answers.supply process.memory) ∧
    process.step answers = some next

/-! ## What is allocated -/

/-- The blocks of characters are the history and the buffer. -/
structure Owns (session : Session) (buffer : Option Nat) : Prop where
  apart : ∀ block ∈ buffer, block ∉ session.history
  exactly : ∀ block, session.heap block ≠ none ↔ block ∈ session.history ∨ block ∈ buffer

/-- The place of the process is that of the model, and its blocks hold the command of the
model. -/
inductive Matches : Process → Session × Phase → Prop
  | prompt {session : Session} (owns : Owns session none) :
      Matches ⟨session, fun _ => none, .prompt⟩ (session, .prompt)
  | parse {session : Session} {buffer : Nat} (owns : Owns session (some buffer)) :
      Matches ⟨session, fun _ => none, .parse buffer⟩ (session, .parse buffer)
  | act {session : Session} {buffer : Nat} {supply : Nat → Nat} {before : Heap}
      {objects : Nat → Option Object} {cmd : Cmd} {line : Str} {bytes : List UInt8}
      (owns : Owns session (some buffer)) (fresh : Fresh supply ⟨before, fun _ => none⟩)
      (parsed : splitLine line = some cmd) (content : session.heap buffer = some bytes)
      (fits : line.length < bytes.length)
      (split_ : SplitInto supply buffer ⟨before, fun _ => none⟩ ⟨session.heap, objects⟩ cmd) :
      Matches ⟨session, objects, .act buffer (supply 0)⟩ (session, .act buffer cmd)
  | ended {session : Session} (owns : Owns session none) :
      Matches ⟨session, fun _ => none, .ended⟩ (session, .ended)
  | exited {session session' : Session} {objects : Nat → Option Object} :
      Matches ⟨session, objects, .exited⟩ (session', .ended)

section Steps

variable {session next : Session} {block buffer : Nat} {garbage : List UInt8}

theorem ne_none_of_sameBut {heap heap' : Heap} (others : SameBut block heap heap')
    (inUse : heap' block ≠ none) (other : Nat) :
    heap' other ≠ none ↔ heap other ≠ none ∨ other = block := by
  by_cases same : other = block
  · subst same
    exact iff_of_true inUse (.inr rfl)
  · rw [others other same]
    exact ⟨.inl, fun used => used.resolve_right same⟩

/-- `read_line` adds its buffer when it hands it on. -/
theorem Owns.readLine (owns : Owns session none) (has : session.HasHistory)
    {buffer : Option Nat} (done : readLine block garbage session = some (next, buffer)) :
    Owns next buffer := by
  rcases readLine_cases done with ⟨unused, step⟩
  have notMem := has.notMem unused
  have used (other : Nat) : session.heap other ≠ none ↔ other ∈ session.history := by
    rw [owns.exactly other]
    exact or_iff_left (by rintro ⟨⟩)
  rcases step with ⟨_, others, isNext, content, rfl⟩ | ⟨read, rest, _, _, step⟩
  · have history : next.history = session.history := by rw [isNext]
    constructor
    · rintro _ ⟨⟩
      rw [history]
      exact notMem
    · intro other
      rw [ne_none_of_sameBut others (by rw [content]; exact Option.some_ne_none _), used, history,
        Option.mem_some, eq_comm]
  · rcases step with ⟨_, others, gone, isNext, rfl⟩ | ⟨_, rfl, heap, others, ⟨old, content⟩, kept⟩
    · have history : next.history = session.history := by rw [isNext]
      constructor
      · rintro _ ⟨⟩
      · intro other
        rw [history, or_iff_left (by rintro ⟨⟩)]
        by_cases same : other = block
        · subst same
          exact iff_of_false (fun inUse => inUse gone) notMem
        · rw [others other same]
          exact used other
    · rcases keepLine_cases content kept with
        ⟨slot, ended, place, others', string, stored, _, isNext⟩
      rcases Heap.store_cases stored with ⟨bytes, before, _, after, others''⟩
      have history : next.history = session.history := by rw [isNext]
      have inBuffer : ended block ≠ none := by
        intro gone
        rw [Heap.string, gone] at string
        cases string
      constructor
      · rintro _ ⟨⟩
        rw [history]
        exact notMem
      · intro other
        have inSlot : next.heap slot ≠ none := by
          rw [after]
          exact Option.some_ne_none _
        have slotUsed : other = slot → ended other ≠ none := by
          rintro rfl
          rw [before]
          exact Option.some_ne_none _
        rw [ne_none_of_sameBut others'' inSlot, or_iff_left_of_imp slotUsed,
          ne_none_of_sameBut (others.trans others') inBuffer, used, history, Option.mem_some,
          eq_comm]

theorem Owns.sameBut (owns : Owns session (some buffer)) {heap : Heap}
    (others : SameBut buffer session.heap heap) (inUse : heap buffer ≠ none) :
    Owns { session with heap := heap } (some buffer) where
  apart := owns.apart
  exactly other := by
    have own : other = buffer → session.heap other ≠ none := by
      rintro rfl
      exact (owns.exactly _).mpr (.inr rfl)
    rw [ne_none_of_sameBut others inUse, or_iff_left_of_imp own]
    exact owns.exactly other

theorem Owns.free (owns : Owns session (some buffer)) (stdin : List UInt8) :
    Owns { session with heap := session.heap.free buffer, stdin := stdin } none where
  apart := by
    rintro _ ⟨⟩
  exactly other := by
    change session.heap.free buffer other ≠ none ↔ other ∈ session.history ∨ _
    rw [or_iff_left (by rintro ⟨⟩)]
    by_cases same : other = buffer
    · subst same
      exact iff_of_false (fun inUse => inUse (Heap.free_self _ _)) (owns.apart _ rfl)
    · rw [Heap.sameBut_free session.heap buffer other same, owns.exactly other]
      exact or_iff_left fun isBuffer => same (Option.mem_some.mp isBuffer).symm

theorem prompt_rel (owns : Owns session none) (has : session.HasHistory)
    (answers : MemoryAnswers) :
    Option.Rel Matches (Process.step ⟨session, fun _ => none, .prompt⟩ answers)
      (loopStep answers.toAnswers (session, .prompt)) := by
  simp only [Process.step, Option.isNone_none, if_true, loopStep, Option.bind_eq_bind]
  cases done : readLine answers.block answers.garbage session with
  | none => exact .none
  | some result =>
      rcases result with ⟨next, buffer⟩
      have owns' := owns.readLine has done
      cases buffer with
      | none => exact .some (.prompt owns')
      | some buffer => exact .some (.parse owns')

theorem parse_rel (owns : Owns session (some buffer)) {answers : MemoryAnswers}
    (fresh : Fresh answers.supply ⟨session.heap, fun _ => none⟩) :
    Option.Rel Matches (Process.step ⟨session, fun _ => none, .parse buffer⟩ answers)
      (loopStep answers.toAnswers (session, .parse buffer)) := by
  have isStep : Process.step ⟨session, fun _ => none, .parse buffer⟩ answers =
      (splitIn answers.supply buffer ⟨session.heap, fun _ => none⟩).map fun done =>
        ⟨{ session with heap := done.1.heap }, done.1.objects, .act buffer done.2⟩ := rfl
  rw [isStep]
  simp only [loopStep, Option.bind_eq_bind]
  cases string : session.heap.string buffer with
  | none =>
      cases split_ : splitIn answers.supply buffer ⟨session.heap, fun _ => none⟩ with
      | none => exact .none
      | some done =>
          rcases string_of_splitIn split_ with ⟨text, isText⟩
          rw [string] at isText
          cases isText
  | some line =>
      rcases content_of_string string with ⟨tail, content, noNul⟩
      have built := splitIn_rel fresh content noNul
      simp only [Option.bind_some]
      generalize splitIn answers.supply buffer ⟨session.heap, fun _ => none⟩ = done at built ⊢
      cases parsed : splitLine line with
      | none =>
          rw [parsed] at built
          cases built
          exact .none
      | some cmd =>
          rw [parsed] at built
          cases built with
          | @some done _ behind =>
              rcases done with ⟨⟨heap, objects⟩, place⟩
              rcases behind with ⟨rfl, split_⟩
              have chars : SameBut buffer session.heap heap := split_.chars
              have cut : heap buffer = some (cutWords false (line ++ 0 :: tail)) := by
                have isCut : heap buffer = (session.heap buffer).map (cutWords false) :=
                  split_.buffer
                rw [isCut, content, Option.map_some]
              have stored : session.heap.store buffer (cutWords false (line ++ 0 :: tail)) =
                  some heap := by
                rw [Heap.store, content]
                dsimp only
                rw [if_pos (length_cutWords _ _).le, List.drop_eq_nil_of_le
                  (length_cutWords _ _).ge, List.append_nil]
                congr 1
                funext other
                by_cases same : other = buffer
                · rw [same, Function.update_self, cut]
                · rw [Function.update_of_ne same, chars other same]
              simp only [content, stored, Option.bind_some, Option.map_some]
              refine .some (.act ?_ fresh parsed cut ?_ split_)
              · exact owns.sameBut chars (by rw [cut]; exact Option.some_ne_none _)
              · rw [length_cutWords, List.length_append, List.length_cons]
                omega

/-! ### The commands -/

theorem length_commandsFrom_le (command : Command) (tokens : List Str) :
    (commandsFrom command tokens).length ≤ tokens.length + 1 := by
  fun_induction commandsFrom command tokens with
  | case1 => exact Nat.le_refl _
  | case2 _ _ _ _ ih => exact Nat.succ_le_succ ih
  | case3 => exact Nat.le_add_left _ _
  | case4 _ _ _ _ _ _ ih => exact ih.trans (by simp only [List.length_cons]; omega)
  | case5 => exact Nat.le_add_left _ _
  | case6 _ _ _ _ _ _ _ ih => exact ih.trans (by simp only [List.length_cons]; omega)
  | case7 _ _ _ _ _ _ ih => exact ih.trans (by simp only [List.length_cons]; omega)

/-- The nodes of a line are linked in their order, and there is one at least but no more than
characters and a further one. -/
theorem splitLine_nodes {line : Str} {cmd : Cmd} (parsed : splitLine line = some cmd) :
    cmd.head = 0 ∧ InOrder cmd.nodes ∧ cmd.nodes ≠ [] ∧ cmd.nodes.length ≤ line.length + 1 := by
  rcases splitLine_eq line with ⟨pipeNum, isSplit⟩
  rw [parsed] at isSplit
  split at isSplit
  next =>
    cases isSplit
    refine ⟨rfl, inOrder_chain _, ?_, ?_⟩
    · rw [← List.length_pos_iff, length_chain, List.length_pos_iff]
      exact commandsFrom_ne_nil _ _
    · rw [length_chain]
      have few := length_commandsFrom_le ⟨[], []⟩ (tokensOf line)
      have words := length_words_le (line.takeWhile fun c => decide (c ≠ 0))
      have prefix_ := (List.takeWhile_prefix (l := line) fun c => decide (c ≠ 0)).length_le
      exact few.trans (Nat.succ_le_succ (words.trans prefix_))
  next => cases isSplit

section Act

variable {supply : Nat → Nat} {before : Heap} {objects : Nat → Option Object} {cmd : Cmd}
  {line : Str} {bytes : List UInt8} {node : CmdNode} {object : NodeObject}

/-- The blocks of a line, with nodes that `fork_cmd_node` may have changed, are freed. -/
theorem freeLine_of_built (fresh : Fresh supply ⟨before, fun _ => none⟩)
    {Shows : CharPtr → Str → Prop} {nodes : List CmdNode} {pipeNum : Nat}
    (built : Built supply (fun _ => none) Shows objects nodes pipeNum) (inOrder : InOrder nodes)
    (nonempty : nodes ≠ []) (content : session.heap buffer = some bytes)
    (few : nodes.length ≤ bytes.length) (phase : MemoryPhase) :
    freeLine (Process.fuel ⟨session, objects, phase⟩ buffer) (supply 0) buffer
        ⟨session.heap, objects⟩ = some ⟨session.heap.free buffer, fun _ => none⟩ := by
  apply freeLine_built fresh.injective (fun i => rfl) built inOrder nonempty _ content
  simp only [Process.fuel, content, Option.getD_some]
  omega

/-- A name points to the same string as in the model. -/
theorem name_rel {heap : Heap} {slots : List (Option CharPtr)} {args : List (Option Str)}
    (shown : List.Forall₂ (Option.Rel fun pointer word => stringOf heap pointer = some word)
      slots args) : (slots.head?.join.bind (stringOf heap)) = args.head?.join := by
  cases shown with
  | nil => rfl
  | cons first rest =>
      cases first with
      | none => rfl
      | some isWord => exact isWord

theorem isSome_of_rel {R : CharPtr → Str → Prop} {pointer : Option CharPtr} {word : Option Str}
    (shown : Option.Rel R pointer word) : pointer.isSome = word.isSome := by
  cases shown <;> rfl

/-- The words of a command are those of the model. -/
theorem words_rel {process : Process} {slots : List (Option CharPtr)} {args : List (Option Str)}
    (shown : List.Forall₂ (Option.Rel fun pointer word =>
      stringOf process.session.heap pointer = some word) slots args) :
    process.words slots = some args := by
  unfold Process.words
  induction shown with
  | nil => rfl
  | cons first _ ih =>
      rw [List.mapM_cons, ih]
      cases first with
      | none => rfl
      | some isWord =>
          dsimp only
          rw [isWord]
          rfl

theorem single_rel (owns : Owns session (some buffer)) {slots : List (Option CharPtr)}
    (freed : freeLine (Process.fuel ⟨session, objects, .act buffer (supply 0)⟩ buffer) (supply 0)
      buffer ⟨session.heap, objects⟩ = some ⟨session.heap.free buffer, fun _ => none⟩)
    (head : cmd.head = 0) (at_ : cmd.nodes[0]? = some node) (alone : node.next = none)
    (stands : Stands supply (fun pointer word => stringOf session.heap pointer = some word) 0
      object node)
    (isArgs : objects (argsBlock supply 0) = some (.args slots))
    (shown : List.Forall₂ (Option.Rel fun pointer word => stringOf session.heap pointer = some word)
      slots node.args) (answers : Answers) :
    Option.Rel Matches
      (Process.single ⟨session, objects, .act buffer (supply 0)⟩ answers buffer (supply 0)
        object) (loopStep answers (session, .act buffer cmd)) := by
  have isSlots : Memory.args? ⟨session.heap, objects⟩ object.args = some slots := by
    simp only [Memory.args?, stands.args, isArgs]
  have name : (slots.head?.join.bind (stringOf session.heap)) = node.name? := name_rel shown
  have isWords : Process.words ⟨session, objects, .act buffer (supply 0)⟩ slots = some node.args :=
    words_rel shown
  simp only [Process.single, Process.memory, isSlots, Option.bind_eq_bind, Option.bind_some,
    loopStep, endsShell, head, at_, if_pos alone, searchBuiltInCommand]
  cases pointer : slots.head?.join with
  | none =>
      rw [pointer, Option.bind_none] at name
      rw [← name]
      exact .none
  | some pointer =>
      rw [pointer, Option.bind_some] at name
      simp only [Option.bind_some, name]
      cases isName : node.name? with
      | none => exact .none
      | some word =>
          simp only [Option.bind_some, Option.map_some, freed, isWords,
            isSome_of_rel stands.inFile, isSome_of_rel stands.outFile]
          cases found : builtinStr.findIdx? fun builtin => decide (builtin = word) with
          | none =>
              have started : spawned cmd = [node] := by
                simp only [spawned, head, at_, if_pos alone, searchBuiltInCommand, isName,
                  Option.map_some, found, if_true]
              simp only [started, List.cons_ne_nil, if_false]
              exact .some (.prompt (owns.free _))
          | some status =>
              have nothing : spawned cmd = [] := by
                simp only [spawned, head, at_, if_pos alone, searchBuiltInCommand, isName,
                  Option.map_some, found, Option.some.injEq, reduceCtorEq, if_false]
              simp only [nothing, if_true]
              split
              next => exact .some .exited
              next =>
                cases printed answers session status node.args with
                | none => exact .none
                | some text =>
                    simp only [Option.bind_some, Option.some.injEq]
                    by_cases isExit : word = exitName
                    · simp only [isExit]
                      exact .some (.ended (owns.free _))
                    · simp only [isExit]
                      exact .some (.prompt (owns.free _))

/-- A pipeline starts processes. -/
theorem spawned_ne_nil (head : cmd.head = 0) (at_ : cmd.nodes[0]? = some node)
    (linked : node.next ≠ none) : spawned cmd ≠ [] := by
  have inside := (List.getElem?_eq_some_iff.mp at_).1
  simp only [spawned, head, at_, if_neg linked]
  rw [← Nat.succ_pred_eq_of_pos inside, forked, at_]
  exact List.cons_ne_nil _ _

theorem act_rel (owns : Owns session (some buffer)) (fresh : Fresh supply ⟨before, fun _ => none⟩)
    (parsed : splitLine line = some cmd) (content : session.heap buffer = some bytes)
    (fits : line.length < bytes.length)
    (split_ : SplitInto supply buffer ⟨before, fun _ => none⟩ ⟨session.heap, objects⟩ cmd)
    (answers : MemoryAnswers) :
    Option.Rel Matches (Process.step ⟨session, objects, .act buffer (supply 0)⟩ answers)
      (loopStep answers.toAnswers (session, .act buffer cmd)) := by
  rcases splitLine_nodes parsed with ⟨head, inOrder, nonempty, few⟩
  have first : 0 < cmd.nodes.length := List.length_pos_iff.mpr nonempty
  have at_ := List.getElem?_eq_getElem first
  rcases split_.shows.each 0 _ at_ with ⟨object, slots, isNode, stands, isArgs, shown⟩
  have next := next_of_inOrder inOrder at_ stands
  have isCmd : Memory.cmd? ⟨session.heap, objects⟩ (supply 0) =
      some (some (nodeBlock supply 0), cmd.pipeNum) := by
    have atCmd : objects (supply 0) = some (.cmd (some (nodeBlock supply 0)) cmd.pipeNum) :=
      split_.shows.cmd
    simp only [Memory.cmd?, atCmd]
  have isObject : Memory.node? ⟨session.heap, objects⟩ (nodeBlock supply 0) = some object :=
    node?_of_objects isNode
  have enough : cmd.nodes.length ≤ bytes.length := by omega
  simp only [Process.step, Process.act, Process.memory, isCmd, isObject, Option.bind_eq_bind,
    Option.bind_some]
  by_cases more : 0 + 1 < cmd.nodes.length
  · rw [if_pos more] at next
    have leads := inOrder 0 _ at_
    rw [if_pos more] at leads
    have isPipeline : endsShell answers.toAnswers session cmd = some false := by
      simp only [endsShell, head, at_, Option.bind_eq_bind, Option.bind_some, leads,
        Option.some_ne_none, if_false]
    have started : spawned cmd ≠ [] :=
      spawned_ne_nil head at_ (by rw [leads]; exact Option.some_ne_none _)
    have fuel : cmd.nodes.length - 0 ≤
        Process.fuel ⟨session, objects, .act buffer (supply 0)⟩ buffer := by
      simp only [Process.fuel, content, Option.getD_some]
      omega
    rcases forkIn_built fresh.injective answers.fds split_.shows inOrder first fuel with
      ⟨objects', nodes', forked, built', inOrder', length⟩
    have nonempty' : nodes' ≠ [] := by
      rw [← List.length_pos_iff, length]
      exact first
    have freed : freeLine (Process.fuel ⟨session, objects, .act buffer (supply 0)⟩ buffer)
        (supply 0) buffer ⟨session.heap, objects'⟩ =
          some ⟨session.heap.free buffer, fun _ => none⟩ :=
      freeLine_of_built fresh built' inOrder' nonempty' content (length ▸ enough)
        (.act buffer (supply 0))
    simp only [next, loopStep, isPipeline, Option.bind_eq_bind, Option.bind_some]
    rw [forked, Option.bind_some, freed, if_neg started]
    exact .some (.prompt (owns.free _))
  · rw [if_neg more] at next
    have alone : cmd.nodes[0].next = none := by
      rw [inOrder 0 _ at_, if_neg more]
    have freed := freeLine_of_built fresh split_.shows inOrder nonempty content enough
      (.act buffer (supply 0))
    rw [next]
    exact single_rel owns freed head at_ alone stands isArgs shown answers.toAnswers

end Act

end Steps

/-! ## Runs -/

section Runs

variable {input : List UInt8} {process : Process} {state : Session × Phase}

/-- Both take the next step, or neither does. -/
theorem step_rel (matches_ : Matches process state) (has : state.1.HasHistory)
    (answers : MemoryAnswers)
    (fresh : ∀ buffer, process.phase = .parse buffer → Fresh answers.supply process.memory) :
    Option.Rel Matches (process.step answers) (loopStep answers.toAnswers state) := by
  cases matches_ with
  | prompt owns => exact prompt_rel owns has answers
  | parse owns => exact parse_rel owns (fresh _ rfl)
  | act owns given parsed content fits split_ =>
      exact act_rel owns given parsed content fits split_ answers
  | ended => exact .none
  | exited => exact .none

theorem matches_of_reachable (reachable : Reachable (memoryLoop input) process) :
    ∃ state, Reachable (loop (fun _ => False) input) state ∧ Matches process state := by
  apply reachable.invariant (P := fun process =>
    ∃ state, Reachable (loop (fun _ => False) input) state ∧ Matches process state)
  · rintro ⟨session, objects, phase⟩ ⟨initial, allocated, rfl, rfl⟩
    refine ⟨_, .start initial, .prompt ⟨by rintro _ ⟨⟩, fun block => ?_⟩⟩
    rw [allocated block]
    exact (or_iff_left (by rintro ⟨⟩)).symm
  · rintro process answers next ⟨state, reached, matches_⟩ ⟨size, fresh, stepped⟩
    rcases loopInv_of_reachable reached with ⟨reads, inv⟩
    have possible : answers.toAnswers.Possible (fun _ => False) state :=
      ⟨size, fun _ _ _ isQuiet => isQuiet.elim⟩
    have related := step_rel matches_ inv.records.has answers fresh
    rw [stepped] at related
    cases model : loopStep answers.toAnswers state with
    | none =>
        rw [model] at related
        cases related
    | some state' =>
        rw [model] at related
        cases related with
        | some matches' => exact ⟨state', reached.snoc ⟨possible, model⟩, matches'⟩

end Runs

/-! ## The line `exit` -/

section Exit

/-- What `main` has allocated. -/
def freshProcess (input : List UInt8) : Process :=
  ⟨.start input, fun _ => none, .prompt⟩

theorem freshProcess_initial (input : List UInt8) :
    (memoryLoop input).init (freshProcess input) := by
  refine ⟨Session.start_initial _ input, fun block => ?_, rfl, rfl⟩
  change (if block < maxRecordNum then some (List.replicate bufSize 0) else none) ≠ none ↔
    block ∈ List.range maxRecordNum
  rw [List.mem_range, ne_eq, ite_eq_right_iff]
  simp only [reduceCtorEq, imp_false, not_not]

def exitInput : List UInt8 :=
  exitName ++ [newline]

def exitAnswers : MemoryAnswers where
  block := 16
  garbage := List.replicate bufSize 0
  opens := true
  cwd := none
  left := []
  supply i := i + 17
  fds _ := (3, 4)

/-- The places on the way, and the blocks of the history when the line is read. -/
theorem exit_places :
    ((freshProcess exitInput).step exitAnswers).any (fun read =>
      decide (read.phase = .parse 16 ∧ read.session.history = List.range maxRecordNum) &&
        (read.step exitAnswers).any fun parsed =>
          decide (parsed.phase = .act 16 17) &&
            (parsed.step exitAnswers).any fun ended => decide (ended.phase = .ended)) = true := by
  decide +kernel

/-- The blocks of the line are behind those of the history and the buffer. -/
theorem exit_fresh {process : Process} (reachable : Reachable (memoryLoop exitInput) process)
    (phase : process.phase = .parse 16)
    (history : process.session.history = List.range maxRecordNum) :
    Fresh exitAnswers.supply process.memory := by
  rcases matches_of_reachable reachable with ⟨state, _, matches_⟩
  cases matches_ with
  | @parse session buffer owns =>
      cases phase
      refine ⟨fun i j same => Nat.add_right_cancel same, fun i => ⟨?_, rfl⟩⟩
      have isBlock : exitAnswers.supply i = i + 17 := rfl
      by_contra inUse
      rcases (owns.exactly _).mp inUse with isMem | isBuffer
      · rw [show session.history = List.range maxRecordNum from history, List.mem_range,
          isBlock, maxRecordNum] at isMem
        omega
      · rw [Option.mem_some, isBlock] at isBuffer
        omega
  | prompt | act | ended | exited => cases phase

theorem exit_ends :
    ∃ process, Reachable (memoryLoop exitInput) process ∧ process.phase = .ended := by
  rcases (Option.any_eq_true _ _).mp exit_places with ⟨read, reads, places⟩
  rcases (Bool.and_eq_true_iff).mp places with ⟨atRead, places⟩
  rcases of_decide_eq_true atRead with ⟨phase, history⟩
  rcases (Option.any_eq_true _ _).mp places with ⟨parsed, parses, places⟩
  rcases (Bool.and_eq_true_iff).mp places with ⟨atParsed, places⟩
  rcases (Option.any_eq_true _ _).mp places with ⟨ended, ends, atEnd⟩
  have start : Reachable (memoryLoop exitInput) (freshProcess exitInput) :=
    .start (freshProcess_initial exitInput)
  have first : Reachable (memoryLoop exitInput) read :=
    start.snoc ⟨List.length_replicate, fun _ isParse => (by cases isParse), reads⟩
  have second : Reachable (memoryLoop exitInput) parsed :=
    first.snoc ⟨List.length_replicate, fun _ _ => exit_fresh first phase history, parses⟩
  have third : Reachable (memoryLoop exitInput) ended := by
    refine second.snoc ⟨List.length_replicate, fun buffer isParse => ?_, ends⟩
    rw [of_decide_eq_true atParsed] at isParse
    cases isParse
  exact ⟨ended, third, of_decide_eq_true atEnd⟩

end Exit

/-! ## What a line leaves behind -/

section Lines

variable {input : List UInt8} {process : Process}

/-- Between two lines, and behind the last, every block that a line took is freed: there is the
history and nothing else. -/
theorem nothing_leaks (reachable : Reachable (memoryLoop input) process)
    (between : process.phase = .prompt ∨ process.phase = .ended) :
    (∀ block, process.objects block = none) ∧
      ∀ block, process.session.heap block ≠ none ↔ block ∈ process.session.history := by
  rcases matches_of_reachable reachable with ⟨state, _, matches_⟩
  have only {session : Session} (owns : Owns session none) (block : Nat) :
      session.heap block ≠ none ↔ block ∈ session.history :=
    (owns.exactly block).trans (or_iff_left (by rintro ⟨⟩))
  cases matches_ with
  | prompt owns => exact ⟨fun _ => rfl, only owns⟩
  | ended owns => exact ⟨fun _ => rfl, only owns⟩
  | parse | act | exited => rcases between with ⟨⟨⟩⟩ | ⟨⟨⟩⟩

theorem nothing_leaks_exit : ∃ process, Reachable (memoryLoop exitInput) process ∧
    process.phase = .ended ∧ (∀ block, process.objects block = none) ∧
      ∀ block, process.session.heap block ≠ none ↔ block ∈ process.session.history := by
  rcases exit_ends with ⟨process, reachable, atEnd⟩
  exact ⟨process, reachable, atEnd, nothing_leaks reachable (.inr atEnd)⟩

/-- The loop over pointers goes where the loop of the model goes, through the same lines to the
same commands, and wherever the model has a next step no pointer is followed, and nothing freed,
that is not allocated. -/
theorem shell_in_memory (reachable : Reachable (memoryLoop input) process) :
    ∃ state, Reachable (loop (fun _ => False) input) state ∧ Matches process state ∧
    ∀ answers : MemoryAnswers,
      (∀ buffer, process.phase = .parse buffer → Fresh answers.supply process.memory) →
        Option.Rel Matches (process.step answers) (loopStep answers.toAnswers state) := by
  rcases matches_of_reachable reachable with ⟨state, reached, matches_⟩
  rcases loopInv_of_reachable reached with ⟨reads, inv⟩
  exact ⟨state, reached, matches_, fun answers fresh =>
    step_rel matches_ inv.records.has answers fresh⟩

theorem shell_in_memory_exit : ∃ process, Reachable (memoryLoop exitInput) process ∧
    process.phase = .ended ∧
    ∃ state, Reachable (loop (fun _ => False) exitInput) state ∧ Matches process state ∧
      ∀ answers : MemoryAnswers,
        (∀ buffer, process.phase = .parse buffer → Fresh answers.supply process.memory) →
          Option.Rel Matches (process.step answers) (loopStep answers.toAnswers state) := by
  rcases exit_ends with ⟨process, reachable, atEnd⟩
  exact ⟨process, reachable, atEnd, shell_in_memory reachable⟩

end Lines

end NckuOs.Shell
