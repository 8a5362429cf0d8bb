import NckuOs.Shell.History

/-!
# What a line does to the loop

A line ends the shell, or stops it for want of a word or of the `NULL` behind its words, or
leaves it in front of the next line.  One step of the loop is taken apart here, by the place
that it starts from.
-/

namespace NckuOs.Shell

open NckuOs.Blocks NckuOs.Chunks NckuOs.Transition

/-! ## A line -/

/-- One of the files of a command is named. -/
def Command.hasFile (command : Command) : Bool :=
  (command.node none).inFile.isSome || (command.node none).outFile.isSome

/-- Whether a single command ends the shell.  It must have a name, and `echo` the `NULL`
behind its words. -/
def Command.ends (opens : Bool) (command : Command) : Option Bool := do
  let name ← command.args.head?
  if builtinStr.any fun builtin => builtin = name then
    if !opens && command.hasFile then some true
    else if name = echoName ∧ command.args.length = argsLength then none
    else some (decide (name = exitName))
  else some false

/-- Whether a line ends the shell. -/
def endsWith (opens : Bool) (line : Str) : Option Bool :=
  if ∀ command ∈ commands line, command.Roomy then
    match commands line with
    | [command] => command.ends opens
    | _ => some false
  else none

/-- The line is the single command `exit`. -/
def IsExit (line : Str) : Prop :=
  ∃ command, commands line = [command] ∧ command.args.head? = some exitName ∧ command.Roomy

/-- The line is a single built-in command with a file. -/
def MayEnd (line : Str) : Prop :=
  ∃ command name, commands line = [command] ∧ command.args.head? = some name ∧
    name ∈ builtinStr ∧ command.hasFile = true

/-- The shell gets through the line: its words fit in their arrays, a single command has a
name, and a single `echo` has fewer than ten words. -/
structure GetsThrough (line : Str) : Prop where
  roomy : ∀ command ∈ commands line, command.Roomy
  named : ∀ command, commands line = [command] → command.args ≠ []
  ended : ∀ command, commands line = [command] → command.args.head? = some echoName →
    command.args.length < argsLength

/-- The line starts no process, or is quiet. -/
def Spares (quiet : Cmd → Prop) (line : Str) : Prop :=
  ∀ cmd, splitLine line = some cmd → spawned cmd = [] ∨ quiet cmd

theorem Command.name_node (command : Command) (next : Option Nat) :
    (command.node next).name? = command.args.head? := by
  unfold CmdNode.name? Command.node
  cases command.args <;> rfl

/-- The position of a built-in command. -/
theorem builtinStr_of_findIdx {name : Str} {i : Nat}
    (found : (builtinStr.findIdx? fun builtin => builtin = name) = some i) :
    builtinStr[i]? = some name := by
  rcases List.findIdx?_eq_some_iff_getElem.mp found with ⟨inside, same, _⟩
  rw [List.getElem?_eq_getElem inside, of_decide_eq_true same]

theorem any_builtinStr_iff (name : Str) :
    (builtinStr.any fun builtin => builtin = name) = true ↔ name ∈ builtinStr := by
  simp

section Line

variable {lines : List Str} {session : Session} {answers : Answers}

/-- A built-in command comes to its end in the loop unless `echo` misses the `NULL`. -/
theorem Records.printed (records : Records lines session) (answers : Answers)
    {command : Command} {name : Str} {status : Nat} (named : command.args.head? = some name)
    (found : (builtinStr.findIdx? fun builtin => builtin = name) = some status)
    (roomy : command.Roomy) :
    (printed answers session status (command.node none).args).isNone =
      decide (name = echoName ∧ command.args.length = argsLength) := by
  rcases List.findIdx?_eq_some_iff_findIdx_eq.mp found with ⟨_, isStatus⟩
  have isMem : name ∈ builtinStr := List.mem_of_getElem? (builtinStr_of_findIdx found)
  rcases findIdx_builtin name isMem with ⟨few, _, _, isEcho, _⟩
  have nonempty : command.args ≠ [] := by
    intro nothing
    rw [nothing] at named
    cases named
  rw [isStatus] at few isEcho
  simp only [← isEcho]
  unfold Shell.printed
  match status, few with
  | 0, _ => rfl
  | 1, _ => rfl
  | 2, _ => rfl
  | 4, _ => rfl
  | 5, _ =>
      rw [if_pos rfl, records.record]
      rfl
  | 3, _ =>
      have words : execBuiltInCommand answers.cwd [] 3 (command.node none).args =
          echo (command.node none).args.tail := rfl
      simp only [Nat.reduceEqDiff, if_false, Option.bind_eq_bind, Option.bind_some, words,
        echo_node nonempty roomy none, true_and]
      split
      next full => simp [full]
      next short => simp [short]

theorem endsShell_single (records : Records lines session) {command : Command}
    (roomy : command.Roomy) (pipeNum : Nat) :
    endsShell answers session ⟨chain 0 [command], 0, pipeNum⟩ = command.ends answers.opens := by
  have head : (chain 0 [command])[0]? = some (command.node none) := rfl
  have alone : (command.node none).next = none := rfl
  simp only [endsShell, head, alone, searchBuiltInCommand, command.name_node,
    Option.bind_eq_bind, Option.bind_some, if_true, Command.ends]
  cases named : command.args.head? with
  | none => rfl
  | some name =>
      simp only [Option.map_some, Option.bind_some]
      cases found : builtinStr.findIdx? fun builtin => builtin = name with
      | none =>
          have notBuiltIn : name ∉ builtinStr := by
            intro isMem
            have never := List.findIdx?_eq_none_iff.mp found name isMem
            simp at never
          rw [if_neg (mt (any_builtinStr_iff name).mp notBuiltIn)]
      | some status =>
          have isMem : name ∈ builtinStr := List.mem_of_getElem? (builtinStr_of_findIdx found)
          have text := records.printed answers named found roomy
          rw [if_pos ((any_builtinStr_iff name).mpr isMem)]
          dsimp only
          change (if !answers.opens && command.hasFile then _ else _) = _
          split
          next => rfl
          next =>
            split
            next full =>
              rw [decide_eq_true full, Option.isNone_iff_eq_none] at text
              rw [text, Option.bind_none]
            next ended =>
              rw [decide_eq_false ended, Option.isNone_eq_false_iff,
                Option.isSome_iff_exists] at text
              rcases text with ⟨text, isText⟩
              rw [isText, Option.bind_some]
              simp only [Option.some.injEq]

/-- What the shell does with a line is what its words say. -/
theorem endsWith_eq (records : Records lines session) (line : Str) :
    (splitLine line).bind (endsShell answers session) = endsWith answers.opens line := by
  rcases splitLine_eq line with ⟨pipeNum, parsed⟩
  rw [parsed, endsWith]
  split
  next roomy =>
    rw [Option.bind_some]
    rcases found : commands line with _ | ⟨first, _ | ⟨second, rest⟩⟩
    · exact absurd found (commandsFrom_ne_nil _ _)
    · rw [found, List.forall_mem_singleton] at roomy
      exact endsShell_single records roomy pipeNum
    · rfl
  next => rfl

end Line

variable {line : Str}

/-- Where the files can be opened, a line has a result exactly when the shell gets through
it. -/
theorem getsThrough_iff : GetsThrough line ↔ ∃ ends, endsWith true line = some ends := by
  unfold endsWith
  constructor
  · rintro ⟨roomy, named, ended⟩
    rw [if_pos roomy]
    split
    next command single =>
      rcases List.exists_cons_of_ne_nil (named command single) with ⟨name, words, args⟩
      have short := ended command single
      simp only [Command.ends, args, List.head?_cons, Option.bind_eq_bind, Option.bind_some,
        Bool.not_true, Bool.false_and, Bool.false_eq_true, if_false, Option.some.injEq] at short ⊢
      split
      next =>
        rw [if_neg fun full => (short full.1).ne full.2]
        exact ⟨_, rfl⟩
      next => exact ⟨false, rfl⟩
    next => exact ⟨false, rfl⟩
  · rintro ⟨ends, result⟩
    split at result
    next roomy =>
      refine ⟨roomy, ?_, ?_⟩
      · intro command single nothing
        rw [single] at result
        simp only [Command.ends, nothing, List.head?_nil, Option.bind_eq_bind,
          Option.bind_none, reduceCtorEq] at result
      · intro command single isEcho
        have isMem : echoName ∈ builtinStr := by decide
        have fits : command.args.length ≤ argsLength :=
          roomy command (by rw [single]; exact List.mem_cons_self)
        rw [single] at result
        simp only [Command.ends, isEcho, any_builtinStr_iff, isMem, Option.bind_eq_bind,
          Option.bind_some, Bool.not_true, Bool.false_and, Bool.false_eq_true, if_true, if_false, true_and] at result
        split at result
        next => cases result
        next short => exact Nat.lt_of_le_of_ne fits short
    next => cases result

/-- A line that the shell gets through ends it at `exit`, and when a file of a built-in command
cannot be opened. -/
theorem GetsThrough.ends (through : GetsThrough line) (opens : Bool) :
    ∃ ends, endsWith opens line = some ends ∧
      (ends = true ↔ IsExit line ∨ opens = false ∧ MayEnd line) := by
  rcases through with ⟨roomy, named, ended⟩
  unfold endsWith
  rw [if_pos roomy]
  split
  next command single =>
    rcases List.exists_cons_of_ne_nil (named command single) with ⟨name, words, args⟩
    have head : command.args.head? = some name := by rw [args, List.head?_cons]
    have short : ¬(name = echoName ∧ command.args.length = argsLength) :=
      fun full => (ended command single (full.1 ▸ head)).ne full.2
    have fits : command.Roomy := roomy command (by rw [single]; exact List.mem_cons_self)
    have isExit : IsExit line ↔ name = exitName := by
      unfold IsExit
      simp [single, head, fits]
    have mayEnd : MayEnd line ↔ name ∈ builtinStr ∧ command.hasFile = true := by
      unfold MayEnd
      simp [single, head]
    have exitIn : name = exitName → name ∈ builtinStr := by
      rintro rfl
      decide
    simp only [Command.ends, head, any_builtinStr_iff, Option.bind_eq_bind, Option.bind_some,
      if_neg short, isExit, mayEnd]
    split
    next isMem =>
      split
      next fails =>
        refine ⟨true, rfl, iff_of_true rfl (.inr ?_)⟩
        simpa [isMem] using fails
      next opened =>
        refine ⟨_, rfl, ?_⟩
        rw [decide_eq_true_iff]
        constructor
        · exact .inl
        · rintro (same | ⟨failed, _, file⟩)
          · exact same
          · exact absurd (by simp [failed, file]) opened
    next notMem =>
      refine ⟨false, rfl, iff_of_false Bool.false_ne_true ?_⟩
      rintro (same | ⟨_, isMem, _⟩)
      · exact notMem (exitIn same)
      · exact notMem isMem
  next several =>
    refine ⟨false, rfl, iff_of_false Bool.false_ne_true ?_⟩
    rintro (⟨command, single, _⟩ | ⟨_, command, _, single, _⟩)
    · exact several command single
    · exact several command single

theorem IsExit.through (isExit : IsExit line) : GetsThrough line := by
  rcases isExit with ⟨command, single, named, roomy⟩
  refine ⟨?_, ?_, ?_⟩
  · rw [single, List.forall_mem_singleton]
    exact roomy
  · intro other same nothing
    cases single.symm.trans same
    rw [nothing] at named
    cases named
  · intro other same isEcho
    cases single.symm.trans same
    rw [named] at isEcho
    exact absurd isEcho (by decide)

/-- The line `exit` ends the shell, whether its files can be opened or not. -/
theorem IsExit.ends (isExit : IsExit line) (opens : Bool) : endsWith opens line = some true := by
  rcases isExit.through.ends opens with ⟨ends, result, isTrue⟩
  rw [result, isTrue.mpr (.inl isExit)]

/-! ## One step of the loop -/

theorem length_cutWords (inWord : Bool) (bytes : List UInt8) :
    (cutWords inWord bytes).length = bytes.length := by
  induction bytes generalizing inWord with
  | nil => rfl
  | cons c rest ih =>
      unfold cutWords
      split
      · rfl
      split
      · rw [List.length_cons, ih, List.length_cons]
      · rw [List.length_cons, ih, List.length_cons]

section Step

variable {reads : List (List UInt8)} {session : Session} {next : Session × Phase} {buffer : Nat}
  {cmd : Cmd} {answers : Answers} {quiet : Cmd → Prop}

/-- At the end of the input the buffer is parsed as it is. -/
theorem parses_unfilled (nothing : session.stdin = [])
    (stepped : loopStep answers (session, .prompt) = some next) :
    next.2 = .parse answers.block := by
  simp only [loopStep, Option.bind_eq_bind, Option.bind_eq_some_iff] at stepped
  rcases stepped with ⟨⟨after, buffer⟩, done, result⟩
  rcases (readLine_cases done).2 with ⟨_, _, _, _, isBlock⟩ | ⟨read, rest, isCut, something, _⟩
  · rw [isBlock] at result
    cases result
    rfl
  · rw [nothing] at isCut
    exact absurd (congrArg Prod.fst isCut).symm something

/-- What a chunk leads to: nothing when it is blank, and else its text is in the buffer, which
is to be parsed. -/
inductive ReadStep (block count : Nat) (read : List UInt8) : Session × Phase → Prop
  | blank {after : Session} (isBlank : Blank read) (unused : after.heap block = none)
      (same : after.historyCount = count) : ReadStep block count read (after, .prompt)
  | line {after : Session} (notBlank : ¬Blank read)
      (string : after.heap.string block = some (lineText read)) (inRange : count < intMax)
      (counted : after.historyCount = count + 1) : ReadStep block count read (after, .parse block)

/-- Before the end of the input a chunk is read. -/
theorem prompt_cases (inv : LoopInv reads (session, .prompt)) (something : session.stdin ≠ [])
    (stepped : loopStep answers (session, .prompt) = some next) :
    ∃ read, chunks newline (bufSize - 1) session.stdin =
        read :: chunks newline (bufSize - 1) next.1.stdin ∧
      next.1.stdin.length < session.stdin.length ∧
      ReadStep answers.block session.historyCount read next := by
  have inv' := inv.step stepped
  have isRead : fgetsRead (session, .prompt) = [(cut newline (bufSize - 1) session.stdin).1] :=
    if_neg something
  rw [isRead] at inv'
  have count := inv'.records.count
  have count' := inv.records.count
  have first : chunks newline (bufSize - 1) session.stdin =
      (cut newline (bufSize - 1) session.stdin).1 ::
        chunks newline (bufSize - 1) (cut newline (bufSize - 1) session.stdin).2 :=
    chunks_eq_cons (by decide) something
  have shorter : (cut newline (bufSize - 1) session.stdin).2.length < session.stdin.length :=
    length_cut_lt (by decide) something
  simp only [loopStep, Option.bind_eq_bind, Option.bind_eq_some_iff] at stepped
  rcases stepped with ⟨⟨after, buffer⟩, done, result⟩
  have left := readLine_stdin done
  rcases (readLine_cases done).2 with ⟨nothing, _⟩ | ⟨read, rest, isCut, nonempty, step⟩
  · exact absurd nothing something
  rw [isCut] at first left shorter count
  refine ⟨read, ?_⟩
  rcases step with
    ⟨isBlank, _, freed, isNext, rfl⟩ | ⟨notBlank, rfl, heap, _, ⟨old, content⟩, kept⟩
  · cases result
    rw [accepted_blank isBlank, ← count'] at count
    dsimp only at left ⊢
    rw [left]
    exact ⟨first, shorter, .blank isBlank freed count⟩
  · cases result
    dsimp only at left ⊢
    rw [left]
    rcases keepLine_cases content kept with
      ⟨slot, ended, place, _, string, stored, inRange, isNext⟩
    rcases Heap.store_cases stored with ⟨_, _, _, _, others⟩
    have differs : answers.block ≠ slot := by
      rintro rfl
      apply inv'.apart answers.block rfl
      rw [show after.history = session.history by rw [isNext]]
      exact List.mem_of_getElem? place
    refine ⟨first, shorter, .line notBlank ?_ inRange ?_⟩
    · rw [Heap.string_congr (others answers.block differs)]
      exact string
    · rw [isNext]

/-- A blank chunk is read whatever the count. -/
theorem prompt_defined (inv : LoopInv reads (session, .prompt))
    (unused : session.heap answers.block = none) (size : answers.garbage.length = bufSize)
    (inRange : ¬Blank (cut newline (bufSize - 1) session.stdin).1 →
      session.historyCount < intMax) :
    ∃ next, loopStep answers (session, .prompt) = some next := by
  rcases readLine_defined_of unused size inv.records.has inRange with ⟨after, buffer, done⟩
  cases buffer with
  | none => exact ⟨(after, .prompt), by simp [loopStep, done]⟩
  | some buffer => exact ⟨(after, .parse buffer), by simp [loopStep, done]⟩

theorem parse_cases (string : session.heap.string buffer = some line)
    (stepped : loopStep answers (session, .parse buffer) = some next) :
    ∃ cmd, splitLine line = some cmd ∧ next.2 = .act buffer cmd ∧
      next.1.stdin = session.stdin ∧ next.1.historyCount = session.historyCount := by
  simp only [loopStep, string, Option.bind_eq_bind, Option.bind_some,
    Option.bind_eq_some_iff] at stepped
  rcases stepped with ⟨cmd, parsed, _, _, _, _, done⟩
  cases done
  exact ⟨cmd, parsed, rfl, rfl, rfl⟩

theorem parse_defined (string : session.heap.string buffer = some line)
    (parsed : splitLine line = some cmd) (answers : Answers) :
    ∃ next, loopStep answers (session, .parse buffer) = some next := by
  cases content : session.heap buffer with
  | none =>
      rw [Heap.string, content] at string
      cases string
  | some bytes =>
      have room : (cutWords false bytes).length ≤ bytes.length :=
        Nat.le_of_eq (length_cutWords false bytes)
      rcases Heap.store_defined content room with ⟨heap, stored⟩
      simp only [loopStep, string, parsed, content, stored, Option.bind_eq_bind,
        Option.bind_some]
      exact ⟨_, rfl⟩

/-- Behind the commands of a line the shell has ended, or is in front of what is left. -/
theorem act_cases (inv : LoopInv reads (session, .act buffer cmd))
    (parsed : splitLine line = some cmd)
    (stepped : loopStep answers (session, .act buffer cmd) = some next) :
    ∃ ends, endsWith answers.opens line = some ends ∧
      next = ({ session with
          heap := session.heap.free buffer
          stdin := if spawned cmd = [] then session.stdin else answers.left },
        if ends then .ended else .prompt) := by
  simp only [loopStep, Option.bind_eq_bind, Option.bind_eq_some_iff] at stepped
  rcases stepped with ⟨ends, result, done⟩
  refine ⟨ends, ?_, (Option.some.inj done).symm⟩
  rw [← endsWith_eq inv.records line, parsed, Option.bind_some, result]

theorem act_defined (inv : LoopInv reads (session, .act buffer cmd))
    (parsed : splitLine line = some cmd) {ends : Bool}
    (result : endsWith answers.opens line = some ends) :
    ∃ next, loopStep answers (session, .act buffer cmd) = some next := by
  rw [← endsWith_eq inv.records line, parsed, Option.bind_some] at result
  simp only [loopStep, result, Option.bind_eq_bind, Option.bind_some]
  exact ⟨_, rfl⟩

/-- A line that spares the input leaves it to the next. -/
theorem left_alone (spares : Spares quiet line) (parsed : splitLine line = some cmd)
    (possible : answers.Possible quiet (session, .act buffer cmd)) :
    (if spawned cmd = [] then session.stdin else answers.left) = session.stdin := by
  rcases spares cmd parsed with nothing | isQuiet
  · rw [if_pos nothing]
  · rw [possible.left buffer cmd rfl isQuiet, ite_self]

end Step

/-- How many steps are left at most, when no process changes what is left of the input. -/
def stepsLeft : Session × Phase → Nat
  | (session, .prompt) => 3 * session.stdin.length
  | (session, .parse _) => 3 * session.stdin.length + 2
  | (session, .act _ _) => 3 * session.stdin.length + 1
  | (_, .ended) => 0

/-! ## Once around the loop -/

/-- A string that `read_line` hands on, and the input in front of `read_line`. -/
abbrev Handed := List UInt8 × Str

/-- What a step hands on to `split_line`. -/
def handing : Session × Phase → Session × Phase → List Handed
  | (session, .prompt), (after, .parse buffer) =>
      ((after.heap.string buffer).map fun text => (session.stdin, text)).toList
  | _, _ => []

/-- The loop has ended, or is in front of `read_line` with no input left. -/
def AtEnd (state : Session × Phase) : Prop :=
  state.2 = .ended ∨ state.2 = .prompt ∧ state.1.stdin = []

/-- States, with what has been handed on before, that the loop goes through: before the end
there is a next step whatever happens, and it stays among them. -/
structure Explored (quiet : Cmd → Prop) (R : List Handed → Session × Phase → Prop) : Prop where
  step : ∀ seen state answers next, R seen state → ¬AtEnd state → answers.Possible quiet state →
    loopStep answers state = some next → R (seen ++ handing state next) next
  next : ∀ seen state answers, R seen state → ¬AtEnd state → answers.Possible quiet state →
    (state.2 = .prompt → state.1.heap answers.block = none) →
      ∃ next, loopStep answers state = some next

/-- The loop is in front of `read_line`, and a block is free. -/
structure Poised (session : Session) : Prop where
  inv : ∃ reads, LoopInv reads (session, .prompt)
  unused : session.heap maxRecordNum = none

/-- What follows when a string is handed on and `rest` is left of the input. -/
structure LineTurn (quiet : Cmd → Prop) (R : List Handed → Session × Phase → Prop)
    (seen : List Handed) (count : Nat) (text : Str) (rest : List UInt8) : Prop where
  inRange : count < intMax
  through : GetsThrough text
  ends : IsExit text ∨ MayEnd text → ∃ last, R seen (last, .ended)
  goesOn : ¬IsExit text → ∀ left, (Spares quiet text → left = rest) → ∃ next, Poised next ∧
    next.stdin = left ∧ next.historyCount = count + 1 ∧ R seen (next, .prompt)

section Turn

variable {quiet : Cmd → Prop} {R : List Handed → Session × Phase → Prop} {seen : List Handed}
  {session : Session}

/-- Answers with the first block behind the history. -/
def scripted (opens : Bool) (left : List UInt8) : Answers where
  block := maxRecordNum
  garbage := List.replicate bufSize 0
  opens := opens
  cwd := none
  left := left

theorem scripted_possible {state : Session × Phase} (opens : Bool) {left : List UInt8}
    (quietly : ∀ buffer cmd, state.2 = .act buffer cmd → quiet cmd → left = state.1.stdin) :
    (scripted opens left).Possible quiet state :=
  ⟨List.length_replicate, quietly⟩

theorem not_atEnd {state : Session × Phase} (notEnded : state.2 ≠ .ended)
    (something : state.2 = .prompt → state.1.stdin ≠ []) : ¬AtEnd state := by
  rintro (ended | ⟨prompt, nothing⟩)
  · exact notEnded ended
  · exact something prompt nothing

/-- The commands of a line, with any answer of `open`, and with any input left behind a line
that is not quiet. -/
theorem Explored.act (explored : Explored quiet R) {reads : List (List UInt8)} {buffer : Nat}
    {text : Str} {cmd : Cmd} (inv : LoopInv reads (session, .act buffer cmd))
    (parsed : splitLine text = some cmd) (reached : R seen (session, .act buffer cmd))
    (opens : Bool) (left : List UInt8) (quietly : quiet cmd → left = session.stdin) :
    ∃ ends, endsWith opens text = some ends ∧
      R seen ({ session with
          heap := session.heap.free buffer
          stdin := if spawned cmd = [] then session.stdin else left },
        if ends then .ended else .prompt) := by
  have notAtEnd : ¬AtEnd (session, .act buffer cmd) :=
    not_atEnd Phase.noConfusion fun isPrompt => by cases isPrompt
  have possible : (scripted opens left).Possible quiet (session, .act buffer cmd) :=
    scripted_possible opens fun _ _ isAct isQuiet => by
      cases isAct
      exact quietly isQuiet
  rcases explored.next seen _ _ reached notAtEnd possible (fun isPrompt => by cases isPrompt) with
    ⟨next, acted⟩
  rcases act_cases inv parsed acted with ⟨ends, result, rfl⟩
  have reached' := explored.step seen _ _ _ reached notAtEnd possible acted
  have nothing : handing (session, .act buffer cmd)
      ({ session with
        heap := session.heap.free buffer
        stdin := if spawned cmd = [] then session.stdin else left },
      if ends then .ended else .prompt) = [] := by
    cases ends <;> rfl
  have same : seen = seen ++ [] := (List.append_nil seen).symm
  rw [← nothing] at same
  rw [same]
  exact ⟨ends, result, reached'⟩

/-- From the string in the buffer on. -/
theorem Explored.lineTurn (explored : Explored quiet R) {reads : List (List UInt8)}
    {count buffer : Nat} {text : Str} (inv : LoopInv reads (session, .parse buffer))
    (isBlock : buffer = maxRecordNum) (string : session.heap.string buffer = some text)
    (inRange : count < intMax) (counted : session.historyCount = count + 1)
    (reached : R seen (session, .parse buffer)) :
    LineTurn quiet R seen count text session.stdin := by
  have notAtEnd : ¬AtEnd (session, .parse buffer) :=
    not_atEnd Phase.noConfusion fun isPrompt => by cases isPrompt
  have possible : (scripted true []).Possible quiet (session, .parse buffer) :=
    scripted_possible true fun _ _ isAct => by cases isAct
  rcases explored.next seen _ _ reached notAtEnd possible (fun isPrompt => by cases isPrompt) with
    ⟨⟨cutUp, phase⟩, stepped⟩
  rcases parse_cases string stepped with ⟨cmd, parsed, isAct, stdin, same⟩
  dsimp only at isAct stdin same
  subst isAct
  have inv' := inv.step stepped
  have reached' := explored.step seen _ _ _ reached notAtEnd possible stepped
  have nothing : handing (session, .parse buffer) (cutUp, .act buffer cmd) = [] := rfl
  rw [nothing, List.append_nil] at reached'
  have acts := explored.act inv' parsed reached'
  have through : GetsThrough text := by
    rcases acts true cutUp.stdin fun _ => rfl with ⟨ends, result, _⟩
    exact getsThrough_iff.mpr ⟨ends, result⟩
  refine ⟨inRange, through, ?_, ?_⟩
  · intro ends
    rcases acts false cutUp.stdin fun _ => rfl with ⟨isLast, result, last⟩
    rcases through.ends false with ⟨_, result', isTrue⟩
    cases result.symm.trans result'
    have isLast : isLast = true := isTrue.mpr (ends.imp_right fun may => ⟨rfl, may⟩)
    rw [isLast, if_pos rfl] at last
    exact ⟨_, last⟩
  · intro notExit left spared
    have isCmd {cmd' : Cmd} (parsed' : splitLine text = some cmd') : cmd' = cmd :=
      Option.some.inj (parsed'.symm.trans parsed)
    have quietly : quiet cmd → left = cutUp.stdin := by
      intro isQuiet
      rw [stdin]
      apply spared
      intro cmd' parsed'
      rw [isCmd parsed']
      exact .inr isQuiet
    have isLeft : (if spawned cmd = [] then cutUp.stdin else left) = left := by
      split
      next nothing =>
        rw [stdin, spared]
        intro cmd' parsed'
        rw [isCmd parsed']
        exact .inl nothing
      next => rfl
    rcases acts true left quietly with ⟨isLast, result, next⟩
    rcases through.ends true with ⟨_, result', isTrue⟩
    cases result.symm.trans result'
    have isFalse : isLast = false := by
      rw [← Bool.not_eq_true, isTrue]
      rintro (isExit | ⟨failed, _⟩)
      · exact notExit isExit
      · cases failed
    rw [isFalse, if_neg Bool.false_ne_true] at next
    refine ⟨_, ⟨⟨reads ++ fgetsRead (session, .parse buffer), ?_⟩, ?_⟩, isLeft, ?_, next⟩
    · refine ⟨inv'.records.sameBut (inv'.apart buffer rfl) rfl rfl (Heap.sameBut_free _ _), ?_⟩
      intro block isMem
      cases isMem
    · rw [← isBlock]
      exact Heap.free_self _ _
    · exact same.trans counted

/-- Before the end of the input either a blank chunk is read, or a string is handed on. -/
theorem Explored.turn (explored : Explored quiet R) (ready : Poised session)
    (something : session.stdin ≠ []) (reached : R seen (session, .prompt)) :
    ∃ read rest, chunks newline (bufSize - 1) session.stdin =
        read :: chunks newline (bufSize - 1) rest ∧ rest.length < session.stdin.length ∧
      ((Blank read ∧ ∃ next, Poised next ∧ next.stdin = rest ∧
          next.historyCount = session.historyCount ∧ R seen (next, .prompt)) ∨
        (¬Blank read ∧ LineTurn quiet R (seen ++ [(session.stdin, lineText read)])
          session.historyCount (lineText read) rest)) := by
  rcases ready with ⟨⟨reads, inv⟩, unused⟩
  have notAtEnd : ¬AtEnd (session, .prompt) :=
    not_atEnd Phase.noConfusion fun _ => something
  have possible : (scripted true []).Possible quiet (session, .prompt) :=
    scripted_possible true fun _ _ isAct => by cases isAct
  rcases explored.next seen _ _ reached notAtEnd possible (fun _ => unused) with ⟨next, stepped⟩
  have inv' := inv.step stepped
  have reached' := explored.step seen _ _ _ reached notAtEnd possible stepped
  rcases prompt_cases inv something stepped with ⟨read, first, shorter, step⟩
  refine ⟨read, _, first, shorter, ?_⟩
  cases step with
  | @blank after isBlank free same =>
      have nothing : handing (session, .prompt) (after, .prompt) = [] := rfl
      rw [nothing, List.append_nil] at reached'
      exact .inl ⟨isBlank, after, ⟨⟨_, inv'⟩, free⟩, rfl, same, reached'⟩
  | @line after notBlank string inRange counted =>
      have text : handing (session, .prompt) (after, .parse (scripted true []).block) =
          [(session.stdin, lineText read)] := by
        simp only [handing, string, Option.map_some, Option.toList_some]
      rw [text] at reached'
      exact .inr ⟨notBlank, explored.lineTurn inv' rfl string inRange counted reached'⟩

end Turn

/-! ## The start -/

theorem Session.start_initial (quiet : Cmd → Prop) (input : List UInt8) :
    (loop quiet input).init (Session.start input, .prompt) :=
  ⟨rfl, Session.start_hasHistory input, rfl, rfl⟩

theorem Session.start_unused (input : List UInt8) :
    (Session.start input).heap maxRecordNum = none := by
  dsimp only [Session.start]
  exact if_neg (Nat.lt_irrefl maxRecordNum)

theorem Session.start_poised (input : List UInt8) : Poised (Session.start input) :=
  ⟨⟨[], .start (Session.start_initial (fun _ => True) input)⟩, Session.start_unused input⟩

end NckuOs.Shell
