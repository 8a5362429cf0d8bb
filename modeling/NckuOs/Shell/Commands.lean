import NckuOs.Shell.RoundTrip

/-!
# The commands of any line

What `split_line` makes of an arbitrary line: an operator is any token that begins with
one, and the next token is its file.  The node of a command has room for ten arguments.
-/

namespace NckuOs.Shell

open NckuOs.Words

/-- A part of a command.  An operator comes with the characters that are written directly
behind it, and the token that follows it, if there is one. -/
inductive Part
  | arg (word : Str)
  | input (glued : Str) (file : Option Str)
  | output (glued : Str) (file : Option Str)
  deriving DecidableEq

namespace Part

/-- The word of an argument. -/
def arg? : Part → Option Str
  | .arg word => some word
  | _ => none

/-- What a `<` makes `in_file`. -/
def input? : Part → Option (Option Str)
  | .input _ file => some file
  | _ => none

/-- What a `>` makes `out_file`. -/
def output? : Part → Option (Option Str)
  | .output _ file => some file
  | _ => none

end Part

/-- A command, with the characters directly behind the `|` in front of it. -/
structure Command where
  glued : Str
  parts : List Part
  deriving DecidableEq

theorem filterMap_concat {α β : Type} (pick : α → Option β) (front : List α) (last : α) :
    (front ++ [last]).filterMap pick = front.filterMap pick ++ (pick last).toList := by
  rw [List.filterMap_append]
  cases picked : pick last with
  | none => simp [picked]
  | some value => simp [picked]

namespace Command

/-- A further part. -/
def add (command : Command) (part : Part) : Command :=
  { command with parts := command.parts ++ [part] }

/-- The plain words. -/
def args (command : Command) : List Str :=
  command.parts.filterMap Part.arg?

/-- The files of the `<`. -/
def inputs (command : Command) : List (Option Str) :=
  command.parts.filterMap Part.input?

/-- The files of the `>`. -/
def outputs (command : Command) : List (Option Str) :=
  command.parts.filterMap Part.output?

/-- The arguments fit in the allocated slots. -/
def Roomy (command : Command) : Prop :=
  command.args.length ≤ argsLength

instance (command : Command) : Decidable command.Roomy :=
  inferInstanceAs (Decidable (_ ≤ _))

@[simp] theorem args_add (command : Command) (part : Part) :
    (command.add part).args = command.args ++ part.arg?.toList :=
  filterMap_concat _ _ _

@[simp] theorem inputs_add (command : Command) (part : Part) :
    (command.add part).inputs = command.inputs ++ part.input?.toList :=
  filterMap_concat _ _ _

@[simp] theorem outputs_add (command : Command) (part : Part) :
    (command.add part).outputs = command.outputs ++ part.output?.toList :=
  filterMap_concat _ _ _

/-- The node of a command: what the last redirections say, and `NULL` in the slots
without an argument. -/
def node (command : Command) (next : Option Nat) : CmdNode where
  args := command.args.map some ++ List.replicate (argsLength - command.args.length) none
  length := command.args.length
  inFile := command.inputs.getLast?.join
  outFile := command.outputs.getLast?.join
  inFd := 0
  outFd := 1
  next := next

end Command

/-- The commands of the remaining tokens; the first has begun with `command`. -/
def commandsFrom (command : Command) : List Str → List Command
  | [] => [command]
  | token :: rest =>
      if token.head? = some bar then command :: commandsFrom ⟨token.tail, []⟩ rest
      else if token.head? = some less then
        match rest with
        | [] => [command.add (.input token.tail none)]
        | file :: rest => commandsFrom (command.add (.input token.tail (some file))) rest
      else if token.head? = some greater then
        match rest with
        | [] => [command.add (.output token.tail none)]
        | file :: rest => commandsFrom (command.add (.output token.tail (some file))) rest
      else commandsFrom (command.add (.arg token)) rest

/-- The tokens of a line. -/
def tokensOf (line : Str) : List Str :=
  words space (line.takeWhile fun c => c ≠ 0)

/-- The commands of a line. -/
def commands (line : Str) : List Command :=
  commandsFrom ⟨[], []⟩ (tokensOf line)

/-- The index of the first of these commands. -/
def link (k : Nat) : List Command → Option Nat
  | [] => none
  | _ :: _ => some k

/-- The nodes of commands from index `k` on, each linked to the next. -/
def chain : Nat → List Command → List CmdNode
  | _, [] => []
  | k, command :: rest => command.node (link (k + 1) rest) :: chain (k + 1) rest

/-! ## What has been read stays -/

/-- The first command goes on as `command` has begun, and there is one. -/
def GoesOn (command : Command) (found : List Command) : Prop :=
  ∃ more rest, found = ⟨command.glued, command.parts ++ more⟩ :: rest

theorem goesOn_self (command : Command) (rest : List Command) :
    GoesOn command (command :: rest) :=
  ⟨[], rest, by rw [List.append_nil]⟩

theorem GoesOn.of_add {command : Command} {part : Part} {found : List Command}
    (goesOn : GoesOn (command.add part) found) : GoesOn command found := by
  rcases goesOn with ⟨more, rest, eq⟩
  refine ⟨part :: more, rest, ?_⟩
  rw [eq, Command.add, List.append_assoc]
  rfl

/-- Nothing is lost of what the first command has begun with. -/
theorem commandsFrom_goesOn (command : Command) (tokens : List Str) :
    GoesOn command (commandsFrom command tokens) := by
  fun_induction commandsFrom command tokens with
  | case1 command => exact goesOn_self command []
  | case2 command token rest => exact goesOn_self command _
  | case3 command token => exact (goesOn_self _ []).of_add
  | case4 command token _ _ file rest ih => exact ih.of_add
  | case5 command token => exact (goesOn_self _ []).of_add
  | case6 command token _ _ _ file rest ih => exact ih.of_add
  | case7 command token rest _ _ _ ih => exact ih.of_add

theorem commandsFrom_ne_nil (command : Command) (tokens : List Str) :
    commandsFrom command tokens ≠ [] := by
  rcases commandsFrom_goesOn command tokens with ⟨more, rest, eq⟩
  rw [eq]
  exact List.cons_ne_nil _ rest

/-- A command that is too long already stays too long. -/
theorem not_roomy_of_begun {command : Command} (crowded : ¬command.Roomy) (tokens : List Str) :
    ¬∀ found ∈ commandsFrom command tokens, found.Roomy := by
  rcases commandsFrom_goesOn command tokens with ⟨more, rest, eq⟩
  intro roomy
  apply crowded
  have first := roomy _ (by rw [eq]; exact List.mem_cons_self)
  rw [Command.Roomy, Command.args, List.filterMap_append, List.length_append] at first
  exact Nat.le_of_add_right_le first

/-! ## One part -/

theorem link_of_ne_nil (k : Nat) {all : List Command} (nonempty : all ≠ []) :
    link k all = some k := by
  cases all with
  | nil => exact absurd rfl nonempty
  | cons first rest => rfl

/-- The loop at a command of which a part has been read, behind the nodes `front`. -/
def loopAt (front : List CmdNode) (command : Command) (pipeNum : Nat) : Parse :=
  ⟨front ++ [command.node none], front.length, pipeNum⟩

variable (front : List CmdNode) (command : Command) (pipeNum : Nat)

theorem loopAt_update (change : CmdNode → CmdNode) :
    (loopAt front command pipeNum).update change =
      ⟨front ++ [change (command.node none)], front.length, pipeNum⟩ := by
  simp only [loopAt, Parse.update, modify_last]

theorem loopAt_input (glued : Str) (file : Option Str) :
    ((loopAt front command pipeNum).update fun node => { node with inFile := file }).count =
      loopAt front (command.add (.input glued file)) (pipeNum + 1) := by
  have stored : (command.add (.input glued file)).node none =
      { command.node none with inFile := file } := by
    simp [Command.node, Part.arg?, Part.input?, Part.output?]
  rw [loopAt_update, loopAt, stored]
  rfl

theorem loopAt_output (glued : Str) (file : Option Str) :
    ((loopAt front command pipeNum).update fun node => { node with outFile := file }).count =
      loopAt front (command.add (.output glued file)) (pipeNum + 1) := by
  have stored : (command.add (.output glued file)).node none =
      { command.node none with outFile := file } := by
    simp [Command.node, Part.arg?, Part.input?, Part.output?]
  rw [loopAt_update, loopAt, stored]
  rfl

theorem Command.node_add_arg (word : Str) (room : command.args.length < argsLength) :
    (command.add (.arg word)).node none =
      { command.node none with
        args := (command.node none).args.set (command.node none).length (some word)
        length := (command.node none).length + 1 } := by
  simp only [node, args_add, inputs_add, outputs_add, Part.arg?, Part.input?, Part.output?,
    Option.toList_some, Option.toList_none, List.append_nil, set_firstFree word room,
    List.length_append, List.length_singleton]

/-- An argument is stored while there is a slot. -/
theorem loopAt_pushArg (word : Str) :
    (loopAt front command pipeNum).pushArg word =
      if command.args.length < argsLength then
        some (loopAt front (command.add (.arg word)) pipeNum)
      else none := by
  have here : (loopAt front command pipeNum).nodes[(loopAt front command pipeNum).temp]? =
      some (command.node none) := by
    simp [loopAt]
  have slots : (command.node none).length < (command.node none).args.length ↔
      command.args.length < argsLength := by
    simp only [Command.node, List.length_append, List.length_map, List.length_replicate]
    omega
  simp only [Parse.pushArg, here, slots, loopAt_update]
  split
  next room => rw [loopAt, command.node_add_arg word room]
  next => rfl

theorem loopAt_pipe (glued : Str) :
    (loopAt front command pipeNum).pipe.count =
      loopAt (front ++ [command.node (some (front.length + 1))]) ⟨glued, []⟩ (pipeNum + 1) := by
  have count : (loopAt front command pipeNum).nodes.length = front.length + 1 := by
    simp [loopAt]
  simp only [Parse.pipe, loopAt_update, count]
  simp [loopAt, Parse.count, Command.node, Command.args, Command.inputs, Command.outputs,
    CmdNode.fresh]

/-! ## The loop -/

theorem Command.Roomy.add_input (roomy : command.Roomy) (glued : Str) (file : Option Str) :
    (command.add (.input glued file)).Roomy := by
  simpa [Roomy, Part.arg?] using roomy

theorem Command.Roomy.add_output (roomy : command.Roomy) (glued : Str) (file : Option Str) :
    (command.add (.output glued file)).Roomy := by
  simpa [Roomy, Part.arg?] using roomy

theorem Command.roomy_add_arg (word : Str) :
    (command.add (.arg word)).Roomy ↔ command.args.length < argsLength := by
  rw [Roomy, args_add, Part.arg?, Option.toList_some, List.length_append, List.length_singleton]
  exact Nat.succ_le_iff

/-- The loop fails at a command with too many words, and else has a node for each command. -/
theorem splitLoop_eq (tokens : List Str) (roomy : command.Roomy) :
    ∃ temp count, splitLoop tokens (loopAt front command pipeNum) =
      if ∀ found ∈ commandsFrom command tokens, found.Roomy then
        some ⟨front ++ chain front.length (commandsFrom command tokens), temp, count⟩
      else none := by
  fun_induction commandsFrom command tokens generalizing front pipeNum with
  | case1 command =>
      refine ⟨front.length, pipeNum, ?_⟩
      rw [if_pos (by simpa using roomy)]
      rfl
  | case2 command token rest isBar ih =>
      have started : Command.Roomy ⟨token.tail, []⟩ := Nat.zero_le _
      rcases ih (front ++ [command.node (some (front.length + 1))]) (pipeNum + 1) started with
        ⟨temp, count, parsed⟩
      refine ⟨temp, count, ?_⟩
      rw [splitLoop.eq_def]
      simp only [if_pos isBar, loopAt_pipe front command pipeNum token.tail, parsed,
        List.forall_mem_cons, roomy, true_and, chain, link_of_ne_nil _ (commandsFrom_ne_nil _ rest),
        List.length_append, List.length_singleton, List.append_assoc, List.singleton_append]
  | case3 command token notBar isLess =>
      refine ⟨front.length, pipeNum + 1, ?_⟩
      rw [if_pos (by simpa using roomy.add_input command token.tail none), splitLoop.eq_def]
      simp only [if_neg notBar, if_pos isLess, loopAt_input front command pipeNum token.tail]
      rfl
  | case4 command token notBar isLess file rest ih =>
      rcases ih front (pipeNum + 1) (roomy.add_input command token.tail (some file)) with
        ⟨temp, count, parsed⟩
      refine ⟨temp, count, ?_⟩
      rw [splitLoop.eq_def]
      simp only [if_neg notBar, if_pos isLess, loopAt_input front command pipeNum token.tail,
        parsed]
  | case5 command token notBar notLess isGreater =>
      refine ⟨front.length, pipeNum + 1, ?_⟩
      rw [if_pos (by simpa using roomy.add_output command token.tail none), splitLoop.eq_def]
      simp only [if_neg notBar, if_neg notLess, if_pos isGreater,
        loopAt_output front command pipeNum token.tail]
      rfl
  | case6 command token notBar notLess isGreater file rest ih =>
      rcases ih front (pipeNum + 1) (roomy.add_output command token.tail (some file)) with
        ⟨temp, count, parsed⟩
      refine ⟨temp, count, ?_⟩
      rw [splitLoop.eq_def]
      simp only [if_neg notBar, if_neg notLess, if_pos isGreater,
        loopAt_output front command pipeNum token.tail, parsed]
  | case7 command token rest notBar notLess notGreater ih =>
      rw [splitLoop.eq_def]
      simp only [if_neg notBar, if_neg notLess, if_neg notGreater, loopAt_pushArg]
      by_cases room : command.args.length < argsLength
      · rcases ih front (pipeNum + 1) ((command.roomy_add_arg token).mpr room) with
          ⟨temp, count, parsed⟩
        refine ⟨temp, count, ?_⟩
        rw [if_pos room]
        exact parsed
      · have crowded : ¬(command.add (.arg token)).Roomy :=
          fun roomy => room ((command.roomy_add_arg token).mp roomy)
        refine ⟨0, 0, ?_⟩
        rw [if_neg room, if_neg (not_roomy_of_begun crowded rest)]

/-- `split_line` has a node for each command of the line, unless one has more arguments than
slots. -/
theorem splitLine_eq (line : Str) :
    ∃ pipeNum, splitLine line =
      if ∀ command ∈ commands line, command.Roomy then
        some ⟨chain 0 (commands line), 0, pipeNum⟩
      else none := by
  have started : Command.Roomy ⟨[], []⟩ := Nat.zero_le _
  rcases splitLoop_eq [] ⟨[], []⟩ 0 (tokensOf line) started with ⟨temp, count, parsed⟩
  refine ⟨count, ?_⟩
  have start : (⟨[.fresh], 0, 0⟩ : Parse) = loopAt [] ⟨[], []⟩ 0 := rfl
  rw [splitLine, start]
  unfold commands
  unfold tokensOf at parsed ⊢
  rw [parsed]
  split
  · rfl
  · rfl

/-! ## The nodes -/

theorem length_chain (k : Nat) (all : List Command) : (chain k all).length = all.length := by
  induction all generalizing k with
  | nil => rfl
  | cons command rest ih => rw [chain, List.length_cons, ih, List.length_cons]

/-- A property of all nodes that does not depend on the links. -/
theorem forall_chain_iff {P : CmdNode → Prop} {Q : Command → Prop}
    (each : ∀ command next, P (command.node next) ↔ Q command) (k : Nat) (all : List Command) :
    (∀ node ∈ chain k all, P node) ↔ ∀ command ∈ all, Q command := by
  induction all generalizing k with
  | nil =>
      rw [chain]
      exact iff_of_true (List.forall_mem_nil P) (List.forall_mem_nil Q)
  | cons command rest ih =>
      rw [chain, List.forall_mem_cons, List.forall_mem_cons, each, ih]

/-- What holds of a line that `split_line` takes apart, as a matter of its commands. -/
theorem splitLine_iff (line : Str) :
    ∃ pipeNum, ∀ P : Cmd → Prop, (∃ cmd, splitLine line = some cmd ∧ P cmd) ↔
      (∀ command ∈ commands line, command.Roomy) ∧ P ⟨chain 0 (commands line), 0, pipeNum⟩ := by
  rcases splitLine_eq line with ⟨pipeNum, parsed⟩
  refine ⟨pipeNum, fun P => ?_⟩
  rw [parsed]
  by_cases roomy : ∀ command ∈ commands line, command.Roomy
  · rw [if_pos roomy]
    constructor
    · rintro ⟨cmd, same, holds⟩
      cases same
      exact ⟨roomy, holds⟩
    · rintro ⟨_, holds⟩
      exact ⟨_, rfl, holds⟩
  · rw [if_neg roomy]
    constructor
    · rintro ⟨cmd, same, _⟩
      cases same
    · rintro ⟨always, _⟩
      exact absurd always roomy

/-- The words of a command are not empty. -/
theorem ne_nil_of_mem_args {line : Str} {command : Command} (isMem : command ∈ commands line)
    {word : Str} (isWord : word ∈ command.args) : word ≠ [] := by
  have tokens : ∀ token ∈ tokensOf line, token ≠ [] :=
    fun token inLine => (spells_words space _).ne_nil inLine
  have each (begun : Command) (tokens : List Str) (filled : ∀ token ∈ tokens, token ≠ [])
      (words : ∀ word ∈ begun.args, word ≠ []) :
      ∀ found ∈ commandsFrom begun tokens, ∀ word ∈ found.args, word ≠ [] := by
    fun_induction commandsFrom begun tokens with
    | case1 begun => simpa using words
    | case2 begun token rest _ ih =>
        rw [List.forall_mem_cons] at filled
        rw [List.forall_mem_cons]
        exact ⟨words, ih filled.2 (List.forall_mem_nil _)⟩
    | case3 begun token => simpa [Part.arg?] using words
    | case4 begun token _ _ file rest ih =>
        simp only [List.forall_mem_cons] at filled
        exact ih filled.2.2 (by simpa [Part.arg?] using words)
    | case5 begun token => simpa [Part.arg?] using words
    | case6 begun token _ _ _ file rest ih =>
        simp only [List.forall_mem_cons] at filled
        exact ih filled.2.2 (by simpa [Part.arg?] using words)
    | case7 begun token rest _ _ _ ih =>
        rw [List.forall_mem_cons] at filled
        apply ih filled.2
        rw [Command.args_add, List.forall_mem_append]
        exact ⟨words, by simpa [Part.arg?] using filled.1⟩
  exact each ⟨[], []⟩ _ tokens (List.forall_mem_nil _) command isMem word isWord

end NckuOs.Shell
