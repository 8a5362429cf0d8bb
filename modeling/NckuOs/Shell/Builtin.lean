import NckuOs.Lib.Decimal
import NckuOs.Lib.Descriptors
import NckuOs.Shell.Dispatch

/-!
# A built-in command in the shell's own process

A single built-in command is not given a child.  The shell saves its standard input and
output, redirects them as a child would, runs the command, and puts them back.
-/

namespace NckuOs.Shell

open NckuOs.Descriptors

variable {δ : Type}

/-! ## The commands -/

/-- The string `exit`. -/
def exitName : Str := [101, 120, 105, 116]

/-- The string `cd`. -/
def cdName : Str := [99, 100]

/-- The string `pwd`. -/
def pwdName : Str := [112, 119, 100]

/-- The string `echo`. -/
def echoName : Str := [101, 99, 104, 111]

/-- The string `-n`. -/
def minusN : Str := [45, 110]

/-- The loop of `echo`, which goes on while `args[i]` points to a string.  It has no result
when it reads behind the array. -/
def echoWords : List (Option Str) → Option Str
  | [] => none
  | none :: _ => some []
  | some word :: rest => do
      let next ← rest.head?
      let others ← echoWords rest
      some (word ++ (if next.isSome then [space] else []) ++ others)

/-- `echo`, with the arguments from `args[1]` on. -/
def echo : List (Option Str) → Option Str
  | some word :: rest =>
      if word = minusN then echoWords rest
      else (echoWords (some word :: rest)).map (· ++ [newline])
  | rest => (echoWords rest).map (· ++ [newline])

/-- The line of dashes of `help`. -/
def dashes : Str := List.replicate 50 45 ++ [newline]

/-- `My Little Shell!!` and `The following are built in:`. -/
def helpHead : Str :=
  [77, 121, 32, 76, 105, 116, 116, 108, 101, 32, 83, 104, 101, 108, 108, 33, 33, newline] ++
  [84, 104, 101, 32, 102, 111, 108, 108, 111, 119, 105, 110, 103, 32, 97, 114, 101, 32, 98,
    117, 105, 108, 116, 32, 105, 110, 58, newline]

/-- `help`. -/
def help : Str :=
  dashes ++ helpHead ++ (builtinStr.zipIdx.flatMap fun p =>
    Decimal.natDigits p.2 ++ [58, space] ++ p.1 ++ [newline]) ++ dashes

/-- `pwd`, with the answer of `getcwd`. -/
def pwd : Option Str → Str
  | some cwd => cwd ++ [newline]
  | none => []

/-- `execBuiltInCommand`: what the command prints to its standard output.  `recorded` is what
`record` prints of the history. -/
def execBuiltInCommand (cwd : Option Str) (recorded : Str) (status : Nat)
    (args : List (Option Str)) : Option Str :=
  match status with
  | 0 => some help
  | 1 => some []
  | 2 => some (pwd cwd)
  | 3 => echo args.tail
  | 4 => some []
  | 5 => some recorded
  | _ => none

/-! ## The branch of `shell` -/

/-- What `open` makes of the two files of a command; nothing where the path is refused. -/
structure Opened (δ : Type) where
  input : Option δ
  output : Option δ

/-- The variables `in` and `out`, where nothing stands for `-1`, and the descriptors. -/
structure Saved (δ : Type) where
  inFd : Option Nat
  outFd : Option Nat
  table : Table δ

/-- `dup`, which fails when the descriptor is closed or no other is free. -/
def dup (limit : Nat) (table : Table δ) (fd : Nat) : Option Nat × Table δ :=
  match (table.lookup fd).bind (table.allocBelow limit) with
  | none => (none, table)
  | some (copy, next) => (some copy, next)

/-- `open`, `dup2` onto a standard descriptor, and `close`. -/
def openOnto (limit : Nat) (file : Option δ) (std : Nat) (table : Table δ) :
    Option (Table δ) := do
  let description ← file
  let (fd, next) ← table.allocBelow limit description
  some ((next.dup2 fd std).close fd)

/-- One half of `redirection`. -/
def redirectHalf (limit : Nat) (name : Option Str) (file : Option δ) (fd std : Nat)
    (table : Table δ) : Option (Table δ) :=
  match name with
  | some _ => openOnto limit file std table
  | none => some (if fd = std then table else table.dup2 fd std)

/-- `redirection`.  There is no result when it has called `exit`. -/
def redirection (limit : Nat) (node : CmdNode) (opened : Opened δ) (table : Table δ) :
    Option (Table δ) := do
  let table ← redirectHalf limit node.inFile opened.input node.inFd 0 table
  redirectHalf limit node.outFile opened.output node.outFd 1 table

/-- The statements in front of `execBuiltInCommand`. -/
def beforeBuiltIn (limit : Nat) (node : CmdNode) (opened : Opened δ) (table : Table δ) :
    Option (Saved δ) :=
  let inFd := dup limit table 0
  let outFd := dup limit inFd.2 1
  (redirection limit node opened outFd.2).map fun table => ⟨inFd.1, outFd.1, table⟩

/-- `dup2` of a saved descriptor, for a command with such a file. -/
def recover (name : Option Str) (saved : Option Nat) (std : Nat) (table : Table δ) : Table δ :=
  match name, saved with
  | some _, some fd => table.dup2 fd std
  | _, _ => table

/-- `close` of a saved descriptor. -/
def closeSaved (saved : Option Nat) (table : Table δ) : Table δ :=
  match saved with
  | none => table
  | some fd => table.close fd

/-- The statements behind `execBuiltInCommand`. -/
def afterBuiltIn (node : CmdNode) (saved : Saved δ) : Table δ :=
  let table := recover node.inFile saved.inFd 0 saved.table
  let table := recover node.outFile saved.outFd 1 table
  closeSaved saved.outFd (closeSaved saved.inFd table)

/-- The files of a command can be opened: the system gives them, and beside the two saved
descriptors there is one left. -/
structure Opens (limit : Nat) (table : Table δ) (node : CmdNode) (opened : Opened δ) : Prop where
  input : node.inFile.isSome → opened.input.isSome
  output : node.outFile.isSome → opened.output.isSome
  room : node.inFile.isSome ∨ node.outFile.isSome → 3 ≤ table.free limit

/-! ## A line -/

/-- A line with a single built-in command other than `exit`. -/
structure BuiltInLine where
  line : Str
  command : Command
  name : Str
  single : commands line = [command]
  named : command.args.head? = some name
  builtIn : name ∈ builtinStr
  notExit : name ≠ exitName

/-- A line, with the answers of `open` and `getcwd` and the text of the history. -/
structure Turn (δ : Type) where
  line : BuiltInLine
  opened : Opened δ
  cwd : Option Str
  recorded : Str

/-- The node of a line. -/
def BuiltInLine.node (line : BuiltInLine) : CmdNode :=
  line.command.node none

/-- The shell from `split_line` to `searchBuiltInCommand`: the node and the number of a
single built-in command. -/
def findBuiltIn (line : Str) : Option (CmdNode × Nat) := do
  let cmd ← splitLine line
  let temp ← cmd.nodes[cmd.head]?
  let status ← searchBuiltInCommand temp
  if temp.next = none then status.map fun i => (temp, i) else none

/-- The branch for a single built-in command: the descriptors, while the shell stays in its
loop. -/
def lineStep (limit : Nat) (table : Table δ) (turn : Turn δ) : Option (Table δ) := do
  let (temp, status) ← findBuiltIn turn.line.line
  let saved ← beforeBuiltIn limit temp turn.opened table
  let _ ← execBuiltInCommand turn.cwd turn.recorded status temp.args
  if temp.name? = some exitName then none else some (afterBuiltIn temp saved)

/-- The words of a line fit in their array, and `echo` finds the `NULL` behind them. -/
structure BuiltInLine.Fits (line : BuiltInLine) : Prop where
  stored : line.command.args.length ≤ argsLength
  ended : line.name = echoName → line.command.args.length < argsLength

/-! ## What a line is -/

/-- The number that a built-in command has. -/
def BuiltInLine.status (line : BuiltInLine) : Nat :=
  builtinStr.findIdx fun builtin => builtin = line.name

theorem BuiltInLine.name_node (line : BuiltInLine) : line.node.name? = some line.name := by
  have named := line.named
  unfold node Command.node CmdNode.name?
  cases words : line.command.args with
  | nil =>
      rw [words] at named
      cases named
  | cons word rest =>
      rw [words] at named
      cases named
      rfl

/-- `shell` finds a built-in command when its words fit in their array. -/
theorem BuiltInLine.found (line : BuiltInLine) : findBuiltIn line.line =
    if line.command.args.length ≤ argsLength then some (line.node, line.status) else none := by
  rcases splitLine_eq line.line with ⟨pipeNum, parsed⟩
  have position : builtinStr.findIdx? (fun builtin => builtin = line.name) = some line.status := by
    rw [List.findIdx?_eq_some_iff_findIdx_eq]
    constructor
    · exact List.findIdx_lt_length.mpr ⟨line.name, line.builtIn, decide_eq_true rfl⟩
    · rfl
  rw [findBuiltIn, parsed, line.single]
  simp only [List.forall_mem_singleton, Command.Roomy]
  split
  next =>
    have searched : searchBuiltInCommand line.node = some (some line.status) := by
      rw [searchBuiltInCommand, line.name_node, Option.map_some, position]
    have head : (chain 0 [line.command])[0]? = some line.node := rfl
    simp only [Option.bind_eq_bind, Option.bind_some, head, searched]
    rfl
  next => rfl

/-- `echo` joins its words. -/
theorem echoWords_join (words : List Str) (rest : List (Option Str)) :
    echoWords (words.map some ++ none :: rest) = some ([space].intercalate words) := by
  induction words with
  | nil => rfl
  | cons word words ih =>
      rw [List.map_cons, List.cons_append, echoWords, ih]
      cases words with
      | nil => simp
      | cons second words => simp

theorem echoWords_full (words : List Str) : echoWords (words.map some) = none := by
  induction words with
  | nil => rfl
  | cons word words ih =>
      rw [List.map_cons, echoWords, ih]
      cases words <;> rfl

/-- The words behind `echo`, joined by blanks; a newline follows them unless the first is
`-n`. -/
def echoText (words : List Str) : Str :=
  if words.head? = some minusN then [space].intercalate words.tail
  else [space].intercalate words ++ [newline]

theorem echo_join (words : List Str) (rest : List (Option Str)) :
    echo (words.map some ++ none :: rest) = some (echoText words) := by
  cases words with
  | nil => rfl
  | cons word words =>
      have all := echoWords_join (word :: words) rest
      rw [List.map_cons, List.cons_append] at all ⊢
      rw [echo, echoText, echoWords_join, all]
      by_cases isMinusN : word = minusN
      · have same : (word :: words).head? = some minusN := congrArg some isMinusN
        rw [if_pos isMinusN, if_pos same, List.tail_cons]
      · have differs : ¬(word :: words).head? = some minusN :=
          fun same => isMinusN (Option.some.inj same)
        rw [if_neg isMinusN, if_neg differs, Option.map_some]

theorem echo_full (words : List Str) : echo (words.map some) = none := by
  cases words with
  | nil => rfl
  | cons word words =>
      have all := echoWords_full (word :: words)
      rw [List.map_cons] at all ⊢
      rw [echo, echoWords_full, all]
      split <;> rfl

/-- `echo` finds the `NULL` behind its words unless they fill the array. -/
theorem echo_node {command : Command} (named : command.args ≠ [])
    (stored : command.args.length ≤ argsLength) (next : Option Nat) :
    echo (command.node next).args.tail =
      if command.args.length = argsLength then none else some (echoText command.args.tail) := by
  rw [Command.node]
  cases args : command.args with
  | nil => exact absurd args named
  | cons word words =>
      rw [args] at stored
      rw [List.map_cons, List.cons_append, List.tail_cons, List.tail_cons]
      rcases Nat.lt_or_eq_of_le stored with short | full
      · rw [if_neg short.ne, ← Nat.succ_pred_eq_of_pos (Nat.sub_pos_of_lt short),
          List.replicate_succ, echo_join]
      · rw [if_pos full, full, Nat.sub_self, List.replicate_zero, List.append_nil, echo_full]

/-- What the command of a line prints. -/
def BuiltInLine.text (line : BuiltInLine) (cwd : Option Str) (recorded : Str) : Str :=
  match line.status with
  | 0 => help
  | 2 => pwd cwd
  | 3 => echoText line.command.args.tail
  | 5 => recorded
  | _ => []

/-- The numbers of the built-in commands. -/
theorem findIdx_builtin : ∀ name ∈ builtinStr,
    (builtinStr.findIdx fun builtin => builtin = name) < 6 ∧
      ((builtinStr.findIdx fun builtin => builtin = name) = 1 ↔ name = cdName) ∧
      ((builtinStr.findIdx fun builtin => builtin = name) = 2 ↔ name = pwdName) ∧
      ((builtinStr.findIdx fun builtin => builtin = name) = 3 ↔ name = echoName) ∧
      ((builtinStr.findIdx fun builtin => builtin = name) = 4 ↔ name = exitName) := by
  decide

theorem BuiltInLine.status_cases (line : BuiltInLine) : line.status < 6 ∧
    (line.status = 1 ↔ line.name = cdName) ∧ (line.status = 2 ↔ line.name = pwdName) ∧
      (line.status = 3 ↔ line.name = echoName) ∧ (line.status = 4 ↔ line.name = exitName) :=
  findIdx_builtin line.name line.builtIn

/-- A built-in command comes to its end, unless `echo` misses the `NULL` behind its words. -/
theorem BuiltInLine.exec_eq {line : BuiltInLine} (stored : line.command.args.length ≤ argsLength)
    (cwd : Option Str) (recorded : Str) :
    execBuiltInCommand cwd recorded line.status line.node.args =
      if line.name = echoName ∧ line.command.args.length = argsLength then none
      else some (line.text cwd recorded) := by
  rcases line.status_cases with ⟨few, _, _, isEcho, _⟩
  simp only [← isEcho, text]
  generalize line.status = status at few
  match status, few with
  | 0, _ => rfl
  | 1, _ => rfl
  | 2, _ => rfl
  | 4, _ => rfl
  | 5, _ => rfl
  | 3, _ =>
      have named : line.command.args ≠ [] := by
        intro nothing
        have name := line.named
        rw [nothing] at name
        cases name
      simp only [true_and]
      exact echo_node named stored none

variable {line : BuiltInLine} {cwd : Option Str} {recorded : Str}

/-- A line that fits is found, and its command prints its text. -/
theorem BuiltInLine.Fits.runs (fits : line.Fits) (cwd : Option Str) (recorded : Str) :
    findBuiltIn line.line = some (line.node, line.status) ∧
      execBuiltInCommand cwd recorded line.status line.node.args =
        some (line.text cwd recorded) := by
  have room : ¬(line.name = echoName ∧ line.command.args.length = argsLength) :=
    fun both => (fits.ended both.1).ne both.2
  rw [line.found, if_pos fits.stored, BuiltInLine.exec_eq fits.stored, if_neg room]
  exact ⟨rfl, rfl⟩

/-- Any other line has no result. -/
theorem BuiltInLine.fits_of_runs {temp : CmdNode} {status : Nat} {text : Str}
    (found : findBuiltIn line.line = some (temp, status))
    (printed : execBuiltInCommand cwd recorded status temp.args = some text) : line.Fits := by
  rw [line.found] at found
  split at found
  next stored =>
    cases found
    rw [BuiltInLine.exec_eq stored] at printed
    split at printed
    next => cases printed
    next room => exact ⟨stored, fun isEcho => Nat.lt_of_le_of_ne stored fun full =>
        room ⟨isEcho, full⟩⟩
  next => cases found

/-! ## Lines that print nothing -/

/-- What prints nothing: `cd`, `pwd` where `getcwd` fails, and `echo -n`. -/
def BuiltInLine.Silent (line : BuiltInLine) (cwd : Option Str) : Prop :=
  line.name = cdName ∨ line.name = pwdName ∧ cwd = none ∨
    line.name = echoName ∧ line.command.args.tail = [minusN]

theorem echoText_eq_nil_iff {words : List Str} (filled : ∀ word ∈ words, word ≠ []) :
    echoText words = [] ↔ words = [minusN] := by
  unfold echoText
  split
  next isMinusN =>
    rcases words with _ | ⟨first, _ | ⟨second, rest⟩⟩
    · cases isMinusN
    · simpa using isMinusN
    · have some : second ≠ [] := filled second (by simp)
      cases rest <;> simp [some]
  next other =>
    constructor
    · intro nothing
      simp at nothing
    · rintro rfl
      exact absurd rfl other

/-- The lines that print nothing. -/
theorem BuiltInLine.text_eq_nil_iff (line : BuiltInLine) (cwd : Option Str) {recorded : Str}
    (nonempty : recorded ≠ []) : line.text cwd recorded = [] ↔ line.Silent cwd := by
  have isMem : line.command ∈ commands line.line := by
    rw [line.single]
    exact List.mem_cons_self
  have filled : ∀ word ∈ line.command.args.tail, word ≠ [] :=
    fun word isWord => ne_nil_of_mem_args isMem (List.mem_of_mem_tail isWord)
  rcases line.status_cases with ⟨few, isCd, isPwd, isEcho, isExit⟩
  have notExit := mt isExit.mp line.notExit
  rw [Silent, ← isCd, ← isPwd, ← isEcho, text]
  generalize line.status = status at few notExit
  match status, few with
  | 0, _ => simp [help, dashes]
  | 1, _ => simp
  | 2, _ => cases cwd <;> simp [pwd]
  | 3, _ => simp [echoText_eq_nil_iff filled]
  | 4, _ => exact absurd rfl notExit
  | 5, _ => simp [nonempty]

end NckuOs.Shell
