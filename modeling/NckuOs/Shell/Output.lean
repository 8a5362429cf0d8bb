import NckuOs.Lib.Buffered
import NckuOs.Shell.History
import NckuOs.Shell.Intact

/-!
# Where the output of built-in commands goes

`printf` puts characters into a buffer, and the shell never writes that buffer itself.  It
changes descriptor 1 in front of a redirected command and behind it, with the characters
still waiting.
-/

namespace NckuOs.Shell

open NckuOs.Buffered NckuOs.Descriptors
open NckuOs.Descriptors.Table (Same)

/-! ## The shell and its standard output -/

/-- Where output can go. -/
inductive Place
  | terminal
  | named (path : Str)
  deriving DecidableEq

/-- How standard output is buffered. -/
structure Buffering where
  capacity : Nat
  byLine : Bool

/-- The characters behind which the buffer is written. -/
def Buffering.ends (buffering : Buffering) (c : UInt8) : Bool :=
  buffering.byLine && decide (c = newline)

/-- `>>> $ `. -/
def prompt : Str := [62, 62, 62, space, 36, space]

/-- The shell's descriptors, standard output, and the lines that it has accepted. -/
structure Console where
  table : Table Place
  stdout : Output Place UInt8
  accepted : List Str

/-- A line that is typed, with the answer of `getcwd`. -/
structure Typed where
  line : BuiltInLine
  cwd : Option Str

/-- Every file of a command can be opened. -/
def allOpened (node : CmdNode) : Opened Place where
  input := node.inFile.map .named
  output := node.outFile.map .named

/-- `O_TRUNC`. -/
def truncated (outFile : Option Str) (stdout : Output Place UInt8) : Output Place UInt8 :=
  match outFile with
  | none => stdout
  | some path => stdout.truncate (.named path)

/-- The loop of `shell` for one line, from the prompt on. -/
def consoleStep (limit : Nat) (buffering : Buffering) (console : Console) (typed : Typed) :
    Option Console := do
  let here ← console.table.lookup 1
  let stdout := console.stdout.print buffering.capacity buffering.ends here prompt
  let accepted := console.accepted ++ [typed.line.line]
  let (temp, status) ← findBuiltIn typed.line.line
  let saved ← beforeBuiltIn limit temp (allOpened temp) console.table
  let stdout := truncated temp.outFile stdout
  let there ← saved.table.lookup 1
  let text ← execBuiltInCommand typed.cwd (listing (Ring.last maxRecordNum accepted)) status
    temp.args
  some ⟨afterBuiltIn temp saved, stdout.print buffering.capacity buffering.ends there text,
    accepted⟩

/-- The line `exit`: the prompt, and the buffer is written when the process exits. -/
def consoleExit (buffering : Buffering) (console : Console) :
    Option (Output Place UInt8) := do
  let here ← console.table.lookup 1
  some ((console.stdout.print buffering.capacity buffering.ends here prompt).flush here)

/-- The shell from its start on, over lines and then `exit`. -/
def shellOutput (limit : Nat) (buffering : Buffering) (console : Console) (typed : List Typed) :
    Option (Output Place UInt8) := do
  let last ← typed.foldlM (consoleStep limit buffering) console
  consoleExit buffering last

/-- What the command of a line prints behind these lines. -/
def Typed.text (typed : Typed) (earlier : List Str) : Str :=
  typed.line.text typed.cwd (listing (Ring.last maxRecordNum (earlier ++ [typed.line.line])))

/-- Where the output of a line is meant to go. -/
def Typed.place (typed : Typed) : Place :=
  match typed.line.node.outFile with
  | none => .terminal
  | some path => .named path

/-- Every character has gone where its command was redirected to, and a file holds what the
last command with that file has printed. -/
structure Redirected (typed : List Typed) (final : Output Place UInt8) : Prop where
  arrives : ¬final.Astray
  files : ∀ front one rest path, typed = front ++ one :: rest →
    one.line.node.outFile = some path → (∀ later ∈ rest, later.line.node.outFile ≠ some path) →
      final.holds (.named path) = one.text (front.map fun typed => typed.line.line)

/-- A line with an output file prints nothing. -/
def Typed.Harmless (typed : Typed) : Prop :=
  typed.line.node.outFile.isSome → typed.line.Silent typed.cwd

/-! ## One line -/

variable {limit : Nat} {buffering : Buffering} {console next : Console} {typed : Typed}

/-- The descriptors are those of the start: the terminal, and some room. -/
structure Ready (limit : Nat) (table : Table Place) : Prop where
  input : table.lookup 0 ≠ none
  output : table.lookup 1 = some .terminal
  room : 3 ≤ table.free limit

theorem Ready.congr {table table' : Table Place} (ready : Ready limit table)
    (same : Same table table') : Ready limit table' where
  input := (same 0).symm ▸ ready.input
  output := (same 1).trans ready.output
  room := (same.free limit).symm ▸ ready.room

theorem Ready.opens {table : Table Place} (ready : Ready limit table) (node : CmdNode) :
    Opens limit table node (allOpened node) where
  input isName := by
    rw [allOpened, Option.isSome_map]
    exact isName
  output isName := by
    rw [allOpened, Option.isSome_map]
    exact isName
  room _ := ready.room

/-- Standard output behind a line. -/
def Typed.printed (buffering : Buffering) (console : Console) (typed : Typed) :
    Output Place UInt8 :=
  (truncated typed.line.node.outFile
    (console.stdout.print buffering.capacity buffering.ends .terminal prompt)).print
      buffering.capacity buffering.ends typed.place (typed.text console.accepted)

/-- What the shell does with a line that fits. -/
theorem consoleStep_eq (ready : Ready limit console.table) {saved : Saved Place}
    (fits : typed.line.Fits) (before : beforeBuiltIn limit typed.line.node
      (allOpened typed.line.node) console.table = some saved) :
    consoleStep limit buffering console typed =
      some ⟨afterBuiltIn typed.line.node saved, typed.printed buffering console,
        console.accepted ++ [typed.line.line]⟩ := by
  have opened : console.table.lookup 1 ≠ none := by
    rw [ready.output]
    exact Option.some_ne_none _
  have there : saved.table.lookup 1 = some typed.place := by
    rw [beforeBuiltIn_output rfl rfl ready.input opened before, Typed.place, ready.output]
    cases file : typed.line.node.outFile with
    | none => rfl
    | some path => simp [allOpened, file]
  rcases fits.runs typed.cwd
    (listing (Ring.last maxRecordNum (console.accepted ++ [typed.line.line]))) with
    ⟨found, printed⟩
  simp only [consoleStep, ready.output, found, before, there, printed, Option.bind_eq_bind,
    Option.bind_some]
  rfl

theorem consoleStep_cases (ready : Ready limit console.table)
    (done : consoleStep limit buffering console typed = some next) :
    typed.line.Fits ∧ Ready limit next.table ∧
      next.stdout = typed.printed buffering console ∧
      next.accepted = console.accepted ++ [typed.line.line] := by
  have opened : console.table.lookup 1 ≠ none := by
    rw [ready.output]
    exact Option.some_ne_none _
  have fits : typed.line.Fits := by
    simp only [consoleStep, Option.bind_eq_bind, Option.bind_eq_some_iff, Prod.exists] at done
    rcases done with ⟨_, _, temp, status, found, _, _, _, _, text, printed, _⟩
    exact BuiltInLine.fits_of_runs found printed
  rcases (beforeBuiltIn_defined_iff typed.line.node rfl rfl _ ready.input opened).mpr
    (ready.opens _) with ⟨saved, before⟩
  rw [consoleStep_eq ready fits before] at done
  cases done
  exact ⟨fits, ready.congr (afterBuiltIn_same rfl rfl ready.input opened before), rfl, rfl⟩

/-- A line that fits goes through. -/
theorem consoleStep_defined (ready : Ready limit console.table) (fits : typed.line.Fits) :
    ∃ next, consoleStep limit buffering console typed = some next := by
  have opened : console.table.lookup 1 ≠ none := by
    rw [ready.output]
    exact Option.some_ne_none _
  rcases (beforeBuiltIn_defined_iff typed.line.node rfl rfl _ ready.input opened).mpr
    (ready.opens _) with ⟨saved, before⟩
  exact ⟨_, consoleStep_eq ready fits before⟩

/-! ## Text that goes astray -/

/-- `record` prints something, for the line itself is in the history. -/
theorem listing_last_ne_nil (earlier : List Str) (line : Str) :
    listing (Ring.last maxRecordNum (earlier ++ [line])) ≠ [] := by
  have size := Ring.length_last maxRecordNum (earlier ++ [line])
  rw [List.length_append, List.length_singleton] at size
  cases recorded : Ring.last maxRecordNum (earlier ++ [line]) with
  | nil =>
      rw [recorded, List.length_nil, maxRecordNum] at size
      omega
  | cons first rest => simp [listing, entry]

theorem Typed.text_eq_nil_iff (typed : Typed) (earlier : List Str) :
    typed.text earlier = [] ↔ typed.line.Silent typed.cwd :=
  typed.line.text_eq_nil_iff typed.cwd (listing_last_ne_nil earlier typed.line.line)

theorem Typed.doomed_printed (doomed : console.stdout.Doomed) :
    (typed.printed buffering console).Doomed := by
  apply Output.Doomed.print
  unfold truncated
  split
  · exact doomed.print prompt
  · exact (doomed.print prompt).truncate _

/-- The prompt waits in the buffer when the command begins to print. -/
theorem Typed.doomed_of_text (redirected : typed.line.node.outFile.isSome)
    (loud : typed.text console.accepted ≠ []) : (typed.printed buffering console).Doomed := by
  have stays : buffering.ends space = false := by
    rw [Buffering.ends]
    cases buffering.byLine <;> rfl
  have waits : (Place.terminal, space) ∈ (console.stdout.print buffering.capacity buffering.ends
      .terminal prompt).pending :=
    Output.last_mem_print stays [62, 62, 62, space, 36]
  rcases Option.isSome_iff_exists.mp redirected with ⟨path, file⟩
  have elsewhere : Place.terminal ≠ typed.place := by
    rw [Typed.place, file]
    rintro ⟨⟩
  have still : (Place.terminal, space) ∈ (truncated typed.line.node.outFile (console.stdout.print
      buffering.capacity buffering.ends .terminal prompt)).pending := by
    rw [file]
    exact waits
  exact Output.doomed_print still elsewhere loud

theorem consoleExit_doomed (ready : Ready limit console.table) (doomed : console.stdout.Doomed)
    {final : Output Place UInt8} (done : consoleExit buffering console = some final) :
    final.Astray := by
  rw [consoleExit, ready.output] at done
  cases done
  exact (doomed.print prompt).flush

/-- Once some text is bound to go astray, it does. -/
theorem shellOutput_doomed {lines : List Typed} (ready : Ready limit console.table)
    (doomed : console.stdout.Doomed) {final : Output Place UInt8}
    (done : shellOutput limit buffering console lines = some final) : final.Astray := by
  induction lines generalizing console with
  | nil => exact consoleExit_doomed ready doomed done
  | cons typed lines ih =>
      simp only [shellOutput, List.foldlM_cons, Option.bind_eq_bind, Option.bind_assoc] at done ih
      rcases Option.bind_eq_some_iff.mp done with ⟨next, stepped, rest⟩
      rcases consoleStep_cases ready stepped with ⟨_, ready', stdout, _⟩
      apply ih ready' _ rest
      rw [stdout]
      exact Typed.doomed_printed doomed

/-- When nothing goes astray every line fits, and those with an output file are silent. -/
theorem harmless_of_not_astray {lines : List Typed} (ready : Ready limit console.table)
    {final : Output Place UInt8} (done : shellOutput limit buffering console lines = some final)
    (arrives : ¬final.Astray) : ∀ typed ∈ lines, typed.line.Fits ∧ typed.Harmless := by
  induction lines generalizing console with
  | nil => exact List.forall_mem_nil _
  | cons typed lines ih =>
      rcases Option.bind_eq_some_iff.mp done with ⟨last, ran, exits⟩
      rw [List.foldlM_cons] at ran
      rcases Option.bind_eq_some_iff.mp ran with ⟨next, stepped, rest⟩
      have others : shellOutput limit buffering next lines = some final :=
        Option.bind_eq_some_iff.mpr ⟨last, rest, exits⟩
      rcases consoleStep_cases ready stepped with ⟨fits, ready', stdout, _⟩
      rw [List.forall_mem_cons]
      refine ⟨⟨fits, fun redirected => ?_⟩, ih ready' others⟩
      rw [← typed.text_eq_nil_iff console.accepted]
      by_contra loud
      apply arrives
      apply shellOutput_doomed ready' _ others
      rw [stdout]
      exact Typed.doomed_of_text redirected loud

/-! ## Text that arrives -/

/-- What holds behind lines of which those with an output file are silent. -/
structure Delivered (front : List Typed) (limit : Nat) (console : Console) : Prop where
  ready : Ready limit console.table
  only : console.stdout.Only .terminal
  accepted : console.accepted = front.map fun typed => typed.line.line
  empty : ∀ one ∈ front, ∀ path, one.line.node.outFile = some path →
    console.stdout.holds (.named path) = []

/-- What a harmless line makes of standard output. -/
theorem Typed.printed_cases (buffering : Buffering) (console : Console)
    (harmless : typed.Harmless) :
    (typed.line.node.outFile = none ∧ typed.printed buffering console =
      (console.stdout.print buffering.capacity buffering.ends .terminal prompt).print
        buffering.capacity buffering.ends .terminal (typed.text console.accepted)) ∨
      ∃ path, typed.line.node.outFile = some path ∧ typed.printed buffering console =
        (console.stdout.print buffering.capacity buffering.ends .terminal prompt).truncate
          (.named path) := by
  unfold printed place
  cases file : typed.line.node.outFile with
  | none => exact .inl ⟨rfl, rfl⟩
  | some path =>
      have silent := harmless (by rw [file]; rfl)
      rw [(typed.text_eq_nil_iff console.accepted).mpr silent]
      exact .inr ⟨path, rfl, rfl⟩

theorem Delivered.step {front : List Typed} (delivered : Delivered front limit console)
    (harmless : typed.Harmless) (done : consoleStep limit buffering console typed = some next) :
    Delivered (front ++ [typed]) limit next := by
  rcases consoleStep_cases delivered.ready done with ⟨_, ready, stdout, accepted⟩
  have history : next.accepted = (front ++ [typed]).map fun typed => typed.line.line := by
    rw [accepted, delivered.accepted, List.map_append, List.map_singleton]
  have prompted : (console.stdout.print buffering.capacity buffering.ends .terminal
      prompt).Only .terminal :=
    delivered.only.print prompt
  have kept (path : Str) (text : Str) (stdout : Output Place UInt8) :
      (stdout.print buffering.capacity buffering.ends .terminal text).holds (.named path) =
        stdout.holds (.named path) :=
    Output.holds_print_of_ne (by rintro ⟨⟩) text
  rcases Typed.printed_cases buffering console harmless with
    ⟨noFile, isPrinted⟩ | ⟨path, file, isPrinted⟩
  · rw [isPrinted] at stdout
    refine ⟨ready, ?_, history, ?_⟩
    · rw [stdout]
      exact prompted.print _
    · intro one isMem path file
      rw [stdout, kept, kept]
      rcases List.mem_append.mp isMem with earlier | now
      · exact delivered.empty one earlier path file
      · rw [List.mem_singleton.mp now, noFile] at file
        cases file
  · rw [isPrinted] at stdout
    refine ⟨ready, ?_, history, ?_⟩
    · rw [stdout]
      exact prompted.truncate _
    · intro one isMem path' file'
      rw [stdout]
      rcases List.mem_append.mp isMem with earlier | now
      · apply Output.holds_truncate_of_empty
        rw [kept]
        exact delivered.empty one earlier path' file'
      · rw [List.mem_singleton.mp now, file, Option.some.injEq] at file'
        rw [file']
        exact Output.holds_truncate_self _ _

theorem Delivered.run (buffering : Buffering) {front rest : List Typed}
    (delivered : Delivered front limit console)
    (goes : ∀ typed ∈ rest, typed.line.Fits ∧ typed.Harmless) :
    ∃ last, rest.foldlM (consoleStep limit buffering) console = some last ∧
      Delivered (front ++ rest) limit last := by
  induction rest generalizing front console with
  | nil =>
      rw [List.append_nil]
      exact ⟨console, rfl, delivered⟩
  | cons typed rest ih =>
      rw [List.forall_mem_cons] at goes
      rcases consoleStep_defined delivered.ready goes.1.1 with ⟨next, stepped⟩
      rcases ih (delivered.step goes.1.2 stepped) goes.2 with ⟨last, ran, behind⟩
      refine ⟨last, ?_, ?_⟩
      · rw [List.foldlM_cons, stepped]
        exact ran
      · rw [List.append_assoc] at behind
        exact behind

/-- The shell at its start. -/
def Console.start (table : Table Place) (holds : Place → List UInt8) : Console where
  table := table
  stdout := .start holds
  accepted := []

/-- The output of every line goes to its own destination exactly when every line fits, and
those with an output file print nothing. -/
theorem output_redirected_iff (limit : Nat) (buffering : Buffering) (table : Table Place)
    (ready : Ready limit table) (holds : Place → List UInt8) (lines : List Typed) :
    (∃ final, shellOutput limit buffering (.start table holds) lines = some final ∧
      Redirected lines final) ↔ ∀ typed ∈ lines, typed.line.Fits ∧ typed.Harmless := by
  constructor
  · rintro ⟨final, done, redirected⟩
    have atStart : Ready limit (Console.start table holds).table := ready
    exact harmless_of_not_astray atStart done redirected.arrives
  · intro goes
    have delivered : Delivered [] limit (.start table holds) :=
      ⟨ready, Output.only_start _ _, rfl, List.forall_mem_nil _⟩
    rcases delivered.run buffering goes with ⟨last, ran, behind⟩
    rw [List.nil_append] at behind
    have exits : consoleExit buffering last = some ((last.stdout.print buffering.capacity
        buffering.ends .terminal prompt).flush .terminal) := by
      rw [consoleExit, behind.ready.output]
      rfl
    refine ⟨_, Option.bind_eq_some_iff.mpr ⟨last, ran, exits⟩, ?_, ?_⟩
    · rintro ⟨one, isMem, differs⟩
      have both := (behind.only.print prompt).flush.written one isMem
      exact differs (both.1.trans both.2.symm)
    · intro front one rest path isSplit file _
      have isMem : one ∈ lines := by
        rw [isSplit]
        exact List.mem_append_right _ List.mem_cons_self
      have silent := (goes one isMem).2 (by rw [file]; rfl)
      rw [(one.text_eq_nil_iff _).mpr silent, Output.holds_flush_of_ne (by rintro ⟨⟩),
        Output.holds_print_of_ne (by rintro ⟨⟩)]
      exact behind.empty one isMem path file

/-- The line `echo hi > f`. -/
def echoToFile : BuiltInLine where
  line := [101, 99, 104, 111, space, 104, 105, space, greater, space, 102]
  command := ⟨[], [.arg [101, 99, 104, 111], .arg [104, 105], .output [] (some [102])]⟩
  name := [101, 99, 104, 111]
  single := by decide +kernel
  named := rfl
  builtIn := by decide
  notExit := by decide

theorem standard_ready : Ready 16 [some (.named []), some .terminal] where
  input := by decide
  output := rfl
  room := by decide

theorem output_redirected_iff_echo :
    (∃ final, shellOutput 16 ⟨4096, true⟩
        (.start [some (.named []), some .terminal] fun _ => []) [⟨echoToFile, none⟩] =
          some final ∧ Redirected [⟨echoToFile, none⟩] final) ↔
      ∀ typed ∈ [(⟨echoToFile, none⟩ : Typed)], typed.line.Fits ∧ typed.Harmless :=
  output_redirected_iff 16 ⟨4096, true⟩ _ standard_ready _ _

/-- At the newline of `hi` the prompt is written to `f` with it. -/
theorem not_redirected_echo : ¬∃ final, shellOutput 16 ⟨4096, true⟩
    (.start [some (.named []), some .terminal] fun _ => []) [⟨echoToFile, none⟩] =
      some final ∧ Redirected [⟨echoToFile, none⟩] final := by
  rintro ⟨final, done, redirected⟩
  have atStart : Ready 16 (Console.start [some (.named []), some .terminal] fun _ => []).table :=
    standard_ready
  have harmless := (harmless_of_not_astray atStart done redirected.arrives _
    List.mem_cons_self).2 rfl
  rcases harmless with isCd | ⟨isPwd, _⟩ | ⟨_, nothing⟩
  · exact absurd isCd (by decide)
  · exact absurd isPwd (by decide)
  · exact absurd nothing (by decide)

end NckuOs.Shell
