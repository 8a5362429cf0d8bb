import NckuOs.Shell.Builtin

/-!
# What built-in commands leave behind

The descriptors that the shell saves are put back and closed, so that a built-in command
changes no descriptor.  When a file cannot be opened the shell itself exits.
-/

namespace NckuOs.Shell

open NckuOs.Descriptors
open NckuOs.Descriptors.Table (Same)

variable {δ : Type}

/-! ## Saving -/

variable {limit fd std : Nat} {table next : Table δ} {saved : Option Nat}

/-- A copy of an open descriptor is free before, and takes a place below the limit. -/
theorem dup_cases {entry : δ} (opened : table.lookup fd = some entry)
    (done : dup limit table fd = (saved, next)) :
    (saved = none ∧ next = table ∧ table.free limit = 0) ∨
      ∃ copy, saved = some copy ∧ table.lookup copy = none ∧
        next = table.put copy (some entry) ∧ next.free limit + 1 = table.free limit := by
  rw [dup, opened, Option.bind_some] at done
  cases allocated : table.allocBelow limit entry with
  | none =>
      rw [allocated] at done
      cases done
      exact .inl ⟨rfl, rfl, (table.allocBelow_eq_none_iff limit entry).mp allocated⟩
  | some pair =>
      rw [allocated] at done
      cases done
      rcases Table.allocBelow_cases allocated with ⟨unused, isNext, count⟩
      exact .inr ⟨_, rfl, unused, isNext, count⟩

theorem dup_free (opened : table.lookup fd ≠ none) (done : dup limit table fd = (saved, next)) :
    next.free limit = table.free limit - 1 := by
  rcases Option.ne_none_iff_exists'.mp opened with ⟨entry, opened⟩
  rcases dup_cases opened done with ⟨_, rfl, full⟩ | ⟨_, _, _, _, count⟩
  · rw [full]
  · exact Nat.eq_sub_of_add_eq count

theorem dup_lookup_of_open (done : dup limit table fd = (saved, next)) {other : Nat}
    (opened : table.lookup other ≠ none) : next.lookup other = table.lookup other := by
  by_cases closed : table.lookup fd = none
  · rw [dup, closed] at done
    cases done
    rfl
  rcases Option.ne_none_iff_exists'.mp closed with ⟨entry, isOpen⟩
  rcases dup_cases isOpen done with ⟨_, rfl, _⟩ | ⟨copy, _, unused, rfl, _⟩
  · rfl
  · apply Table.lookup_put_of_ne
    rintro rfl
    exact opened unused

/-- With a descriptor left there is a copy, and it is none of the open descriptors. -/
theorem dup_copy (opened : table.lookup fd ≠ none) (done : dup limit table fd = (saved, next))
    (room : 1 ≤ table.free limit) : ∃ copy, saved = some copy ∧
      next.lookup copy = table.lookup fd ∧ ∀ x, table.lookup x ≠ none → copy ≠ x := by
  rcases Option.ne_none_iff_exists'.mp opened with ⟨entry, opened⟩
  rcases dup_cases opened done with ⟨_, _, full⟩ | ⟨copy, isCopy, unused, rfl, _⟩
  · rw [full] at room
    cases room
  · refine ⟨copy, isCopy, ?_, ?_⟩
    · rw [Table.lookup_put_self, opened]
    · rintro x isOpen rfl
      exact isOpen unused

/-- Closing a copy undoes `dup`. -/
theorem closeSaved_dup {last : Table δ} (opened : table.lookup fd ≠ none)
    (done : dup limit table fd = (saved, next)) (same : Same next last) :
    Same table (closeSaved saved last) := by
  rcases Option.ne_none_iff_exists'.mp opened with ⟨entry, opened⟩
  rcases dup_cases opened done with ⟨rfl, rfl, _⟩ | ⟨copy, rfl, unused, rfl, _⟩
  · exact same
  · intro x
    rw [closeSaved, Table.close, Table.lookup_put]
    split
    next isCopy => rw [isCopy, unused]
    next other => rw [same x, Table.lookup_put_of_ne table other]

theorem closeSaved_comm (first second : Option Nat) (table : Table δ) :
    Same (closeSaved first (closeSaved second table))
      (closeSaved second (closeSaved first table)) := by
  intro x
  cases first with
  | none => rfl
  | some first =>
      cases second with
      | none => rfl
      | some second =>
          simp only [closeSaved, Table.close, Table.lookup_put]
          split
          next => split <;> rfl
          next => rfl

/-! ## Redirecting -/

/-- A file that can be opened takes the place of a standard descriptor, and nothing else
changes. -/
theorem openOnto_cases {file : Option δ} (opened : table.lookup std ≠ none)
    (done : openOnto limit file std table = some next) :
    file.isSome ∧ 1 ≤ table.free limit ∧ next.lookup std = file ∧
      ∀ x, x ≠ std → next.lookup x = table.lookup x := by
  simp only [openOnto, Option.bind_eq_bind, Option.bind_eq_some_iff, Prod.exists] at done
  rcases done with ⟨description, rfl, fd, middle, allocated, done⟩
  cases done
  rcases Table.allocBelow_cases allocated with ⟨unused, rfl, count⟩
  have apart : std ≠ fd := by
    rintro rfl
    exact opened unused
  rw [Table.dup2_of_open (Table.lookup_put_self table fd _)]
  refine ⟨rfl, count ▸ Nat.le_add_left 1 _, ?_, ?_⟩
  · rw [Table.lookup_close_of_ne _ apart, Table.lookup_put_self]
  · intro x other
    by_cases isFd : x = fd
    · rw [isFd, Table.close, Table.lookup_put_self, unused]
    · rw [Table.lookup_close_of_ne _ isFd, Table.lookup_put_of_ne _ other,
        Table.lookup_put_of_ne _ isFd]

theorem openOnto_defined {file : Option δ} (gives : file.isSome) (room : 1 ≤ table.free limit) :
    ∃ next, openOnto limit file std table = some next := by
  rcases Option.isSome_iff_exists.mp gives with ⟨description, rfl⟩
  cases allocated : table.allocBelow limit description with
  | none =>
      rw [(table.allocBelow_eq_none_iff limit description).mp allocated] at room
      cases room
  | some pair =>
      simp only [openOnto, Option.bind_eq_bind, Option.bind_some, allocated]
      exact ⟨_, rfl⟩

/-- A half of `redirection` in a node without a pipe. -/
theorem redirectHalf_cases {name : Option Str} {file : Option δ}
    (opened : table.lookup std ≠ none)
    (done : redirectHalf limit name file std std table = some next) :
    (name.isSome → file.isSome ∧ 1 ≤ table.free limit ∧ next.lookup std = file) ∧
      next.free limit = table.free limit ∧ (name = none → next = table) ∧
        ∀ x, x ≠ std → next.lookup x = table.lookup x := by
  cases name with
  | none =>
      rw [redirectHalf, if_pos rfl] at done
      cases done
      refine ⟨?_, rfl, fun _ => rfl, fun _ _ => rfl⟩
      intro isName
      cases isName
  | some path =>
      rw [redirectHalf] at done
      rcases openOnto_cases opened done with ⟨gives, room, there, others⟩
      refine ⟨fun _ => ⟨gives, room, there⟩, ?_, ?_, others⟩
      · apply Table.free_congr
        intro x
        by_cases isStd : x = std
        · rw [isStd, there]
          exact iff_of_false (Option.isSome_iff_ne_none.mp gives) opened
        · rw [others x isStd]
      · intro isNone
        cases isNone

theorem redirectHalf_defined {name : Option Str} {file : Option δ}
    (opens : name.isSome → file.isSome ∧ 1 ≤ table.free limit) (fd std : Nat) :
    ∃ next, redirectHalf limit name file fd std table = some next := by
  cases name with
  | none => exact ⟨_, rfl⟩
  | some path => exact openOnto_defined (opens rfl).1 (opens rfl).2

/-! ## One line -/

/-- The two copies leave both descriptors as they are, and take two others while there are
some. -/
theorem dups_keep {table₁ table₂ : Table δ} {savedIn savedOut : Option Nat}
    (input : table.lookup 0 ≠ none) (output : table.lookup 1 ≠ none)
    (first : dup limit table 0 = (savedIn, table₁))
    (second : dup limit table₁ 1 = (savedOut, table₂)) :
    table₁.lookup 1 = table.lookup 1 ∧ table₂.lookup 0 = table.lookup 0 ∧
      table₂.lookup 1 = table.lookup 1 ∧ table₂.free limit = table.free limit - 2 := by
  have input₁ := dup_lookup_of_open first input
  have output₁ := dup_lookup_of_open first output
  refine ⟨output₁, ?_, ?_, ?_⟩
  · exact (dup_lookup_of_open second (input₁ ▸ input)).trans input₁
  · exact (dup_lookup_of_open second (output₁ ▸ output)).trans output₁
  · rw [dup_free (output₁ ▸ output) second, dup_free input first, Nat.sub_sub]

/-- The tables on the way to a built-in command in a node without a pipe. -/
structure Passage (limit : Nat) (node : CmdNode) (opened : Opened δ) (table : Table δ)
    (saved : Saved δ) (table₁ table₂ table₃ : Table δ) : Prop where
  first : dup limit table 0 = (saved.inFd, table₁)
  second : dup limit table₁ 1 = (saved.outFd, table₂)
  one : redirectHalf limit node.inFile opened.input 0 0 table₂ = some table₃
  two : redirectHalf limit node.outFile opened.output 1 1 table₃ = some saved.table
  output₁ : table₁.lookup 1 = table.lookup 1
  input₂ : table₂.lookup 0 = table.lookup 0
  output₂ : table₂.lookup 1 = table.lookup 1
  output₃ : table₃.lookup 1 = table.lookup 1
  left : table₂.free limit = table.free limit - 2

theorem beforeBuiltIn_passage {node : CmdNode} (inFd : node.inFd = 0) (outFd : node.outFd = 1)
    {opened : Opened δ} (input : table.lookup 0 ≠ none) (output : table.lookup 1 ≠ none)
    {saved : Saved δ} (before : beforeBuiltIn limit node opened table = some saved) :
    ∃ table₁ table₂ table₃, Passage limit node opened table saved table₁ table₂ table₃ := by
  rcases first : dup limit table 0 with ⟨savedIn, table₁⟩
  rcases second : dup limit table₁ 1 with ⟨savedOut, table₂⟩
  simp only [beforeBuiltIn, first, second, redirection, inFd, outFd, Option.map_eq_some_iff,
    Option.bind_eq_bind, Option.bind_eq_some_iff] at before
  rcases before with ⟨table₄, ⟨table₃, one, two⟩, rfl⟩
  rcases dups_keep input output first second with ⟨output₁, input₂, output₂, left⟩
  rcases redirectHalf_cases (input₂ ▸ input) one with ⟨_, _, _, others⟩
  have output₃ := (others 1 Nat.one_ne_zero).trans output₂
  exact ⟨table₁, table₂, table₃, first, second, one, two, output₁, input₂, output₂, output₃, left⟩

/-- The files of a node without a pipe can be opened exactly when the shell comes to
`execBuiltInCommand`. -/
theorem beforeBuiltIn_defined_iff (node : CmdNode) (inFd : node.inFd = 0)
    (outFd : node.outFd = 1) (opened : Opened δ) (input : table.lookup 0 ≠ none)
    (output : table.lookup 1 ≠ none) :
    (∃ saved, beforeBuiltIn limit node opened table = some saved) ↔
      Opens limit table node opened := by
  constructor
  · rintro ⟨saved, before⟩
    rcases beforeBuiltIn_passage inFd outFd input output before with ⟨_, _, _, passage⟩
    have left := passage.left
    rcases redirectHalf_cases (passage.input₂ ▸ input) passage.one with ⟨gives, count, _⟩
    rcases redirectHalf_cases (passage.output₃ ▸ output) passage.two with ⟨gives', _⟩
    refine ⟨fun isName => (gives isName).1, fun isName => (gives' isName).1, ?_⟩
    rintro (isName | isName)
    · have room := (gives isName).2.1
      omega
    · have room := (gives' isName).2.1
      omega
  · intro opens
    rcases first : dup limit table 0 with ⟨savedIn, table₁⟩
    rcases second : dup limit table₁ 1 with ⟨savedOut, table₂⟩
    rcases dups_keep input output first second with ⟨_, input₂, _, left⟩
    have roomIn (isName : node.inFile.isSome) : 1 ≤ table₂.free limit := by
      have room := opens.room (.inl isName)
      omega
    have roomOut (isName : node.outFile.isSome) : 1 ≤ table₂.free limit := by
      have room := opens.room (.inr isName)
      omega
    rcases redirectHalf_defined (fun isName => ⟨opens.input isName, roomIn isName⟩) 0 0
      with ⟨table₃, one⟩
    rcases redirectHalf_cases (input₂ ▸ input) one with ⟨_, count, _⟩
    rcases redirectHalf_defined
      (fun isName => ⟨opens.output isName, count.symm ▸ roomOut isName⟩) 1 1 with ⟨table₄, two⟩
    simp only [beforeBuiltIn, first, second, redirection, inFd, outFd, Option.map_eq_some_iff,
      Option.bind_eq_bind, Option.bind_eq_some_iff]
    exact ⟨_, table₄, ⟨table₃, one, two⟩, rfl⟩

/-- `dup2` of a copy puts back what `redirection` has changed. -/
theorem recover_lookup {name : Option Str} {entry : Option δ} (opened : entry ≠ none)
    (saves : name.isSome → ∃ copy, saved = some copy ∧ table.lookup copy = entry)
    (kept : name = none → table.lookup std = entry) :
    (recover name saved std table).lookup std = entry ∧
      ∀ x, x ≠ std → (recover name saved std table).lookup x = table.lookup x := by
  cases name with
  | none => exact ⟨kept rfl, fun _ _ => rfl⟩
  | some path =>
      rcases saves rfl with ⟨copy, rfl, holds⟩
      rcases Option.ne_none_iff_exists'.mp opened with ⟨description, rfl⟩
      rw [recover, Table.dup2_of_open holds]
      exact ⟨Table.lookup_put_self _ _ _, fun x other => Table.lookup_put_of_ne _ other _⟩

/-- Where the shell comes to a built-in command, it comes out of it with the descriptors that
it had. -/
theorem afterBuiltIn_same {node : CmdNode} (inFd : node.inFd = 0) (outFd : node.outFd = 1)
    {opened : Opened δ} (input : table.lookup 0 ≠ none) (output : table.lookup 1 ≠ none)
    {saved : Saved δ} (before : beforeBuiltIn limit node opened table = some saved) :
    Same table (afterBuiltIn node saved) := by
  have opens := (beforeBuiltIn_defined_iff node inFd outFd opened input output).mp ⟨saved, before⟩
  rcases beforeBuiltIn_passage inFd outFd input output before with ⟨table₁, table₂, table₃, passage⟩
  rcases passage with ⟨first, second, one, two, output₁, input₂, output₂, output₃, _⟩
  rcases redirectHalf_cases (input₂ ▸ input) one with ⟨_, _, keepsIn, others₃⟩
  rcases redirectHalf_cases (output₃ ▸ output) two with ⟨_, _, keepsOut, others₄⟩
  -- the copies are neither of the two descriptors that `redirection` changes
  have unchanged (copy : Nat) (not0 : copy ≠ 0) (not1 : copy ≠ 1) :
      saved.table.lookup copy = table₂.lookup copy :=
    (others₄ copy not1).trans (others₃ copy not0)
  have savesIn (isName : node.inFile.isSome) :
      ∃ copy, saved.inFd = some copy ∧ saved.table.lookup copy = table.lookup 0 := by
    have room := opens.room (.inl isName)
    rcases dup_copy input first (by omega) with ⟨copy, isCopy, holds, apart⟩
    have stays := dup_lookup_of_open second (holds ▸ input)
    exact ⟨copy, isCopy, by rw [unchanged copy (apart 0 input) (apart 1 output), stays, holds]⟩
  have savesOut (isName : node.outFile.isSome) :
      ∃ copy, saved.outFd = some copy ∧ copy ≠ 0 ∧ saved.table.lookup copy = table.lookup 1 := by
    have room := opens.room (.inr isName)
    have left := dup_free input first
    rcases dup_copy (output₁ ▸ output) second (by omega) with ⟨copy, isCopy, holds, apart⟩
    have not0 := apart 0 ((dup_lookup_of_open first input).symm ▸ input)
    exact ⟨copy, isCopy, not0,
      by rw [unchanged copy not0 (apart 1 (output₁ ▸ output)), holds, output₁]⟩
  have keptIn (noName : node.inFile = none) : saved.table.lookup 0 = table.lookup 0 := by
    rw [others₄ 0 Nat.zero_ne_one, keepsIn noName, input₂]
  rcases recover_lookup input savesIn keptIn with ⟨input₅, others₅⟩
  have keptOut (noName : node.outFile = none) :
      (recover node.inFile saved.inFd 0 saved.table).lookup 1 = table.lookup 1 := by
    rw [others₅ 1 Nat.one_ne_zero, keepsOut noName, output₃]
  have savesOut₅ (isName : node.outFile.isSome) : ∃ copy, saved.outFd = some copy ∧
      (recover node.inFile saved.inFd 0 saved.table).lookup copy = table.lookup 1 := by
    rcases savesOut isName with ⟨copy, isCopy, not0, holds⟩
    exact ⟨copy, isCopy, by rw [others₅ copy not0, holds]⟩
  rcases recover_lookup output savesOut₅ keptOut with ⟨output₆, others₆⟩
  have recovered : Same table₂ (recover node.outFile saved.outFd 1
      (recover node.inFile saved.inFd 0 saved.table)) := by
    intro x
    by_cases is1 : x = 1
    · rw [is1, output₆, output₂]
    by_cases is0 : x = 0
    · rw [is0, others₆ 0 Nat.zero_ne_one, input₅, input₂]
    · rw [others₆ x is1, others₅ x is0, unchanged x is0 is1]
  have closed := closeSaved_dup input first
    (closeSaved_dup (output₁ ▸ output) second recovered)
  exact closed.trans (closeSaved_comm _ _ _)

/-- Standard output while a built-in command runs. -/
theorem beforeBuiltIn_output {node : CmdNode} (inFd : node.inFd = 0) (outFd : node.outFd = 1)
    {opened : Opened δ} (input : table.lookup 0 ≠ none) (output : table.lookup 1 ≠ none)
    {saved : Saved δ} (before : beforeBuiltIn limit node opened table = some saved) :
    saved.table.lookup 1 = if node.outFile.isSome then opened.output else table.lookup 1 := by
  rcases beforeBuiltIn_passage inFd outFd input output before with ⟨_, _, _, passage⟩
  rcases redirectHalf_cases (passage.output₃ ▸ output) passage.two with ⟨gives, _, keeps, _⟩
  split
  next isName => exact (gives isName).2.2
  next noName =>
    rw [keeps (Option.not_isSome_iff_eq_none.mp noName)]
    exact passage.output₃

/-! ## Any number of lines -/

/-- The lines of a shell, one after the other. -/
def runLines (limit : Nat) (table : Table δ) (turns : List (Turn δ)) : Option (Table δ) :=
  turns.foldlM (lineStep limit) table

/-- Behind each of these lines the shell is in its loop, with the descriptors that it had
in front of the line. -/
def Intact (limit : Nat) (start : Table δ) (turns : List (Turn δ)) : Prop :=
  ∀ front turn rest, turns = front ++ turn :: rest → ∃ before after,
    runLines limit start front = some before ∧ lineStep limit before turn = some after ∧
      Same before after

variable {turn : Turn δ}

theorem BuiltInLine.name_ne_exit (line : BuiltInLine) : line.node.name? ≠ some exitName := by
  rw [line.name_node]
  exact fun same => line.notExit (Option.some.inj same)

/-- A line goes through when it fits and its files can be opened. -/
theorem lineStep_eq_some_iff : lineStep limit table turn = some next ↔
    turn.line.Fits ∧ ∃ saved, beforeBuiltIn limit turn.line.node turn.opened table = some saved ∧
      next = afterBuiltIn turn.line.node saved := by
  have others := turn.line.name_ne_exit
  constructor
  · intro done
    simp only [lineStep, Option.bind_eq_bind, Option.bind_eq_some_iff, Prod.exists] at done
    rcases done with ⟨temp, status, found, saved, before, text, printed, done⟩
    have fits := BuiltInLine.fits_of_runs found printed
    rw [(fits.runs turn.cwd turn.recorded).1] at found
    cases found
    rw [if_neg others] at done
    cases done
    exact ⟨fits, saved, before, rfl⟩
  · rintro ⟨fits, saved, before, rfl⟩
    rcases fits.runs turn.cwd turn.recorded with ⟨found, printed⟩
    simp only [lineStep, found, before, printed, if_neg others, Option.bind_eq_bind,
      Option.bind_some]

/-- The line fits, and its files can be opened. -/
def GoesThrough (limit : Nat) (table : Table δ) (turn : Turn δ) : Prop :=
  turn.line.Fits ∧ Opens limit table turn.line.node turn.opened

theorem lineStep_iff (input : table.lookup 0 ≠ none) (output : table.lookup 1 ≠ none)
    (turn : Turn δ) :
    (∃ next, lineStep limit table turn = some next) ↔ GoesThrough limit table turn := by
  rw [GoesThrough, ← beforeBuiltIn_defined_iff _ rfl rfl turn.opened input output]
  simp only [lineStep_eq_some_iff]
  constructor
  · rintro ⟨_, fits, saved, before, _⟩
    exact ⟨fits, saved, before⟩
  · rintro ⟨fits, saved, before⟩
    exact ⟨_, fits, saved, before, rfl⟩

theorem lineStep_same (input : table.lookup 0 ≠ none) (output : table.lookup 1 ≠ none)
    (done : lineStep limit table turn = some next) : Same table next := by
  rcases lineStep_eq_some_iff.mp done with ⟨_, saved, before, rfl⟩
  exact afterBuiltIn_same rfl rfl input output before

theorem GoesThrough.congr (same : Same table next) :
    GoesThrough limit next turn ↔ GoesThrough limit table turn := by
  constructor
  · rintro ⟨fits, input, output, room⟩
    exact ⟨fits, input, output, fun isName => same.free limit ▸ room isName⟩
  · rintro ⟨fits, input, output, room⟩
    exact ⟨fits, input, output, fun isName => (same.free limit).symm ▸ room isName⟩

theorem intact_cons_iff {rest : List (Turn δ)} : Intact limit table (turn :: rest) ↔
    ∃ next, lineStep limit table turn = some next ∧ Same table next ∧
      Intact limit next rest := by
  constructor
  · intro intact
    rcases intact [] turn rest rfl with ⟨_, after, start, done, same⟩
    cases start
    refine ⟨after, done, same, ?_⟩
    intro front turn' rest' split
    rcases intact (turn :: front) turn' rest' (congrArg (turn :: ·) split) with
      ⟨before, after', ran, others⟩
    rw [runLines, List.foldlM_cons, done] at ran
    exact ⟨before, after', ran, others⟩
  · rintro ⟨next, done, same, intact⟩ front turn' rest' split
    cases front with
    | nil =>
        cases split
        exact ⟨table, next, rfl, done, same⟩
    | cons first front =>
        cases split
        rcases intact front turn' rest' rfl with ⟨before, after, ran, others⟩
        refine ⟨before, after, ?_, others⟩
        rw [runLines, List.foldlM_cons, done]
        exact ran

/-- Built-in commands leave the shell as it was, line after line, exactly when every line
fits and its files can be opened. -/
theorem builtIn_intact_iff (limit : Nat) (start : Table δ) (input : start.lookup 0 ≠ none)
    (output : start.lookup 1 ≠ none) (turns : List (Turn δ)) :
    Intact limit start turns ↔ ∀ turn ∈ turns, GoesThrough limit start turn := by
  induction turns generalizing start with
  | nil =>
      constructor
      · exact fun _ => List.forall_mem_nil _
      · intro _ front turn rest split
        cases front <;> cases split
  | cons turn rest ih =>
      rw [intact_cons_iff, List.forall_mem_cons, ← lineStep_iff input output]
      constructor
      · rintro ⟨next, done, same, intact⟩
        refine ⟨⟨next, done⟩, fun turn' isMem => ?_⟩
        have others := (ih next ((same 0).symm ▸ input) ((same 1).symm ▸ output)).mp intact
        exact (GoesThrough.congr same).mp (others turn' isMem)
      · rintro ⟨⟨next, done⟩, others⟩
        have same := lineStep_same input output done
        refine ⟨next, done, same, ?_⟩
        apply (ih next ((same 0).symm ▸ input) ((same 1).symm ▸ output)).mpr
        exact fun turn' isMem => (GoesThrough.congr same).mpr (others turn' isMem)

/-- The line `pwd > f`. -/
def pwdToFile : BuiltInLine where
  line := [112, 119, 100, space, greater, space, 102]
  command := ⟨[], [.arg [112, 119, 100], .output [] (some [102])]⟩
  name := [112, 119, 100]
  single := by decide +kernel
  named := rfl
  builtIn := by decide
  notExit := by decide

/-- Behind `pwd > f` the shell goes on as before when `f` can be opened. -/
theorem builtIn_intact_iff_pwd :
    Intact 1024 [some 0, some 1, some 2] [⟨pwdToFile, ⟨none, some 3⟩, none, []⟩] ↔
      ∀ turn ∈ [(⟨pwdToFile, ⟨none, some 3⟩, none, []⟩ : Turn Nat)],
        GoesThrough 1024 [some 0, some 1, some 2] turn :=
  builtIn_intact_iff 1024 [some 0, some 1, some 2] (by decide) (by decide) _

/-- Otherwise the shell exits. -/
theorem not_intact_pwd :
    ¬Intact 1024 [some 0, some 1, some 2] [(⟨pwdToFile, ⟨none, none⟩, none, []⟩ : Turn Nat)] := by
  intro intact
  rcases intact_cons_iff.mp intact with ⟨next, done, _⟩
  have opens := ((lineStep_iff (by decide) (by decide) _).mp ⟨next, done⟩).2
  exact Bool.false_ne_true (opens.output rfl)

end NckuOs.Shell
