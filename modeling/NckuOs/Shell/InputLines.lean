import Mathlib.Data.List.Forall2
import NckuOs.Shell.LoopSteps

/-!
# Input lines and the lines that are executed

`read_line` reads a line through a buffer and looks at the first character of what is in the
buffer.  What does not fit comes with the next call, which takes it for a line of its own.
-/

namespace NckuOs.Shell

open NckuOs.Blocks NckuOs.Chunks NckuOs.Transition

/-! ## Lines -/

/-- A line of the input, without its newline. -/
structure InputLine where
  chars : Str
  noNewline : newline ∉ chars
  noNul : 0 ∉ chars

/-- The characters of a line. -/
def InputLine.raw (line : InputLine) : List UInt8 :=
  line.chars ++ [newline]

/-- What fits into the buffer. -/
def InputLine.front (line : InputLine) : Str :=
  line.chars.take (bufSize - 1)

/-- An input of these lines. -/
def inputOf (lines : List InputLine) : List UInt8 :=
  lines.flatMap InputLine.raw

/-- The lines that do not start with a newline or a blank. -/
def commandLines (lines : List InputLine) : List InputLine :=
  lines.filter fun line => ¬Blank line.raw

/-- These lines, each with the input that begins with it. -/
def commandStarts : List InputLine → List (List UInt8 × InputLine)
  | [] => []
  | line :: rest =>
      if Blank line.raw then commandStarts rest
      else (inputOf (line :: rest), line) :: commandStarts rest

/-- Wherever the buffer cuts a line, a blank follows. -/
def InputLine.CutAtBlanks (line : InputLine) : Prop :=
  ∀ j c, line.chars[(bufSize - 1) * (j + 1)]? = some c → c = space ∨ c = tab

/-! ## One string for each line -/

/-- The loop up to the end of the input. -/
def reading (quiet : Cmd → Prop) (lines : List InputLine) : System (Session × Phase) Answers :=
  (loop quiet (inputOf lines)).restrict fun state _ => ¬AtEnd state

/-- The string is the front of a line, and has been read from where that line begins. -/
structure Fits (string : Handed) (start : List UInt8 × InputLine) : Prop where
  begins : string.1 = start.1
  nonempty : string.2 ≠ []
  front : string.2 <+: start.2.chars

/-- The loop comes to the end of the input, and hands the front of every such line and nothing
else to `split_line`, in their order. -/
structure OnePerLine (quiet : Cmd → Prop) (lines : List InputLine) : Prop where
  finite : ∃ bound, ∀ events state, Trace (reading quiet lines) events state →
    events.length ≤ bound
  goesOn : ∀ state answers, Reachable (reading quiet lines) state → ¬AtEnd state →
    answers.Possible quiet state → (state.2 = .prompt → state.1.heap answers.block = none) →
      ∃ next, (reading quiet lines).step state answers next
  inOrder : ∀ seen state, Seen (reading quiet lines) handing seen state →
    List.Forall₂ Fits seen ((commandStarts lines).take seen.length)
  whole : ∀ seen state, Seen (reading quiet lines) handing seen state → AtEnd state →
    List.Forall₂ Fits seen (commandStarts lines)

/-- The shell gets through all lines up to the first `exit`, none of them takes or gives back
input, and the buffer cuts them at blanks only.  Nothing is to be handed on behind `exit`, or
behind a built-in command with a file. -/
inductive LineByLine (quiet : Cmd → Prop) : List InputLine → Prop
  | nil : LineByLine quiet []
  | blank {line : InputLine} {rest : List InputLine} (isBlank : Blank line.raw)
      (cut : line.CutAtBlanks) (others : LineByLine quiet rest) : LineByLine quiet (line :: rest)
  | exit {line : InputLine} {rest : List InputLine} (notBlank : ¬Blank line.raw)
      (isExit : IsExit line.front) (last : commandLines rest = []) :
      LineByLine quiet (line :: rest)
  | line {line : InputLine} {rest : List InputLine} (notBlank : ¬Blank line.raw)
      (notExit : ¬IsExit line.front) (through : GetsThrough line.front)
      (spares : Spares quiet line.front) (last : MayEnd line.front → commandLines rest = [])
      (cut : line.CutAtBlanks) (others : LineByLine quiet rest) : LineByLine quiet (line :: rest)

/-! ## What is handed on of an input -/

/-- The strings that are handed on of these chunks. -/
def handedOf : List (List UInt8) → List Handed
  | [] => []
  | read :: rest =>
      if Blank read then handedOf rest
      else ((read :: rest).flatten, lineText read) :: handedOf rest

theorem handedOf_chunks {input : List UInt8} (something : input ≠ []) :
    handedOf (chunks newline (bufSize - 1) input) =
      if Blank (cut newline (bufSize - 1) input).1 then
        handedOf (chunks newline (bufSize - 1) (cut newline (bufSize - 1) input).2)
      else (input, lineText (cut newline (bufSize - 1) input).1) ::
        handedOf (chunks newline (bufSize - 1) (cut newline (bufSize - 1) input).2) := by
  have positive : 0 < bufSize - 1 := by decide
  have whole : (chunks newline (bufSize - 1) input).flatten = input :=
    flatten_chunks positive input
  rw [chunks_eq_cons positive something] at whole ⊢
  rw [handedOf, whole]

/-- The strings of the front of an input are read with the rest behind them. -/
theorem handedOf_append (front rest : List (List UInt8)) :
    handedOf (front ++ rest) =
      (handedOf front).map (fun string => (string.1 ++ rest.flatten, string.2)) ++
        handedOf rest := by
  induction front with
  | nil => rfl
  | cons read front ih =>
      rw [List.cons_append, handedOf, handedOf, ih]
      have whole : (read :: (front ++ rest)).flatten = (read :: front).flatten ++ rest.flatten := by
        rw [← List.cons_append, List.flatten_append]
      rw [whole]
      split <;> rfl

/-- What is handed on of a line and its tails. -/
def handed (chars : Str) : List Handed :=
  handedOf (chunks newline (bufSize - 1) (chars ++ [newline]))

theorem handed_nil : handed [] = [] := by
  decide

theorem blank_raw_iff {chars : Str} (noNewline : newline ∉ chars) :
    Blank (chars ++ [newline]) ↔ ∀ c, chars[0]? = some c → c = space ∨ c = tab := by
  cases chars with
  | nil => simp [Blank]
  | cons c chars =>
      have notNewline : c ≠ newline := fun same => noNewline (same ▸ List.mem_cons_self)
      simp [Blank, notNewline]

theorem lineText_of_text {chars : Str} (noNewline : newline ∉ chars) (noNul : 0 ∉ chars) :
    lineText chars = chars := by
  rw [lineText, List.takeWhile_eq_self_iff]
  intro c isMem
  rw [decide_eq_true_eq]
  constructor
  · rintro rfl
    exact noNewline isMem
  · rintro rfl
    exact noNul isMem

/-- The front of a line, unless it is blank, and then the rest like a line of its own. -/
theorem handed_eq {chars : Str} (noNewline : newline ∉ chars) (noNul : 0 ∉ chars) :
    handed chars =
      (if Blank (chars ++ [newline]) then []
        else [(chars ++ [newline], chars.take (bufSize - 1))]) ++
      handed (chars.drop (bufSize - 1)) := by
  have nonempty : chars ++ [newline] ≠ [] := List.append_ne_nil_of_right_ne_nil _ (by simp)
  by_cases short : chars.length < bufSize - 1
  · have whole : cut newline (bufSize - 1) (chars ++ [newline]) = (chars ++ [newline], []) :=
      @Lines.cut_of_lt _ _ newline _ ⟨chars, true⟩ noNewline short
    have nothing : handedOf (chunks newline (bufSize - 1) []) = [] := rfl
    rw [List.drop_eq_nil_of_le short.le, handed_nil, List.append_nil,
      List.take_of_length_le short.le, handed, handedOf_chunks nonempty, whole,
      lineText_append_newline noNewline noNul, nothing]
  · have long : bufSize - 1 ≤ chars.length := Nat.le_of_not_lt short
    have sameHead : (chars.take (bufSize - 1)).head? = (chars ++ [newline]).head? := by
      cases chars with
      | nil => cases long
      | cons c chars => rfl
    have blank_iff : Blank (chars.take (bufSize - 1)) ↔ Blank (chars ++ [newline]) := by
      rw [Blank, Blank, sameHead]
    have front : lineText (chars.take (bufSize - 1)) = chars.take (bufSize - 1) :=
      lineText_of_text (fun isMem => noNewline (List.mem_of_mem_take isMem))
        fun isMem => noNul (List.mem_of_mem_take isMem)
    rw [handed, handedOf_chunks nonempty, Lines.cut_of_le noNewline _ long, handed, front]
    split
    next blank => rw [if_pos (blank_iff.mp blank), List.nil_append]
    next notBlank => rw [if_neg (mt blank_iff.mpr notBlank), List.singleton_append]

/-- Nothing is handed on of a line when each of its chunks begins with a blank. -/
theorem handed_eq_nil_iff {chars : Str} (noNewline : newline ∉ chars) (noNul : 0 ∉ chars) :
    handed chars = [] ↔ ∀ j c, chars[(bufSize - 1) * j]? = some c → c = space ∨ c = tab := by
  induction size : chars.length using Nat.strong_induction_on generalizing chars with
  | _ size ih =>
      by_cases nothing : chars = []
      · subst nothing
        simp [handed_nil]
      have shorter : (chars.drop (bufSize - 1)).length < chars.length := by
        have positive := List.length_pos_iff.mpr nothing
        rw [List.length_drop, bufSize]
        omega
      have rest := ih _ (size ▸ shorter) (fun isMem => noNewline (List.mem_of_mem_drop isMem))
        (fun isMem => noNul (List.mem_of_mem_drop isMem)) rfl
      have front : (if Blank (chars ++ [newline]) then []
          else [(chars ++ [newline], chars.take (bufSize - 1))]) = [] ↔
            ∀ c, chars[0]? = some c → c = space ∨ c = tab := by
        rw [← blank_raw_iff noNewline]
        split <;> simp_all
      rw [handed_eq noNewline noNul, List.append_eq_nil_iff, front, rest]
      constructor
      · rintro ⟨first, others⟩ j c found
        cases j with
        | zero => exact first c found
        | succ j =>
            apply others j c
            rw [List.getElem?_drop, Nat.add_comm, ← Nat.mul_succ]
            exact found
      · intro all
        refine ⟨fun c found => all 0 c found, fun j c found => ?_⟩
        rw [List.getElem?_drop, Nat.add_comm, ← Nat.mul_succ] at found
        exact all (j + 1) c found

/-- Every string of a line is read from some input. -/
theorem ne_nil_of_mem_handed {chars : Str} (noNewline : newline ∉ chars) (noNul : 0 ∉ chars)
    {string : Handed} (isMem : string ∈ handed chars) : string.1 ≠ [] := by
  induction size : chars.length using Nat.strong_induction_on generalizing chars with
  | _ size ih =>
      by_cases nothing : chars = []
      · rw [nothing, handed_nil] at isMem
        cases isMem
      have shorter : (chars.drop (bufSize - 1)).length < chars.length := by
        have positive := List.length_pos_iff.mpr nothing
        rw [List.length_drop, bufSize]
        omega
      rw [handed_eq noNewline noNul, List.mem_append] at isMem
      rcases isMem with first | later
      · split at first
        next => cases first
        next =>
          rw [List.mem_singleton] at first
          rw [first]
          exact List.append_ne_nil_of_right_ne_nil _ (List.cons_ne_nil _ _)
      · exact ih _ (size ▸ shorter) (fun isMem => noNewline (List.mem_of_mem_drop isMem))
          (fun isMem => noNul (List.mem_of_mem_drop isMem)) later rfl

/-- Nothing of the tails of a line is handed on when it is cut at blanks. -/
theorem InputLine.cutAtBlanks_iff (line : InputLine) :
    line.CutAtBlanks ↔ handed (line.chars.drop (bufSize - 1)) = [] := by
  rw [handed_eq_nil_iff (fun isMem => line.noNewline (List.mem_of_mem_drop isMem))
    fun isMem => line.noNul (List.mem_of_mem_drop isMem), CutAtBlanks]
  simp only [List.getElem?_drop, Nat.mul_succ, Nat.add_comm]

/-- What is handed on of an input, by its first line. -/
theorem handedOf_inputOf (line : InputLine) (rest : List InputLine) :
    handedOf (chunks newline (bufSize - 1) (inputOf (line :: rest))) =
      (if Blank line.raw then [] else [(inputOf (line :: rest), line.front)]) ++
        ((handed (line.chars.drop (bufSize - 1))).map
            (fun string => (string.1 ++ inputOf rest, string.2)) ++
          handedOf (chunks newline (bufSize - 1) (inputOf rest))) := by
  have positive : 0 < bufSize - 1 := by decide
  have ends : line.raw.getLast? = some newline := by simp [InputLine.raw]
  have whole : inputOf (line :: rest) = line.raw ++ inputOf rest := rfl
  have first := handed_eq line.noNewline line.noNul
  rw [whole, Lines.chunks_append positive ends, handedOf_append, flatten_chunks positive,
    InputLine.raw, ← handed, first, List.map_append, List.append_assoc]
  split <;> rfl

/-! ## What has to be handed on -/

/-- What is handed on fits what has to be, the shell gets through it, and nothing is missed
where the shell may end. -/
inductive Hands (quiet : Cmd → Prop) : List Handed → List (List UInt8 × InputLine) → Prop
  | nil : Hands quiet [] []
  | exit {string : Handed} {start : List UInt8 × InputLine} {later : List Handed}
      (fits : Fits string start) (isExit : IsExit string.2) :
      Hands quiet (string :: later) [start]
  | line {string : Handed} {start : List UInt8 × InputLine} {later : List Handed}
      {starts : List (List UInt8 × InputLine)} (fits : Fits string start)
      (notExit : ¬IsExit string.2) (through : GetsThrough string.2)
      (spares : Spares quiet string.2) (last : MayEnd string.2 → starts = [])
      (others : Hands quiet later starts) : Hands quiet (string :: later) (start :: starts)

theorem commandStarts_blank {line : InputLine} (blank : Blank line.raw)
    (rest : List InputLine) : commandStarts (line :: rest) = commandStarts rest :=
  if_pos blank

theorem commandStarts_line {line : InputLine} (notBlank : ¬Blank line.raw)
    (rest : List InputLine) :
    commandStarts (line :: rest) = (inputOf (line :: rest), line) :: commandStarts rest :=
  if_neg notBlank

theorem map_commandStarts (lines : List InputLine) :
    (commandStarts lines).map Prod.snd = commandLines lines := by
  induction lines with
  | nil => rfl
  | cons line rest ih =>
      by_cases blank : Blank line.raw
      · rw [commandStarts_blank blank, ih]
        simp [commandLines, blank]
      · rw [commandStarts_line blank, List.map_cons, ih]
        simp [commandLines, blank]

theorem length_commandStarts (lines : List InputLine) :
    (commandStarts lines).length = (commandLines lines).length := by
  rw [← map_commandStarts, List.length_map]

theorem commandStarts_eq_nil_iff (lines : List InputLine) :
    commandStarts lines = [] ↔ commandLines lines = [] := by
  rw [← map_commandStarts, List.map_eq_nil_iff]

/-- No line behind others begins further in front. -/
theorem length_start_le {lines : List InputLine} {start : List UInt8 × InputLine}
    (isMem : start ∈ commandStarts lines) : start.1.length ≤ (inputOf lines).length := by
  induction lines with
  | nil => cases isMem
  | cons line rest ih =>
      have whole : inputOf (line :: rest) = line.raw ++ inputOf rest := rfl
      by_cases blank : Blank line.raw
      · rw [commandStarts_blank blank] at isMem
        rw [whole, List.length_append]
        exact (ih isMem).trans (Nat.le_add_left _ _)
      · rw [commandStarts_line blank, List.mem_cons] at isMem
        rcases isMem with rfl | later
        · exact Nat.le_refl _
        · rw [whole, List.length_append]
          exact (ih later).trans (Nat.le_add_left _ _)

/-- Where nothing else is to be handed on, the tails of a line are not. -/
theorem Hands.cutAtBlanks {quiet : Cmd → Prop} {line : InputLine} {rest : List InputLine}
    {later : List Handed}
    (hands : Hands quiet ((handed (line.chars.drop (bufSize - 1))).map
      (fun string => (string.1 ++ inputOf rest, string.2)) ++ later) (commandStarts rest)) :
    line.CutAtBlanks ∧ Hands quiet later (commandStarts rest) := by
  rw [line.cutAtBlanks_iff]
  cases tails : handed (line.chars.drop (bufSize - 1)) with
  | nil =>
      rw [tails] at hands
      exact ⟨rfl, hands⟩
  | cons string others =>
      have isMem : string ∈ handed (line.chars.drop (bufSize - 1)) := by
        rw [tails]
        exact List.mem_cons_self
      have something : string.1 ≠ [] :=
        ne_nil_of_mem_handed (fun isMem => line.noNewline (List.mem_of_mem_drop isMem))
          (fun isMem => line.noNul (List.mem_of_mem_drop isMem)) isMem
      have never {start : List UInt8 × InputLine} (isStart : start ∈ commandStarts rest) :
          ¬Fits (string.1 ++ inputOf rest, string.2) start := by
        intro fits
        have size := congrArg List.length fits.begins
        have behind := length_start_le isStart
        have positive := List.length_pos_iff.mpr something
        rw [List.length_append] at size
        omega
      rw [tails, List.map_cons, List.cons_append] at hands
      generalize starts_eq : commandStarts rest = starts at hands never
      cases hands with
      | exit fits => exact absurd fits (never List.mem_cons_self)
      | line fits => exact absurd fits (never List.mem_cons_self)

theorem InputLine.front_fits {line : InputLine} (notBlank : ¬Blank line.raw)
    (rest : List InputLine) :
    Fits (inputOf (line :: rest), line.front) (inputOf (line :: rest), line) := by
  refine ⟨rfl, ?_, List.take_prefix _ _⟩
  intro nothing
  apply notBlank
  have empty : line.chars = [] := by
    rcases List.take_eq_nil_iff.mp nothing with zero | empty
    · exact absurd zero (by decide)
    · exact empty
  rw [InputLine.raw, empty]
  exact ⟨newline, List.mem_cons_self, rfl⟩

/-- In terms of the lines. -/
theorem hands_iff (quiet : Cmd → Prop) (lines : List InputLine) :
    Hands quiet (handedOf (chunks newline (bufSize - 1) (inputOf lines))) (commandStarts lines) ↔
      LineByLine quiet lines := by
  induction lines with
  | nil => exact iff_of_true .nil .nil
  | cons line rest ih =>
      rw [handedOf_inputOf]
      by_cases blank : Blank line.raw
      · rw [if_pos blank, List.nil_append, commandStarts_blank blank]
        constructor
        · intro hands
          rcases hands.cutAtBlanks with ⟨cut, others⟩
          exact .blank blank cut (ih.mp others)
        · intro reads
          cases reads with
          | blank _ cut others =>
              rw [line.cutAtBlanks_iff.mp cut]
              exact ih.mpr others
          | exit notBlank => exact absurd blank notBlank
          | line notBlank => exact absurd blank notBlank
      · rw [if_neg blank, List.singleton_append, commandStarts_line blank]
        have fits := line.front_fits blank rest
        constructor
        · intro hands
          generalize starts_eq : commandStarts rest = starts at hands
          cases hands with
          | exit _ isExit =>
              exact .exit blank isExit ((commandStarts_eq_nil_iff rest).mp starts_eq)
          | line _ notExit through spares last others =>
              subst starts_eq
              rcases others.cutAtBlanks with ⟨cut, others⟩
              exact .line blank notExit through spares
                (fun may => (commandStarts_eq_nil_iff rest).mp (last may)) cut (ih.mp others)
        · intro reads
          cases reads with
          | blank isBlank => exact absurd isBlank blank
          | exit _ isExit last =>
              rw [(commandStarts_eq_nil_iff rest).mpr last]
              exact .exit fits isExit
          | line _ notExit through spares last cut others =>
              rw [line.cutAtBlanks_iff.mp cut]
              exact .line fits notExit through spares
                (fun may => (commandStarts_eq_nil_iff rest).mpr (last may)) (ih.mpr others)

/-! ## The loop hands on what it has to -/

variable {quiet : Cmd → Prop} {lines : List InputLine}

/-- What is left to be handed on when the line is through. -/
def HandsBehind (quiet : Cmd → Prop) (rest : List (List UInt8 × InputLine)) (session : Session)
    (text : Str) : Prop :=
  IsExit text ∧ rest = [] ∨
    ¬IsExit text ∧ GetsThrough text ∧ Spares quiet text ∧ (MayEnd text → rest = []) ∧
      Hands quiet (handedOf (chunks newline (bufSize - 1) session.stdin)) rest

/-- What is left to be handed on, from the place of the loop on. -/
def HandsAhead (quiet : Cmd → Prop) (rest : List (List UInt8 × InputLine)) :
    Session × Phase → Prop
  | (session, .prompt) =>
      Hands quiet (handedOf (chunks newline (bufSize - 1) session.stdin)) rest
  | (session, .parse buffer) => ∃ text, session.heap.string buffer = some text ∧
      HandsBehind quiet rest session text
  | (session, .act _ cmd) => ∃ text, splitLine text = some cmd ∧ HandsBehind quiet rest session text
  | (_, .ended) => rest = []

/-- What has been handed on fits, and so does what is ahead. -/
structure HandsOn (quiet : Cmd → Prop) (lines : List InputLine) (seen : List Handed)
    (state : Session × Phase) : Prop where
  counted : state.1.historyCount = seen.length
  fits : List.Forall₂ Fits seen ((commandStarts lines).take seen.length)
  ahead : HandsAhead quiet ((commandStarts lines).drop seen.length) state

theorem HandsBehind.ends {rest : List (List UInt8 × InputLine)} {session : Session} {text : Str}
    (behind : HandsBehind quiet rest session text) (opens : Bool) :
    ∃ ends, endsWith opens text = some ends ∧ (ends = true → rest = []) := by
  rcases behind with ⟨isExit, nothing⟩ | ⟨notExit, through, _, last, _⟩
  · exact ⟨true, isExit.ends opens, fun _ => nothing⟩
  · rcases through.ends opens with ⟨ends, result, isTrue⟩
    refine ⟨ends, result, fun isLast => ?_⟩
    rcases isTrue.mp isLast with isExit | ⟨_, may⟩
    · exact absurd isExit notExit
    · exact last may

section Way

variable {reads : List (List UInt8)} {seen : List Handed} {state next : Session × Phase}
  {answers : Answers}

/-- The next string fits the next line. -/
theorem forall₂_take_succ {starts : List (List UInt8 × InputLine)}
    (fits : List.Forall₂ Fits seen (starts.take seen.length)) {string : Handed}
    {start : List UInt8 × InputLine} {rest : List (List UInt8 × InputLine)}
    (next : Fits string start) (isSplit : starts.drop seen.length = start :: rest) :
    List.Forall₂ Fits (seen ++ [string]) (starts.take (seen ++ [string]).length) ∧
      starts.drop (seen ++ [string]).length = rest := by
  have at_ : starts[seen.length]? = some start := by
    rw [← List.head?_drop, isSplit, List.head?_cons]
  rw [List.length_append, List.length_singleton, List.take_add_one, at_]
  refine ⟨List.rel_append fits (.cons next .nil), ?_⟩
  rw [← List.drop_drop, isSplit, List.drop_one, List.tail_cons]

theorem HandsOn.step (progress : HandsOn quiet lines seen state) (inv : LoopInv reads state)
    (notAtEnd : ¬AtEnd state) (possible : answers.Possible quiet state)
    (stepped : loopStep answers state = some next) :
    HandsOn quiet lines (seen ++ handing state next) next ∧ stepsLeft next < stepsLeft state := by
  rcases progress with ⟨counted, fits, ahead⟩
  rcases state with ⟨session, _ | buffer | ⟨buffer, cmd⟩ | _⟩
  · have something : session.stdin ≠ [] := fun nothing => notAtEnd (.inr ⟨rfl, nothing⟩)
    have count : session.historyCount = seen.length := counted
    rcases prompt_cases inv something stepped with ⟨read, first, shorter, step⟩
    have whole : (chunks newline (bufSize - 1) session.stdin).flatten = session.stdin :=
      flatten_chunks (by decide) session.stdin
    dsimp only [HandsAhead] at ahead
    rw [first] at ahead whole
    rw [handedOf, whole] at ahead
    cases step with
    | @blank after isBlank unused same =>
        have nothing : handing (session, .prompt) (after, .prompt) = [] := rfl
        rw [if_pos isBlank] at ahead
        rw [nothing, List.append_nil]
        refine ⟨⟨same.trans count, fits, ahead⟩, ?_⟩
        dsimp only [stepsLeft] at shorter ⊢
        omega
    | @line after notBlank string inRange counted =>
        have text : handing (session, .prompt) (after, .parse answers.block) =
            [(session.stdin, lineText read)] := by
          simp only [handing, string, Option.map_some, Option.toList_some]
        rw [if_neg notBlank] at ahead
        rw [text]
        constructor
        · have counted' : after.historyCount =
              (seen ++ [(session.stdin, lineText read)]).length := by
            rw [counted, count, List.length_append, List.length_singleton]
          generalize isSplit : (commandStarts lines).drop seen.length = starts at ahead
          cases ahead with
          | exit isFit isExit =>
              rcases forall₂_take_succ fits isFit isSplit with ⟨fits', left⟩
              refine ⟨counted', fits', _, string, ?_⟩
              rw [left]
              exact .inl ⟨isExit, rfl⟩
          | line isFit notExit through spares last others =>
              rcases forall₂_take_succ fits isFit isSplit with ⟨fits', left⟩
              refine ⟨counted', fits', _, string, ?_⟩
              rw [left]
              exact .inr ⟨notExit, through, spares, last, others⟩
        · dsimp only [stepsLeft] at shorter ⊢
          omega
  · rcases ahead with ⟨text, string, behind⟩
    rcases parse_cases string stepped with ⟨cmd, parsed, phase, stdin, same⟩
    rcases next with ⟨after, _⟩
    cases phase
    have nothing : handing (session, .parse buffer) (after, .act buffer cmd) = [] := rfl
    dsimp only at stdin same
    rw [HandsBehind, ← stdin] at behind
    rw [nothing, List.append_nil]
    refine ⟨⟨same.trans counted, fits, text, parsed, behind⟩, ?_⟩
    dsimp only [stepsLeft]
    rw [stdin]
    omega
  · rcases ahead with ⟨text, parsed, behind⟩
    rcases act_cases inv parsed stepped with ⟨ends, result, rfl⟩
    rcases behind.ends answers.opens with ⟨ends', result', last⟩
    cases result.symm.trans result'
    cases ends with
    | true =>
        have nothing (after : Session) :
            handing (session, .act buffer cmd) (after, .ended) = [] := rfl
        rw [if_pos rfl, nothing, List.append_nil]
        exact ⟨⟨counted, fits, last rfl⟩, Nat.succ_pos _⟩
    | false =>
        have nothing (after : Session) :
            handing (session, .act buffer cmd) (after, .prompt) = [] := rfl
        rw [if_neg Bool.false_ne_true, nothing, List.append_nil]
        rcases behind with ⟨isExit, _⟩ | ⟨_, _, spares, _, others⟩
        · rw [isExit.ends] at result
          cases result
        · rw [left_alone spares parsed possible]
          exact ⟨⟨counted, fits, others⟩, Nat.lt_succ_self _⟩
  · cases stepped

/-- Up to the end of the input there is a next step. -/
theorem HandsOn.defined (progress : HandsOn quiet lines seen state) (inv : LoopInv reads state)
    (few : (commandLines lines).length ≤ intMax) (notAtEnd : ¬AtEnd state)
    (size : answers.garbage.length = bufSize)
    (unused : state.2 = .prompt → state.1.heap answers.block = none) :
    ∃ next, loopStep answers state = some next := by
  rcases progress with ⟨counted, fits, ahead⟩
  rcases state with ⟨session, _ | buffer | ⟨buffer, cmd⟩ | _⟩
  · apply prompt_defined inv (unused rfl) size
    intro notBlank
    have something : session.stdin ≠ [] := fun nothing => notAtEnd (.inr ⟨rfl, nothing⟩)
    have count : session.historyCount = seen.length := counted
    dsimp only [HandsAhead] at ahead
    rw [handedOf_chunks something, if_neg notBlank] at ahead
    -- there is a line for the string that comes next
    have more : (commandStarts lines).drop seen.length ≠ [] := by
      intro nothing
      rw [nothing] at ahead
      cases ahead
    rw [ne_eq, List.drop_eq_nil_iff, length_commandStarts] at more
    omega
  · rcases ahead with ⟨text, string, behind⟩
    rcases behind.ends answers.opens with ⟨ends, result, _⟩
    rw [← endsWith_eq inv.records text, Option.bind_eq_some_iff] at result
    rcases result with ⟨cmd, parsed, _⟩
    exact parse_defined string parsed answers
  · rcases ahead with ⟨text, parsed, behind⟩
    rcases behind.ends answers.opens with ⟨ends, result, _⟩
    exact act_defined inv parsed result
  · exact absurd (.inl rfl) notAtEnd

theorem HandsOn.start {state : Session × Phase} (reads : LineByLine quiet lines)
    (initial : (reading quiet lines).init state) :
    HandsOn quiet lines [] state ∧ stepsLeft state = 3 * (inputOf lines).length := by
  rcases state with ⟨session, phase⟩
  rcases initial with ⟨stdin, _, count, isPrompt⟩
  dsimp only at stdin count isPrompt
  subst isPrompt
  constructor
  · refine ⟨count, .nil, ?_⟩
    rw [HandsAhead, stdin]
    exact (hands_iff quiet lines).mpr reads
  · rw [stepsLeft, stdin]

end Way

theorem onePerLine_of_lineByLine (lineByLine : LineByLine quiet lines)
    (few : (commandLines lines).length ≤ intMax) : OnePerLine quiet lines := by
  have progress {seen : List Handed} {state : Session × Phase}
      (run : Seen (reading quiet lines) handing seen state) :
      (∃ reads, LoopInv reads state) ∧ HandsOn quiet lines seen state := by
    apply run.invariant (P := fun seen state => (∃ reads, LoopInv reads state) ∧
      HandsOn quiet lines seen state)
    · intro state initial
      exact ⟨⟨[], @LoopInv.start quiet _ _ initial⟩, (HandsOn.start lineByLine initial).1⟩
    · rintro seen state answers next ⟨⟨reads, inv⟩, earlier⟩ ⟨⟨possible, stepped⟩, notAtEnd⟩
      exact ⟨⟨_, inv.step stepped⟩, (earlier.step inv notAtEnd possible stepped).1⟩
  refine ⟨⟨3 * (inputOf lines).length, fun events state trace => ?_⟩, ?_, ?_, ?_⟩
  · have bounded : (∃ reads, LoopInv reads state) ∧ (∃ seen, HandsOn quiet lines seen state) ∧
        events.length + stepsLeft state ≤ 3 * (inputOf lines).length := by
      apply trace.invariant (P := fun events state => (∃ reads, LoopInv reads state) ∧
        (∃ seen, HandsOn quiet lines seen state) ∧
          events.length + stepsLeft state ≤ 3 * (inputOf lines).length)
      · intro state initial
        rcases HandsOn.start lineByLine initial with ⟨start, steps⟩
        refine ⟨⟨[], @LoopInv.start quiet _ _ initial⟩, ⟨[], start⟩, ?_⟩
        rw [steps, List.length_nil, Nat.zero_add]
      · rintro events state answers next _ ⟨⟨reads, inv⟩, ⟨seen, earlier⟩, left⟩
          ⟨⟨possible, stepped⟩, notAtEnd⟩
        rcases earlier.step inv notAtEnd possible stepped with ⟨later, fewer⟩
        refine ⟨⟨_, inv.step stepped⟩, ⟨_, later⟩, ?_⟩
        rw [List.length_append, List.length_singleton]
        omega
    exact Nat.le_of_add_right_le bounded.2.2
  · intro state answers reached notAtEnd possible unused
    rcases reached.seen handing with ⟨seen, run⟩
    rcases progress run with ⟨⟨reads, inv⟩, here⟩
    rcases here.defined inv few notAtEnd possible.size unused with ⟨next, stepped⟩
    exact ⟨next, ⟨possible, stepped⟩, notAtEnd⟩
  · exact fun seen state run => (progress run).2.fits
  · intro seen state run atEnd
    rcases (progress run).2 with ⟨_, fits, ahead⟩
    have nothing : (commandStarts lines).drop seen.length = [] := by
      rcases state with ⟨session, phase⟩
      rcases atEnd with ended | ⟨isPrompt, noInput⟩
      · dsimp only at ended
        subst ended
        exact ahead
      · dsimp only at isPrompt noInput
        subst isPrompt
        dsimp only [HandsAhead] at ahead
        have noChunks : handedOf (chunks newline (bufSize - 1) []) = [] := rfl
        rw [noInput, noChunks] at ahead
        generalize (commandStarts lines).drop seen.length = starts at ahead
        cases ahead
        rfl
    rw [List.take_of_length_le (List.drop_eq_nil_iff.mp nothing)] at fits
    exact fits

/-! ## Only such lines -/

section Necessary

variable {seen : List Handed} {session : Session}

theorem OnePerLine.explored (one : OnePerLine quiet lines) :
    Explored quiet (Seen (reading quiet lines) handing) := by
  constructor
  · exact fun _ _ _ _ run notAtEnd possible stepped => run.snoc ⟨⟨possible, stepped⟩, notAtEnd⟩
  · intro seen state answers run notAtEnd possible unused
    rcases one.goesOn state answers run.reachable notAtEnd possible unused with
      ⟨next, ⟨_, stepped⟩, _⟩
    exact ⟨next, stepped⟩

/-- Every line goes on to some state. -/
theorem LineTurn.reached {R : List Handed → Session × Phase → Prop} {count : Nat} {text : Str}
    {rest : List UInt8} (turn : LineTurn quiet R seen count text rest) : ∃ state, R seen state := by
  by_cases isExit : IsExit text
  · rcases turn.ends (.inl isExit) with ⟨last, run⟩
    exact ⟨_, run⟩
  · rcases turn.goesOn isExit rest (fun _ => rfl) with ⟨next, _, _, _, run⟩
    exact ⟨_, run⟩

/-- In a run there is a line for the string that has come last. -/
theorem OnePerLine.fits_last (one : OnePerLine quiet lines) {string : Handed}
    {state : Session × Phase} (run : Seen (reading quiet lines) handing (seen ++ [string]) state) :
    ∃ start, Fits string start ∧ (commandStarts lines).drop seen.length =
      start :: (commandStarts lines).drop (seen ++ [string]).length := by
  have fits := one.inOrder _ _ run
  have size := fits.length_eq
  rw [List.length_append, List.length_singleton] at fits size
  rw [List.length_take] at size
  have inside : seen.length < (commandStarts lines).length := by omega
  rw [List.take_add_one, List.getElem?_eq_getElem inside, Option.toList_some] at fits
  have last := List.forall₂_drop_append _ _ _ fits
  rw [List.length_take_of_le inside.le, List.drop_left] at last
  cases last with
  | cons fits _ =>
      refine ⟨_, fits, ?_⟩
      rw [List.length_append, List.length_singleton]
      exact List.drop_eq_getElem_cons inside

/-- At the end of a run no line is left. -/
theorem OnePerLine.drop_eq_nil (one : OnePerLine quiet lines) {state : Session × Phase}
    (run : Seen (reading quiet lines) handing seen state) (atEnd : AtEnd state) :
    (commandStarts lines).drop seen.length = [] :=
  List.drop_eq_nil_of_le (one.whole _ _ run atEnd).length_eq.ge

/-- A line that is not the last leaves its input alone: without input the others would be
missing, and with more of it there would be another string behind the last. -/
theorem OnePerLine.spares (one : OnePerLine quiet lines) {count : Nat} {text : Str}
    {rest : List UInt8}
    (turn : LineTurn quiet (Seen (reading quiet lines) handing) seen count text rest)
    (notExit : ¬IsExit text) : Spares quiet text := by
  by_contra changes
  have free (left : List UInt8) : Spares quiet text → left = rest :=
    fun spares => absurd spares changes
  rcases turn.goesOn notExit [] (free []) with ⟨next, _, nothing, _, run⟩
  have noLine := one.drop_eq_nil run (.inr ⟨rfl, nothing⟩)
  rcases turn.goesOn notExit [97] (free [97]) with ⟨next', ready', more, _, run'⟩
  have something : next'.stdin ≠ [] := by
    rw [more]
    exact List.cons_ne_nil _ _
  rcases one.explored.turn ready' something run' with
    ⟨read, behind, first, _, ⟨isBlank, _⟩ | ⟨_, turn'⟩⟩
  · rw [more, chunks_eq_cons (by decide) (List.cons_ne_nil _ _)] at first
    rw [← (List.cons.inj first).1] at isBlank
    exact absurd isBlank (by decide)
  · rcases turn'.reached with ⟨state, run''⟩
    rcases one.fits_last run'' with ⟨start, _, isLine⟩
    rw [noLine] at isLine
    cases isLine

/-- What is ahead of a prompt has to be handed on, and an `int` counts it. -/
theorem OnePerLine.hands_from (one : OnePerLine quiet lines) (ready : Poised session)
    (counted : session.historyCount = seen.length) (inRange : session.historyCount ≤ intMax)
    (run : Seen (reading quiet lines) handing seen (session, .prompt)) :
    Hands quiet (handedOf (chunks newline (bufSize - 1) session.stdin))
        ((commandStarts lines).drop seen.length) ∧
      (commandLines lines).length ≤ intMax := by
  induction size : session.stdin.length using Nat.strong_induction_on
    generalizing session seen with
  | _ size ih =>
      subst size
      have few {seen : List Handed} (all : (commandStarts lines).drop seen.length = [])
          (short : seen.length ≤ intMax) : (commandLines lines).length ≤ intMax := by
        rw [← length_commandStarts]
        exact (List.drop_eq_nil_iff.mp all).trans short
      by_cases nothing : session.stdin = []
      · have noChunks : handedOf (chunks newline (bufSize - 1) []) = [] := rfl
        have noLine := one.drop_eq_nil run (.inr ⟨rfl, nothing⟩)
        rw [nothing, noChunks, noLine]
        exact ⟨.nil, few noLine (counted ▸ inRange)⟩
      rcases one.explored.turn ready nothing run with
        ⟨read, rest, first, shorter,
          ⟨isBlank, next, ready', stdin, same, run'⟩ | ⟨notBlank, turn⟩⟩
      · rw [← stdin] at first shorter
        rw [first, handedOf, if_pos isBlank]
        rw [← same] at counted inRange
        exact ih _ shorter ready' counted inRange run' rfl
      have whole : (chunks newline (bufSize - 1) session.stdin).flatten = session.stdin :=
        flatten_chunks (by decide) session.stdin
      rw [first] at whole
      rw [first, handedOf, if_neg notBlank, whole]
      rcases turn.reached with ⟨state, reached⟩
      rcases one.fits_last reached with ⟨start, fits, isLine⟩
      have counted' : session.historyCount + 1 =
          (seen ++ [(session.stdin, lineText read)]).length := by
        rw [counted, List.length_append, List.length_singleton]
      have inRange' : session.historyCount + 1 ≤ intMax := turn.inRange
      have noneAtEnd (ends : IsExit (lineText read) ∨ MayEnd (lineText read)) :
          (commandStarts lines).drop (seen ++ [(session.stdin, lineText read)]).length = [] := by
        rcases turn.ends ends with ⟨last, ended⟩
        exact one.drop_eq_nil ended (.inl rfl)
      rw [isLine]
      by_cases isExit : IsExit (lineText read)
      · have last := noneAtEnd (.inl isExit)
        rw [last]
        exact ⟨.exit fits isExit, few last (counted' ▸ inRange')⟩
      rcases turn.goesOn isExit rest (fun _ => rfl) with ⟨next, ready', stdin, same, run'⟩
      rw [← stdin] at shorter ⊢
      rcases ih _ shorter ready' (same.trans counted') (same ▸ inRange') run' rfl with
        ⟨others, short⟩
      exact ⟨.line fits isExit turn.through (one.spares turn isExit)
        (fun may => noneAtEnd (.inr may)) others, short⟩

end Necessary

/-- One string is handed on for each input line, and none for the tail of one, exactly when
every line is cut at blanks only and lets the shell read on as far as there are lines, and an
`int` counts them. -/
theorem one_command_per_line_iff (quiet : Cmd → Prop) (lines : List InputLine) :
    OnePerLine quiet lines ↔
      LineByLine quiet lines ∧ (commandLines lines).length ≤ intMax := by
  constructor
  · intro one
    have run : Seen (reading quiet lines) handing [] (Session.start (inputOf lines), .prompt) :=
      .start (Session.start_initial quiet (inputOf lines))
    rw [← hands_iff]
    exact one.hands_from (Session.start_poised _) rfl (Nat.zero_le _) run
  · rintro ⟨lineByLine, few⟩
    exact onePerLine_of_lineByLine lineByLine few

/-- A line with a `b` where the buffer is full. -/
def longLine : InputLine :=
  ⟨List.replicate (bufSize - 1) 97 ++ [98], by simp [newline, List.mem_replicate],
    by simp [List.mem_replicate]⟩

/-- The `b` is handed on as a string of its own. -/
theorem not_onePerLine_long : ¬OnePerLine (fun _ => True) [longLine] := by
  intro one
  have notExit : ¬IsExit longLine.front := by
    rintro ⟨command, single, named, _⟩
    have word : commands longLine.front = [⟨[], [.arg (List.replicate (bufSize - 1) 97)]⟩] := by
      decide +kernel
    rw [word] at single
    cases single
    exact absurd named (by decide +kernel)
  have found : longLine.chars[(bufSize - 1) * (0 + 1)]? = some 98 := by
    simp [longLine]
  have run : Seen (reading (fun _ => True) [longLine]) handing []
      (Session.start (inputOf [longLine]), .prompt) :=
    .start (Session.start_initial (fun _ => True) _)
  have hands := one.hands_from (Session.start_poised _) rfl (Nat.zero_le _) run
  cases (hands_iff _ _).mp hands.1 with
  | blank isBlank cut => exact absurd (cut 0 98 found) (by decide)
  | exit _ isExit => exact notExit isExit
  | line _ _ _ _ _ cut => exact absurd (cut 0 98 found) (by decide)

end NckuOs.Shell
