import NckuOs.Shell.LoopSteps

/-!
# The end of the input

At the end of the input `read_line` returns a buffer that nothing has been read into, and the
shell takes it for a line.  Only the line `exit` ends the loop in time.
-/

namespace NckuOs.Shell

open NckuOs.Blocks NckuOs.Chunks NckuOs.Transition

/-! ## The loop and its end -/

/-- The loop has an end, it never lacks a next step before that, and it parses nothing when
there is no input left. -/
structure EndsInTime (quiet : Cmd → Prop) (input : List UInt8) : Prop where
  finite : ∃ bound, ∀ events state, Trace (loop quiet input) events state →
    events.length ≤ bound
  defined : ∀ state answers, Reachable (loop quiet input) state → state.2 ≠ .ended →
    answers.Possible quiet state → (state.2 = .prompt → state.1.heap answers.block = none) →
      ∃ next, (loop quiet input).step state answers next
  filled : ∀ session answers next buffer, Reachable (loop quiet input) (session, .prompt) →
    session.stdin = [] →
      ¬(loop quiet input).step (session, .prompt) answers (next, .parse buffer)

/-- One of the lines is `exit`, the shell gets through those in front of it, they leave it its
input, and an `int` can count them on. -/
def ExitsInTime (quiet : Cmd → Prop) (count : Nat) (lines : List Str) : Prop :=
  ∃ front exit rest, lines = front ++ exit :: rest ∧ IsExit exit ∧
    (∀ line ∈ front, GetsThrough line ∧ Spares quiet line) ∧ count + front.length < intMax

variable {quiet : Cmd → Prop} {input : List UInt8} {session : Session}

theorem exitsInTime_nil (count : Nat) : ¬ExitsInTime quiet count [] := by
  rintro ⟨front, exit, rest, isSplit, _⟩
  cases front <;> cases isSplit

/-- The first line is `exit`, or the shell gets through it to the others. -/
theorem exitsInTime_cons (count : Nat) (line : Str) (lines : List Str) :
    ExitsInTime quiet count (line :: lines) ↔ count < intMax ∧
      (IsExit line ∨
        GetsThrough line ∧ Spares quiet line ∧ ExitsInTime quiet (count + 1) lines) := by
  constructor
  · rintro ⟨front, exit, rest, isSplit, isExit, through, few⟩
    refine ⟨Nat.lt_of_le_of_lt (Nat.le_add_right _ _) few, ?_⟩
    cases front with
    | nil =>
        cases isSplit
        exact .inl isExit
    | cons first front =>
        cases isSplit
        rw [List.forall_mem_cons] at through
        refine .inr ⟨through.1.1, through.1.2, front, exit, rest, rfl, isExit, through.2, ?_⟩
        rw [List.length_cons] at few
        omega
  · rintro ⟨inRange, isExit | ⟨through, spares, front, exit, rest, rfl, isExit, others, few⟩⟩
    · exact ⟨[], line, lines, rfl, isExit, List.forall_mem_nil _, inRange⟩
    · refine ⟨line :: front, exit, rest, rfl, isExit,
        List.forall_mem_cons.mpr ⟨⟨through, spares⟩, others⟩, ?_⟩
      rw [List.length_cons]
      omega

/-! ## The loop comes to an `exit` -/

/-- What is to be said of the line that is at work. -/
def Passes (quiet : Cmd → Prop) (session : Session) (line : Str) : Prop :=
  IsExit line ∨ GetsThrough line ∧ Spares quiet line ∧
    ExitsInTime quiet session.historyCount
      (accepted (chunks newline (bufSize - 1) session.stdin))

/-- Where the loop is on the way to the first `exit`. -/
def OnTheWay (quiet : Cmd → Prop) : Session × Phase → Prop
  | (session, .prompt) => ExitsInTime quiet session.historyCount
      (accepted (chunks newline (bufSize - 1) session.stdin))
  | (session, .parse buffer) => ∃ line, session.heap.string buffer = some line ∧
      Passes quiet session line
  | (session, .act _ cmd) => ∃ line, splitLine line = some cmd ∧ Passes quiet session line
  | (_, .ended) => True

theorem Passes.ends {line : Str} (passes : Passes quiet session line) (opens : Bool) :
    ∃ ends, endsWith opens line = some ends := by
  rcases passes with isExit | ⟨through, _⟩
  · exact ⟨true, isExit.ends opens⟩
  · rcases through.ends opens with ⟨ends, result, _⟩
    exact ⟨ends, result⟩

section Way

variable {reads : List (List UInt8)} {state next : Session × Phase} {answers : Answers}

/-- There is input left, for `exit` has not been read. -/
theorem OnTheWay.input_left (way : OnTheWay quiet (session, .prompt)) : session.stdin ≠ [] := by
  intro nothing
  dsimp only [OnTheWay] at way
  rw [nothing] at way
  exact exitsInTime_nil _ way

theorem OnTheWay.step (inv : LoopInv reads state) (way : OnTheWay quiet state)
    (possible : answers.Possible quiet state) (stepped : loopStep answers state = some next) :
    OnTheWay quiet next ∧ stepsLeft next < stepsLeft state := by
  rcases state with ⟨session, _ | buffer | ⟨buffer, cmd⟩ | _⟩
  · rcases prompt_cases inv way.input_left stepped with ⟨read, first, shorter, step⟩
    dsimp only [OnTheWay] at way
    rw [first] at way
    cases step with
    | blank isBlank unused same =>
        rw [accepted_cons_blank isBlank, ← same] at way
        refine ⟨way, ?_⟩
        dsimp only [stepsLeft] at shorter ⊢
        omega
    | line notBlank string inRange counted =>
        rw [accepted_cons_line notBlank, exitsInTime_cons, ← counted] at way
        refine ⟨⟨_, string, way.2⟩, ?_⟩
        dsimp only [stepsLeft] at shorter ⊢
        omega
  · rcases way with ⟨line, string, passes⟩
    rcases parse_cases string stepped with ⟨cmd, parsed, phase, stdin, counted⟩
    rcases next with ⟨after, _⟩
    cases phase
    dsimp only at stdin counted
    rw [Passes, ← stdin, ← counted] at passes
    refine ⟨⟨line, parsed, passes⟩, ?_⟩
    dsimp only [stepsLeft]
    rw [stdin]
    omega
  · rcases way with ⟨line, parsed, passes⟩
    rcases act_cases inv parsed stepped with ⟨ends, result, rfl⟩
    cases ends with
    | true => exact ⟨trivial, Nat.succ_pos _⟩
    | false =>
        rcases passes with isExit | ⟨_, spares, way⟩
        · rw [isExit.ends] at result
          cases result
        · rw [left_alone spares parsed possible]
          exact ⟨way, Nat.lt_succ_self _⟩
  · cases stepped

/-- Before the end there is a next step. -/
theorem OnTheWay.defined (inv : LoopInv reads state) (way : OnTheWay quiet state)
    (notEnded : state.2 ≠ .ended) (size : answers.garbage.length = bufSize)
    (unused : state.2 = .prompt → state.1.heap answers.block = none) :
    ∃ next, loopStep answers state = some next := by
  rcases state with ⟨session, _ | buffer | ⟨buffer, cmd⟩ | _⟩
  · apply prompt_defined inv (unused rfl) size
    intro notBlank
    have something := way.input_left
    dsimp only [OnTheWay] at way
    rw [chunks_eq_cons (by decide) something, accepted_cons_line notBlank,
      exitsInTime_cons] at way
    exact way.1
  · rcases way with ⟨line, string, passes⟩
    rcases passes.ends answers.opens with ⟨ends, result⟩
    rw [← endsWith_eq inv.records line, Option.bind_eq_some_iff] at result
    rcases result with ⟨cmd, parsed, _⟩
    exact parse_defined string parsed answers
  · rcases way with ⟨line, parsed, passes⟩
    rcases passes.ends answers.opens with ⟨ends, result⟩
    exact act_defined inv parsed result
  · exact absurd rfl notEnded

end Way

theorem OnTheWay.start {state : Session × Phase} (initial : (loop quiet input).init state)
    (exits : ExitsInTime quiet 0 (accepted (chunks newline (bufSize - 1) input))) :
    OnTheWay quiet state ∧ stepsLeft state = 3 * input.length := by
  rcases state with ⟨session, phase⟩
  rcases initial with ⟨stdin, _, count, isPrompt⟩
  dsimp only at stdin count isPrompt
  subst isPrompt
  rw [← stdin, ← count] at exits
  refine ⟨exits, ?_⟩
  rw [stepsLeft, stdin]

theorem endsInTime_of_exits
    (exits : ExitsInTime quiet 0 (accepted (chunks newline (bufSize - 1) input))) :
    EndsInTime quiet input := by
  have way {events : List Answers} {state : Session × Phase}
      (trace : Trace (loop quiet input) events state) :
      (∃ reads, LoopInv reads state) ∧ OnTheWay quiet state ∧
        events.length + stepsLeft state ≤ 3 * input.length := by
    apply trace.invariant (P := fun events state => (∃ reads, LoopInv reads state) ∧
      OnTheWay quiet state ∧ events.length + stepsLeft state ≤ 3 * input.length)
    · intro state initial
      rcases OnTheWay.start initial exits with ⟨start, steps⟩
      refine ⟨⟨[], .start initial⟩, start, ?_⟩
      rw [steps, List.length_nil, Nat.zero_add]
    · rintro events state answers next _ ⟨⟨reads, inv⟩, earlier, left⟩ ⟨possible, stepped⟩
      have ahead := earlier.step inv possible stepped
      refine ⟨⟨_, inv.step stepped⟩, ahead.1, ?_⟩
      rw [List.length_append, List.length_singleton]
      omega
  refine ⟨⟨3 * input.length, fun events state trace => ?_⟩, ?_, ?_⟩
  · exact Nat.le_of_add_right_le (way trace).2.2
  · rintro state answers ⟨events, trace⟩ notEnded possible unused
    rcases way trace with ⟨⟨reads, inv⟩, ahead, _⟩
    rcases ahead.defined inv notEnded possible.size unused with ⟨next, stepped⟩
    exact ⟨next, possible, stepped⟩
  · rintro session answers next buffer ⟨events, trace⟩ nothing _
    exact (way trace).2.1.input_left nothing

/-! ## Every other loop fails -/

/-- A loop that ends in time is never without input in front of `read_line`. -/
theorem EndsInTime.input_left (ends : EndsInTime quiet input)
    (reached : Reachable (loop quiet input) (session, .prompt)) (ready : Poised session) :
    session.stdin ≠ [] := by
  intro nothing
  have possible : (scripted true []).Possible quiet (session, .prompt) :=
    scripted_possible true fun _ _ isAct => by cases isAct
  rcases ends.defined _ _ reached Phase.noConfusion possible (fun _ => ready.unused) with
    ⟨⟨after, phase⟩, stepped⟩
  have isParse : phase = .parse maxRecordNum := parses_unfilled nothing stepped.2
  subst isParse
  exact ends.filled _ _ _ _ reached nothing stepped

/-- A loop that ends in time comes to an `exit`, also from the middle of the input on. -/
theorem EndsInTime.exits_from (ends : EndsInTime quiet input)
    (reached : Reachable (loop quiet input) (session, .prompt)) (ready : Poised session) :
    ExitsInTime quiet session.historyCount
      (accepted (chunks newline (bufSize - 1) session.stdin)) := by
  have explored : Explored quiet fun _ state => Reachable (loop quiet input) state := by
    constructor
    · exact fun _ _ _ _ reached _ possible stepped => reached.snoc ⟨possible, stepped⟩
    · intro _ state answers reached notAtEnd possible unused
      rcases ends.defined state answers reached (fun ended => notAtEnd (.inl ended)) possible
        unused with ⟨next, _, stepped⟩
      exact ⟨next, stepped⟩
  induction size : session.stdin.length using Nat.strong_induction_on generalizing session with
  | _ size ih =>
      subst size
      rcases @Explored.turn _ _ [] _ explored ready (ends.input_left reached ready) reached with
        ⟨read, rest, first, shorter,
          ⟨isBlank, next, ready', stdin, same, reached'⟩ | ⟨notBlank, turn⟩⟩
      · rw [← stdin] at first shorter
        rw [first, accepted_cons_blank isBlank, ← same]
        exact ih _ shorter reached' ready' rfl
      rw [first, accepted_cons_line notBlank, exitsInTime_cons]
      refine ⟨turn.inRange, ?_⟩
      by_cases isExit : IsExit (lineText read)
      · exact .inl isExit
      have spares : Spares quiet (lineText read) := by
        by_contra changes
        rcases turn.goesOn isExit [] (fun spares => absurd spares changes) with
          ⟨next, ready', nothing, _, reached'⟩
        exact ends.input_left reached' ready' nothing
      rcases turn.goesOn isExit rest (fun _ => rfl) with ⟨next, ready', stdin, counted, reached'⟩
      rw [← stdin] at shorter ⊢
      rw [← counted]
      exact .inr ⟨turn.through, spares, ih _ shorter reached' ready' rfl⟩

/-- The loop ends in time exactly when the shell comes to a line `exit` before the input ends,
and the processes that it starts on the way leave it its input. -/
theorem endsInTime_iff (quiet : Cmd → Prop) (input : List UInt8) :
    EndsInTime quiet input ↔
      ExitsInTime quiet 0 (accepted (chunks newline (bufSize - 1) input)) := by
  constructor
  · intro ends
    exact ends.exits_from (.start (Session.start_initial quiet input)) (Session.start_poised input)
  · exact endsInTime_of_exits

/-- Without any input the loop parses what `malloc` has left in the buffer. -/
theorem not_endsInTime_nil : ¬EndsInTime (fun _ => True) [] := by
  intro ends
  have reached : Reachable (loop (fun _ => True) []) (Session.start [], .prompt) :=
    .start (Session.start_initial _ [])
  exact ends.input_left reached (Session.start_poised []) rfl

end NckuOs.Shell
