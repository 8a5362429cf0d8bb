import NckuOs.Lib.Ring
import NckuOs.Lib.Transition
import NckuOs.Shell.Builtin

/-!
# The history

The loop of `shell` reads a line, cuts its buffer into tokens, runs the commands and frees
the buffer.  The history is kept in other blocks, and `record` prints it.  The processes of a
line share the standard input, and may read from it or move back in it.
-/

namespace NckuOs.Shell

open NckuOs.Blocks NckuOs.Chunks NckuOs.Transition
open NckuOs.Blocks.Heap (SameBut)

/-! ## `record` -/

/-- `printf("%2d: %s\n", number, text)`. -/
def entry (number : Nat) (text : Str) : Str :=
  let digits := Decimal.natDigits number
  List.replicate (2 - digits.length) space ++ digits ++ [58, space] ++ text ++ [newline]

/-- The line of `record` for `history[i]`. -/
def printEntry (session : Session) (number i : Nat) : Option Str := do
  let slot ← session.history[i]?
  let text ← session.heap.string slot
  some (entry number text)

/-- `record`. -/
def record (session : Session) : Option Str :=
  let count := session.historyCount
  let lines :=
    if count < maxRecordNum then
      (List.range count).mapM fun i => printEntry session (i + 1) i
    else
      (List.range' (count % maxRecordNum) maxRecordNum).mapM fun i =>
        printEntry session (i - count % maxRecordNum + 1) (i % maxRecordNum)
  lines.map List.flatten

/-! ## The loop of `shell` -/

/-- Where the loop is: before `read_line`, before `split_line`, or before the commands. -/
inductive Phase
  | prompt
  | parse (buffer : Nat)
  | act (buffer : Nat) (cmd : Cmd)
  | ended

/-- What `malloc` gives to `read_line`, whether the files of a built-in command can be opened,
the answer of `getcwd`, and the input that is left when the processes of a line are through. -/
structure Answers where
  block : Nat
  garbage : List UInt8
  opens : Bool
  cwd : Option Str
  left : List UInt8

/-- `strtok` puts a NUL behind every token that a blank ends. -/
def cutWords (inWord : Bool) : List UInt8 → List UInt8
  | [] => []
  | c :: rest =>
      if c = 0 then c :: rest
      else if c = space then (if inWord then 0 else c) :: cutWords false rest
      else c :: cutWords true rest

/-- `execBuiltInCommand` in the shell's process. -/
def printed (answers : Answers) (session : Session) (status : Nat) (args : List (Option Str)) :
    Option Str := do
  -- the history is looked at by `record` only
  let recorded ← if status = 5 then record session else some []
  execBuiltInCommand answers.cwd recorded status args

/-- The branch for a single command: whether the shell ends with it, at `exit`, and when a file
of a built-in command cannot be opened. -/
def endsShell (answers : Answers) (session : Session) (cmd : Cmd) : Option Bool := do
  let node ← cmd.nodes[cmd.head]?
  if node.next = none then do
    let builtin ← searchBuiltInCommand node
    match builtin with
    | none => some false
    | some status =>
        if !answers.opens && (node.inFile.isSome || node.outFile.isSome) then some true
        else do
          let _ ← printed answers session status node.args
          some (decide (node.name? = some exitName))
  else some false

/-- The next step of the loop. -/
def loopStep (answers : Answers) : Session × Phase → Option (Session × Phase)
  | (session, .prompt) => do
      let (session, buffer) ← readLine answers.block answers.garbage session
      match buffer with
      | none => some (session, .prompt)
      | some buffer => some (session, .parse buffer)
  | (session, .parse buffer) => do
      let line ← session.heap.string buffer
      let cmd ← splitLine line
      let bytes ← session.heap buffer
      let heap ← session.heap.store buffer (cutWords false bytes)
      some ({ session with heap := heap }, .act buffer cmd)
  | (session, .act buffer cmd) => do
      let ends ← endsShell answers session cmd
      let stdin := if spawned cmd = [] then session.stdin else answers.left
      some ({ session with heap := session.heap.free buffer, stdin := stdin },
        if ends then .ended else .prompt)
  | (_, .ended) => none

/-- What may happen in a state: `malloc` gives a whole buffer, and the processes of a quiet
line leave the input as it is. -/
structure Answers.Possible (answers : Answers) (quiet : Cmd → Prop) (state : Session × Phase) :
    Prop where
  size : answers.garbage.length = bufSize
  left : ∀ buffer cmd, state.2 = .act buffer cmd → quiet cmd → answers.left = state.1.stdin

/-- The shell with an input, from the history as `main` has allocated it.  Lines that are not
quiet may do anything with the input. -/
def loop (quiet : Cmd → Prop) (input : List UInt8) : System (Session × Phase) Answers where
  init state := state.1.stdin = input ∧ state.1.HasHistory ∧ state.1.historyCount = 0 ∧
    state.2 = .prompt
  step state answers next := answers.Possible quiet state ∧ loopStep answers state = some next

/-- What `fgets` reads in the next step. -/
def fgetsRead : Session × Phase → List (List UInt8)
  | (session, .prompt) =>
      if session.stdin = [] then [] else [(cut newline (bufSize - 1) session.stdin).1]
  | (_, .parse _) => []
  | (_, .act _ _) => []
  | (_, .ended) => []

/-! ## What has been accepted -/

/-- The lines that `read_line` accepts of what `fgets` reads. -/
def accepted (reads : List (List UInt8)) : List Str :=
  (reads.filter fun read => ¬Blank read).map lineText

/-- Lines with their numbers from 1 on. -/
def listing (lines : List Str) : Str :=
  ((lines.zipIdx 1).map fun p => entry p.2 p.1).flatten

/-- The string that `history[i]` points to. -/
def Session.recorded (session : Session) (i : Nat) : Option Str :=
  session.history[i]?.bind session.heap.string

/-- The history holds the last of these lines. -/
structure Records (lines : List Str) (session : Session) : Prop where
  has : session.HasHistory
  count : session.historyCount = lines.length
  shows : Ring.Shows maxRecordNum session.recorded lines

variable {lines : List Str} {session next : Session} {block : Nat}

/-- A change of a block that is not in the history keeps what it holds. -/
theorem Records.sameBut (records : Records lines session) (apart : block ∉ session.history)
    (history : next.history = session.history)
    (count : next.historyCount = session.historyCount)
    (others : SameBut block session.heap next.heap) : Records lines next where
  has := records.has.sameBut apart history others
  count := count.trans records.count
  shows := by
    apply records.shows.congr
    intro i
    rw [Session.recorded, Session.recorded, history]
    cases place : session.history[i]? with
    | none => rfl
    | some slot =>
        have ne : slot ≠ block := by
          rintro rfl
          exact apart (List.mem_of_getElem? place)
        exact Heap.string_congr (others slot ne)

/-- The line that is kept is the last of the history. -/
theorem Records.keep (records : Records lines session) {read old : List UInt8}
    (content : session.heap block = some (read ++ 0 :: old)) (fits : read.length < bufSize)
    (apart : block ∉ session.history) (kept : keepLine block session = some next) :
    Records (lines ++ [lineText read]) next ∧ next.history = session.history ∧
      next.stdin = session.stdin := by
  rcases keepLine_cases content kept with
    ⟨slot, heap, place, others, _, stored, _, isNext⟩
  rcases Heap.store_cases stored with ⟨bytes, before, _, after, rest⟩
  have history : next.history = session.history := by rw [isNext]
  have short : (lineText read).length < bufSize :=
    Nat.lt_of_le_of_lt (length_lineText_le read) fits
  have inHistory : slot ∈ session.history := List.mem_of_getElem? place
  have untouched : ∀ other ∈ session.history, other ≠ slot →
      next.heap other = session.heap other := by
    intro other isMem ne
    have notBlock : other ≠ block := fun same => apart (same ▸ isMem)
    rw [rest other ne, others other notBlock]
  have string : next.heap.string slot = some (lineText read) := by
    rw [strncpy_of_lt short, List.append_assoc] at after
    exact Heap.string_of_nul after (nul_notMem_lineText read)
  refine ⟨⟨⟨history ▸ records.has.places, history ▸ records.has.distinct, ?_⟩, ?_, ?_⟩,
    history, by rw [isNext]⟩
  · intro other isMem
    rw [history] at isMem
    by_cases same : other = slot
    · subst same
      rcases records.has.allocated other isMem with ⟨whole, atSlot, size⟩
      have sameBytes : bytes = whole := by
        rw [others other (fun eq => apart (eq ▸ isMem)), atSlot, Option.some.injEq] at before
        exact before.symm
      refine ⟨_, after, ?_⟩
      rw [List.length_append, length_strncpy short.le, List.length_drop, sameBytes, size,
        Nat.sub_self, Nat.add_zero]
    · rw [untouched other isMem same]
      exact records.has.allocated other isMem
  · rw [isNext, List.length_append, List.length_singleton, ← records.count]
  · apply records.shows.push
    · rw [← records.count, Session.recorded, history, place]
      exact string
    · intro i ne
      rw [Session.recorded, Session.recorded, history]
      cases there : session.history[i]? with
      | none => rfl
      | some other =>
          have differs : other ≠ slot := by
            rintro rfl
            have inside := (List.getElem?_eq_some_iff.mp there).1
            rw [← records.count] at ne
            exact ne ((List.getElem?_inj inside records.has.distinct).mp
              (there.trans place.symm))
          exact Heap.string_congr (untouched other (List.mem_of_getElem? there) differs)

/-! ## Runs of the loop -/

/-- The block that the loop is about to use and to free. -/
def Phase.buffer? : Phase → Option Nat
  | .prompt => none
  | .parse buffer => some buffer
  | .act buffer _ => some buffer
  | .ended => none

/-- What holds in front of every step, when `fgets` has read `reads`. -/
structure LoopInv (reads : List (List UInt8)) (state : Session × Phase) : Prop where
  records : Records (accepted reads) state.1
  apart : ∀ block ∈ state.2.buffer?, block ∉ state.1.history

theorem accepted_blank {reads : List (List UInt8)} {read : List UInt8} (blank : Blank read) :
    accepted (reads ++ [read]) = accepted reads := by
  simp [accepted, List.filter_append, blank]

theorem accepted_line {reads : List (List UInt8)} {read : List UInt8} (notBlank : ¬Blank read) :
    accepted (reads ++ [read]) = accepted reads ++ [lineText read] := by
  simp [accepted, List.filter_append, notBlank]

theorem accepted_cons_blank {read : List UInt8} (blank : Blank read) (rest : List (List UInt8)) :
    accepted (read :: rest) = accepted rest := by
  simp [accepted, blank]

theorem accepted_cons_line {read : List UInt8} (notBlank : ¬Blank read)
    (rest : List (List UInt8)) : accepted (read :: rest) = lineText read :: accepted rest := by
  simp [accepted, notBlank]

theorem LoopInv.start {quiet : Cmd → Prop} {input : List UInt8} {state : Session × Phase}
    (initial : (loop quiet input).init state) : LoopInv [] state := by
  rcases initial with ⟨_, has, count, phase⟩
  refine ⟨⟨has, count, Ring.shows_nil _ _⟩, ?_⟩
  rw [phase]
  intro block isMem
  cases isMem

/-- `read_line` takes one chunk of the input. -/
theorem readLine_stdin {garbage : List UInt8} {session next : Session} {block : Nat}
    {buffer : Option Nat} (done : readLine block garbage session = some (next, buffer)) :
    next.stdin = (cut newline (bufSize - 1) session.stdin).2 := by
  rcases readLine_cases done with ⟨_, ⟨nothing, _, isNext, _⟩ | ⟨read, rest, isCut, _, step⟩⟩
  · rw [isNext]
    dsimp only
    rw [nothing]
    rfl
  · rw [isCut]
    rcases step with ⟨_, _, _, isNext, _⟩ | ⟨_, _, heap, _, ⟨old, content⟩, kept⟩
    · exact congrArg Session.stdin isNext
    · rcases keepLine_cases content kept with ⟨_, _, _, _, _, _, _, isNext⟩
      exact congrArg Session.stdin isNext

/-- A chunk that is read is kept unless it is blank. -/
theorem LoopInv.readLine {garbage : List UInt8} {reads : List (List UInt8)}
    {session next : Session} {block : Nat} {buffer : Option Nat}
    (inv : LoopInv reads (session, .prompt))
    (done : readLine block garbage session = some (next, buffer)) :
    Records (accepted (reads ++ fgetsRead (session, .prompt))) next ∧
      ∀ b ∈ buffer, b ∉ next.history := by
  rcases inv with ⟨records, _⟩
  rcases readLine_cases done with ⟨unused, step⟩
  have apart := records.has.notMem unused
  rcases step with ⟨nothing, others, isNext, _, rfl⟩ | ⟨read, rest, isCut, something, step⟩
  · have history : next.history = session.history := by rw [isNext]
    rw [fgetsRead, if_pos nothing, List.append_nil]
    refine ⟨records.sameBut apart history (by rw [isNext]) others, ?_⟩
    rintro _ ⟨⟩
    rw [history]
    exact apart
  have nonempty : session.stdin ≠ [] := by
    intro nothing
    rw [nothing] at isCut
    exact something (congrArg Prod.fst isCut).symm
  rw [fgetsRead, if_neg nonempty, isCut]
  rcases step with ⟨blank, others, _, isNext, rfl⟩ | ⟨notBlank, rfl, heap, others, content, kept⟩
  · have history : next.history = session.history := by rw [isNext]
    rw [accepted_blank blank]
    refine ⟨records.sameBut apart history (by rw [isNext]) others, ?_⟩
    intro b isMem
    cases isMem
  · rcases content with ⟨old, content⟩
    let filled : Session := { session with stdin := rest, heap := heap }
    have ready : Records (accepted reads) filled := records.sameBut apart rfl rfl others
    have fits : read.length < bufSize := by
      have short := length_cut_le newline (bufSize - 1) session.stdin
      rw [isCut] at short
      exact Nat.lt_of_le_of_lt short (by decide)
    have done : Records (accepted reads ++ [lineText read]) next ∧
        next.history = filled.history ∧ next.stdin = filled.stdin :=
      ready.keep content fits apart kept
    rcases done with ⟨recorded, history, _⟩
    rw [accepted_line notBlank, history]
    refine ⟨recorded, ?_⟩
    rintro _ ⟨⟩
    exact apart

/-- Every step of the loop. -/
theorem LoopInv.step {reads : List (List UInt8)} {state next : Session × Phase}
    {answers : Answers} (inv : LoopInv reads state)
    (stepped : loopStep answers state = some next) :
    LoopInv (reads ++ fgetsRead state) next := by
  rcases state with ⟨session, phase⟩
  cases phase with
  | prompt =>
      simp only [loopStep, Option.bind_eq_bind, Option.bind_eq_some_iff] at stepped
      rcases stepped with ⟨⟨after, buffer⟩, done, stepped⟩
      rcases inv.readLine done with ⟨records, apart⟩
      cases buffer <;> cases stepped <;> exact ⟨records, apart⟩
  | parse buffer =>
      simp only [loopStep, Option.bind_eq_bind, Option.bind_eq_some_iff] at stepped
      rcases stepped with ⟨line, _, cmd, _, bytes, _, heap, stored, stepped⟩
      cases stepped
      rcases Heap.store_cases stored with ⟨_, _, _, _, others⟩
      have apart : buffer ∉ session.history := inv.apart buffer rfl
      rw [fgetsRead, List.append_nil]
      refine ⟨inv.records.sameBut apart rfl rfl others, ?_⟩
      rintro _ ⟨⟩
      exact apart
  | act buffer cmd =>
      simp only [loopStep, Option.bind_eq_bind, Option.bind_eq_some_iff] at stepped
      rcases stepped with ⟨ends, _, stepped⟩
      cases stepped
      have apart : buffer ∉ session.history := inv.apart buffer rfl
      rw [fgetsRead, List.append_nil]
      refine ⟨inv.records.sameBut apart rfl rfl (Heap.sameBut_free _ _), ?_⟩
      intro block isMem
      cases ends <;> cases isMem
  | ended => cases stepped

/-- What a step reads is the first chunk of the input, unless processes change what is left. -/
theorem chunks_step {quiet : Cmd → Prop} {state next : Session × Phase} {answers : Answers}
    (always : ∀ cmd, quiet cmd) (possible : answers.Possible quiet state)
    (stepped : loopStep answers state = some next) :
    chunks newline (bufSize - 1) state.1.stdin =
      fgetsRead state ++ chunks newline (bufSize - 1) next.1.stdin := by
  rcases state with ⟨session, phase⟩
  cases phase with
  | prompt =>
      simp only [loopStep, Option.bind_eq_bind, Option.bind_eq_some_iff] at stepped
      rcases stepped with ⟨⟨after, buffer⟩, done, stepped⟩
      have left : next.1.stdin = (cut newline (bufSize - 1) session.stdin).2 := by
        have isNext : next.1 = after := by cases buffer <;> cases stepped <;> rfl
        rw [isNext, readLine_stdin done]
      rw [left, fgetsRead]
      split
      next nothing =>
        rw [nothing]
        rfl
      next something => exact chunks_eq_cons (by decide) something
  | parse buffer =>
      simp only [loopStep, Option.bind_eq_bind, Option.bind_eq_some_iff] at stepped
      rcases stepped with ⟨_, _, _, _, _, _, _, _, stepped⟩
      cases stepped
      rfl
  | act buffer cmd =>
      simp only [loopStep, Option.bind_eq_bind, Option.bind_eq_some_iff] at stepped
      rcases stepped with ⟨ends, _, stepped⟩
      cases stepped
      have left : answers.left = session.stdin := possible.left buffer cmd rfl (always cmd)
      rw [left, ite_self]
      rfl
  | ended => cases stepped

/-- A run of the loop, with what `fgets` has read. -/
theorem loopInv_of_seen {quiet : Cmd → Prop} {input : List UInt8} {reads : List (List UInt8)}
    {state : Session × Phase}
    (seen : Seen (loop quiet input) (fun state _ => fgetsRead state) reads state) :
    LoopInv reads state := by
  apply seen.invariant (P := LoopInv)
  · exact fun state initial => .start initial
  · rintro reads state answers next inv ⟨_, stepped⟩
    exact inv.step stepped

theorem loopInv_of_reachable {quiet : Cmd → Prop} {input : List UInt8} {state : Session × Phase}
    (reachable : Reachable (loop quiet input) state) : ∃ reads, LoopInv reads state := by
  rcases reachable.seen fun state _ => fgetsRead state with ⟨reads, seen⟩
  exact ⟨reads, loopInv_of_seen seen⟩

/-- Where all processes are quiet, what has been read and what is left make up the input. -/
theorem chunks_of_seen {quiet : Cmd → Prop} {input : List UInt8} {reads : List (List UInt8)}
    {state : Session × Phase} (always : ∀ cmd, quiet cmd)
    (seen : Seen (loop quiet input) (fun state _ => fgetsRead state) reads state) :
    chunks newline (bufSize - 1) input = reads ++ chunks newline (bufSize - 1) state.1.stdin := by
  apply seen.invariant (P := fun reads state => chunks newline (bufSize - 1) input =
    reads ++ chunks newline (bufSize - 1) state.1.stdin)
  · intro state initial
    rw [initial.1]
    rfl
  · rintro reads state answers next whole ⟨possible, stepped⟩
    rw [whole, chunks_step always possible stepped, List.append_assoc]

/-! ## What `record` prints -/

theorem mapM_eq_some {α β : Type} {f : α → Option β} {g : α → β} {items : List α}
    (each : ∀ x ∈ items, f x = some (g x)) : items.mapM f = some (items.map g) := by
  induction items with
  | nil => rfl
  | cons x items ih =>
      rw [List.forall_mem_cons] at each
      rw [List.mapM_cons, each.1, ih each.2]
      rfl

/-- A line of `record` is one of the last lines, with its number. -/
theorem Records.printEntry (records : Records lines session) {number i k : Nat}
    (place : i = (lines.length - maxRecordNum + k) % maxRecordNum) {line : Str}
    (found : (Ring.last maxRecordNum lines)[k]? = some line) :
    printEntry session number i = some (entry number line) := by
  have inside := (List.getElem?_eq_some_iff.mp found).1
  have shown := records.shows.read inside
  rw [found, ← place, Session.recorded, Option.bind_eq_some_iff] at shown
  rcases shown with ⟨slot, here, string⟩
  simp only [Shell.printEntry, here, string, Option.bind_eq_bind, Option.bind_some]

theorem map_range_entry (lines : List Str) :
    ((List.range lines.length).map fun k => entry (k + 1) (lines.getD k [])) =
      (lines.zipIdx 1).map fun p => entry p.2 p.1 := by
  apply List.ext_getElem
  · simp
  · intro k inside _
    simp only [List.length_map, List.length_range] at inside
    simp [inside, Nat.add_comm]

/-- `record` prints the last lines of the history. -/
theorem Records.record (records : Records lines session) :
    record session = some (listing (Ring.last maxRecordNum lines)) := by
  have found (k : Nat) (inside : k < min lines.length maxRecordNum) :
      (Ring.last maxRecordNum lines)[k]? =
        some ((Ring.last maxRecordNum lines).getD k []) := by
    rw [← Ring.length_last] at inside
    rw [List.getD_eq_getElem?_getD, List.getElem?_eq_getElem inside, Option.getD_some]
  rw [listing, ← map_range_entry, Ring.length_last]
  unfold Shell.record
  rw [records.count]
  dsimp only
  split
  next few =>
    rw [Nat.min_eq_left few.le] at found ⊢
    have printed : ∀ k ∈ List.range lines.length, Shell.printEntry session (k + 1) k =
        some (entry (k + 1) ((Ring.last maxRecordNum lines).getD k [])) := by
      intro k isMem
      have inside := List.mem_range.mp isMem
      apply records.printEntry _ (found k inside)
      rw [Nat.sub_eq_zero_of_le few.le, Nat.zero_add, Nat.mod_eq_of_lt (inside.trans few)]
    exact congrArg (Option.map List.flatten) (mapM_eq_some printed)
  next many =>
    have full : maxRecordNum ≤ lines.length := Nat.le_of_not_lt many
    rw [Nat.min_eq_right full] at found ⊢
    rw [List.range'_eq_map_range, List.mapM_map]
    have printed : ∀ k ∈ List.range maxRecordNum,
        Shell.printEntry session
          (lines.length % maxRecordNum + k - lines.length % maxRecordNum + 1)
          ((lines.length % maxRecordNum + k) % maxRecordNum) =
        some (entry (k + 1) ((Ring.last maxRecordNum lines).getD k [])) := by
      intro k isMem
      rw [Nat.add_sub_cancel_left]
      apply records.printEntry _ (found k (List.mem_range.mp isMem))
      rw [Nat.mod_add_mod]
      have around : lines.length + k = lines.length - maxRecordNum + k + maxRecordNum := by
        omega
      rw [around, Nat.add_mod_right]
    exact congrArg (Option.map List.flatten) (mapM_eq_some printed)

/-- While the count has room the loop can read on. -/
theorem loop_reads_on {quiet : Cmd → Prop} {input : List UInt8} {session : Session}
    {answers : Answers} (reachable : Reachable (loop quiet input) (session, .prompt))
    (room : session.historyCount < intMax) (unused : session.heap answers.block = none)
    (size : answers.garbage.length = bufSize) :
    ∃ next, (loop quiet input).step (session, .prompt) answers next := by
  rcases loopInv_of_reachable reachable with ⟨reads, inv⟩
  have possible : answers.Possible quiet (session, .prompt) :=
    ⟨size, fun _ _ phase => by cases phase⟩
  rcases readLine_defined unused size inv.records.has room with ⟨after, buffer, done⟩
  cases buffer with
  | none => exact ⟨(after, .prompt), possible, by simp [loopStep, done]⟩
  | some buffer => exact ⟨(after, .parse buffer), possible, by simp [loopStep, done]⟩

/-- In every state of the loop `record` prints the last 16 accepted lines, from the oldest on
and numbered from 1.  The lines are what `fgets` has read, which is the front of the input when
no process changes what is left of it. -/
theorem record_prints_last {quiet : Cmd → Prop} {input : List UInt8} {reads : List (List UInt8)}
    {session : Session} {phase : Phase}
    (seen : Seen (loop quiet input) (fun state _ => fgetsRead state) reads (session, phase)) :
    record session = some (listing (Ring.last maxRecordNum (accepted reads))) ∧
      ((∀ cmd, quiet cmd) → chunks newline (bufSize - 1) input =
        reads ++ chunks newline (bufSize - 1) session.stdin) :=
  ⟨(loopInv_of_seen seen).records.record, fun always => chunks_of_seen always seen⟩

/-- Behind the line `hi` it prints ` 1: hi`. -/
theorem record_prints_last_hi : ∃ state,
    Seen (loop (fun _ => True) [104, 105, newline]) (fun state _ => fgetsRead state)
      [[104, 105, newline]] state ∧
    record state.1 = some [space, 49, 58, space, 104, 105, newline] := by
  have read : (loopStep ⟨maxRecordNum, List.replicate bufSize 0, true, none, []⟩
      (Session.start [104, 105, newline], .prompt)).isSome = true := by
    decide +kernel
  rcases Option.isSome_iff_exists.mp read with ⟨⟨session, phase⟩, stepped⟩
  have first : Seen (loop (fun _ => True) [104, 105, newline]) (fun state _ => fgetsRead state) []
      (Session.start [104, 105, newline], .prompt) :=
    .start ⟨rfl, Session.start_hasHistory _, rfl, rfl⟩
  have seen : Seen (loop (fun _ => True) [104, 105, newline]) (fun state _ => fgetsRead state)
      [[104, 105, newline]] (session, phase) :=
    first.snoc ⟨⟨List.length_replicate, fun _ _ isAct => by cases isAct⟩, stepped⟩
  refine ⟨(session, phase), seen, ?_⟩
  rw [(record_prints_last seen).1]
  decide +kernel

end NckuOs.Shell
