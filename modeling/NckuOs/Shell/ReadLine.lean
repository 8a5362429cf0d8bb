import NckuOs.Lib.Blocks
import NckuOs.Lib.Lines
import NckuOs.Shell.Command

/-!
# `read_line`

A line is read into a new buffer.  When it does not begin with a blank it is copied to the
next place of the history, before anything cuts it into tokens.
-/

namespace NckuOs.Shell

open NckuOs.Blocks NckuOs.Chunks NckuOs.Lines
open NckuOs.Blocks.Heap (SameBut)

/-- The character `\n`. -/
def newline : UInt8 := 10

/-- The character `\t`. -/
def tab : UInt8 := 9

/-- `BUF_SIZE`. -/
def bufSize : Nat := 1024

/-- `MAX_RECORD_NUM`. -/
def maxRecordNum : Nat := 16

/-- `INT_MAX`. -/
def intMax : Nat := 2147483647

/-- The input of the shell that is left, its memory, and the history: the blocks that the
array points to, and `history_count`. -/
structure Session where
  stdin : List UInt8
  heap : Heap
  history : List Nat
  historyCount : Nat

/-- The characters in front of the first newline or NUL. -/
def lineText (bytes : List UInt8) : Str :=
  bytes.takeWhile fun c => c ≠ newline ∧ c ≠ 0

/-- A line that `read_line` throws away. -/
def Blank (read : List UInt8) : Prop :=
  ∃ c ∈ [newline, space, tab], read.head? = some c

instance (read : List UInt8) : Decidable (Blank read) :=
  inferInstanceAs (Decidable (∃ c ∈ [newline, space, tab], _))

/-- The second branch of `read_line`: end the line at its newline, and copy it.  The count
is an `int`, which must not overflow. -/
def keepLine (block : Nat) (session : Session) : Option Session := do
  let bytes ← session.heap block
  let heap ← session.heap.poke block (lineText bytes).length 0
  let line ← heap.string block
  let slot ← session.history[session.historyCount % maxRecordNum]?
  let heap ← heap.store slot (strncpy line bufSize)
  if session.historyCount < intMax then
    some { session with heap := heap, historyCount := session.historyCount + 1 }
  else none

/-- `read_line`, with the block that `malloc` gives and the bytes in it.  At the end of the
input `fgets` leaves the block as it is. -/
def readLine (block : Nat) (garbage : List UInt8) (session : Session) :
    Option (Session × Option Nat) := do
  let heap ← session.heap.malloc block garbage
  let read := (cut newline (bufSize - 1) session.stdin).1
  let rest := (cut newline (bufSize - 1) session.stdin).2
  if read = [] then some ({ session with heap := heap }, some block)
  else do
    let heap ← heap.store block (read ++ [0])
    if Blank read then some ({ session with stdin := rest, heap := heap.free block }, none)
    else do
      let session ← keepLine block { session with stdin := rest, heap := heap }
      some (session, some block)

/-! ## The line in the buffer -/

theorem lineText_append_nul (read rest : List UInt8) :
    lineText (read ++ 0 :: rest) = lineText read := by
  induction read with
  | nil => rfl
  | cons c read ih =>
      unfold lineText at ih ⊢
      rw [List.cons_append, List.takeWhile_cons, List.takeWhile_cons, ih]

theorem nul_notMem_lineText (bytes : List UInt8) : 0 ∉ lineText bytes := by
  intro isMem
  have passes := List.mem_takeWhile_imp isMem
  rw [decide_eq_true_eq] at passes
  exact passes.2 rfl

theorem length_lineText_le (bytes : List UInt8) : (lineText bytes).length ≤ bytes.length :=
  (List.takeWhile_prefix _).length_le

theorem lineText_ends (read rest : List UInt8) :
    (lineText (read ++ 0 :: rest)).length < (read ++ 0 :: rest).length := by
  rw [lineText_append_nul, List.length_append, List.length_cons]
  exact Nat.lt_of_le_of_lt (length_lineText_le read) (Nat.lt_add_of_pos_right (Nat.succ_pos _))

/-- The NUL goes behind the text of the line. -/
theorem set_lineText {bytes : List UInt8} (ends : (lineText bytes).length < bytes.length) :
    bytes.set (lineText bytes).length 0 =
      lineText bytes ++ 0 :: bytes.drop ((lineText bytes).length + 1) := by
  have front : bytes.take (lineText bytes).length = lineText bytes :=
    (List.prefix_iff_eq_take.mp (List.takeWhile_prefix _)).symm
  rw [List.set_eq_take_append_cons_drop, if_pos ends, front]

/-- The buffer holds the text of the line when its newline has become a NUL. -/
theorem string_of_ended {heap ended : Heap} {block : Nat} {read old : List UInt8}
    (content : heap block = some (read ++ 0 :: old))
    (poked : heap.poke block (lineText (read ++ 0 :: old)).length 0 = some ended) :
    SameBut block heap ended ∧ ended.string block = some (lineText read) := by
  rcases Heap.poke_cases poked with ⟨before, same, _, changed, others⟩
  rw [content, Option.some.injEq] at same
  subst same
  rw [set_lineText (lineText_ends read old), lineText_append_nul] at changed
  exact ⟨others, Heap.string_of_nul changed (nul_notMem_lineText read)⟩

/-- What an accepted line leaves: its text in the buffer, and a copy of it in the history. -/
theorem keepLine_cases {block : Nat} {session next : Session} {read old : List UInt8}
    (content : session.heap block = some (read ++ 0 :: old))
    (done : keepLine block session = some next) :
    ∃ slot heap, session.history[session.historyCount % maxRecordNum]? = some slot ∧
      SameBut block session.heap heap ∧ heap.string block = some (lineText read) ∧
      heap.store slot (strncpy (lineText read) bufSize) = some next.heap ∧
      session.historyCount < intMax ∧
      next = { session with heap := next.heap, historyCount := session.historyCount + 1 } := by
  simp only [keepLine, Option.bind_eq_bind, Option.bind_eq_some_iff] at done
  rcases done with ⟨bytes, here, heap, poked, line, found, slot, place, copied, stored, done⟩
  rw [content, Option.some.injEq] at here
  subst here
  obtain ⟨others, string⟩ := string_of_ended content poked
  rw [string, Option.some.injEq] at found
  subst found
  split at done
  next inRange =>
    cases done
    exact ⟨slot, heap, place, others, string, stored, inRange, rfl⟩
  next => cases done

/-- What `read_line` does: at the end of the input the buffer comes back as it was, a blank
line is freed, and any other is kept. -/
theorem readLine_cases {block : Nat} {garbage : List UInt8} {session next : Session}
    {buffer : Option Nat} (done : readLine block garbage session = some (next, buffer)) :
    session.heap block = none ∧
      ((session.stdin = [] ∧ SameBut block session.heap next.heap ∧
          next = { session with heap := next.heap } ∧ next.heap block = some garbage ∧
          buffer = some block) ∨
        ∃ read rest, cut newline (bufSize - 1) session.stdin = (read, rest) ∧ read ≠ [] ∧
          ((Blank read ∧ SameBut block session.heap next.heap ∧ next.heap block = none ∧
              next = { session with stdin := rest, heap := next.heap } ∧ buffer = none) ∨
            (¬Blank read ∧ buffer = some block ∧ ∃ heap, SameBut block session.heap heap ∧
              (∃ old, heap block = some (read ++ 0 :: old)) ∧
              keepLine block { session with stdin := rest, heap := heap } = some next))) := by
  simp only [readLine, Option.bind_eq_bind, Option.bind_eq_some_iff] at done
  rcases done with ⟨heap, allocated, done⟩
  rcases Heap.malloc_cases allocated with ⟨unused, content, others⟩
  refine ⟨unused, ?_⟩
  split at done
  next nothing =>
    cases done
    exact .inl ⟨eq_nil_of_cut (by decide) nothing, others, rfl, content, rfl⟩
  next something =>
    rw [Option.bind_eq_some_iff] at done
    rcases done with ⟨filled, stored, done⟩
    rcases Heap.store_cases stored with ⟨old, _, _, changed, others'⟩
    refine .inr ⟨_, _, rfl, something, ?_⟩
    split at done
    next blank =>
      cases done
      refine .inl ⟨blank, ?_, Heap.free_self filled block, rfl, rfl⟩
      exact (others.trans others').trans (Heap.sameBut_free filled block)
    next notBlank =>
      rw [Option.bind_eq_some_iff] at done
      rcases done with ⟨kept, keeps, done⟩
      cases done
      refine .inr ⟨notBlank, rfl, filled, others.trans others', ?_, keeps⟩
      rw [List.append_assoc] at changed
      exact ⟨_, changed⟩

/-! ## `read_line` has a result -/

/-- The places of the history, as `main` allocates them. -/
structure Session.HasHistory (session : Session) : Prop where
  places : session.history.length = maxRecordNum
  distinct : session.history.Nodup
  allocated : ∀ slot ∈ session.history, ∃ bytes, session.heap slot = some bytes ∧
    bytes.length = bufSize

theorem Session.HasHistory.place {session : Session} (has : session.HasHistory) :
    ∃ slot, session.history[session.historyCount % maxRecordNum]? = some slot ∧
      slot ∈ session.history := by
  have inside : session.historyCount % maxRecordNum < session.history.length := by
    rw [has.places]
    exact Nat.mod_lt _ (by decide)
  exact ⟨_, List.getElem?_eq_getElem inside, List.getElem_mem inside⟩

theorem Session.HasHistory.notMem {session : Session} (has : session.HasHistory) {block : Nat}
    (unused : session.heap block = none) : block ∉ session.history := by
  intro isMem
  rcases has.allocated block isMem with ⟨bytes, inUse, _⟩
  rw [unused] at inUse
  cases inUse

/-- A change of another block leaves the history alone. -/
theorem Session.HasHistory.sameBut {session next : Session} (has : session.HasHistory)
    {block : Nat} (apart : block ∉ session.history) (history : next.history = session.history)
    (others : SameBut block session.heap next.heap) : next.HasHistory where
  places := history ▸ has.places
  distinct := history ▸ has.distinct
  allocated := by
    intro slot isMem
    rw [history] at isMem
    have ne : slot ≠ block := fun same => apart (same ▸ isMem)
    rw [others slot ne]
    exact has.allocated slot isMem

theorem keepLine_defined {block : Nat} {session : Session} {read old : List UInt8}
    (content : session.heap block = some (read ++ 0 :: old)) (fits : read.length < bufSize)
    (has : session.HasHistory) (apart : block ∉ session.history)
    (inRange : session.historyCount < intMax) : ∃ next, keepLine block session = some next := by
  rcases Heap.poke_defined content (lineText_ends read old) 0 with ⟨heap, poked⟩
  obtain ⟨others, string⟩ := string_of_ended content poked
  rcases has.place with ⟨slot, place, isMem⟩
  rcases has.allocated slot isMem with ⟨bytes, atSlot, size⟩
  have ne : slot ≠ block := fun same => apart (same ▸ isMem)
  have short : (lineText read).length ≤ bufSize := (length_lineText_le read).trans fits.le
  have room : (strncpy (lineText read) bufSize).length ≤ bytes.length := by
    rw [length_strncpy short, size]
  rcases Heap.store_defined ((others slot ne).trans atSlot) room with ⟨copied, stored⟩
  simp only [keepLine, content, poked, string, place, stored, Option.bind_eq_bind,
    Option.bind_some, if_pos inRange]
  exact ⟨_, rfl⟩

/-- With an `int` left to count a line that is kept, any unused block will do. -/
theorem readLine_defined_of {block : Nat} {garbage : List UInt8} {session : Session}
    (unused : session.heap block = none) (size : garbage.length = bufSize)
    (has : session.HasHistory) (inRange : ¬Blank (cut newline (bufSize - 1) session.stdin).1 →
      session.historyCount < intMax) :
    ∃ next buffer, readLine block garbage session = some (next, buffer) := by
  have apart := has.notMem unused
  rcases Heap.malloc_defined unused garbage with ⟨heap, allocated⟩
  rcases Heap.malloc_cases allocated with ⟨_, content, others⟩
  simp only [readLine, allocated, Option.bind_eq_bind, Option.bind_some]
  split
  next => exact ⟨_, _, rfl⟩
  next something =>
    have short := length_cut_le newline (bufSize - 1) session.stdin
    have fits : (cut newline (bufSize - 1) session.stdin).1.length < bufSize :=
      Nat.lt_of_le_of_lt short (by decide)
    have room : ((cut newline (bufSize - 1) session.stdin).1 ++ [0]).length ≤ garbage.length := by
      rw [List.length_append, List.length_singleton, size]
      exact fits
    rcases Heap.store_defined content room with ⟨filled, stored⟩
    rcases Heap.store_cases stored with ⟨old, _, _, changed, others'⟩
    rw [stored, Option.bind_some]
    split
    next => exact ⟨_, _, rfl⟩
    next notBlank =>
      let start : Session :=
        { session with stdin := (cut newline (bufSize - 1) session.stdin).2, heap := filled }
      have startHas : start.HasHistory := has.sameBut apart rfl (others.trans others')
      rw [List.append_assoc] at changed
      have startContent : start.heap block = some ((cut newline (bufSize - 1) session.stdin).1 ++
        0 :: old.drop ((cut newline (bufSize - 1) session.stdin).1 ++ [0]).length) := changed
      rcases keepLine_defined startContent fits startHas apart (inRange notBlank)
        with ⟨next, kept⟩
      rw [kept]
      exact ⟨_, _, rfl⟩

theorem readLine_defined {block : Nat} {garbage : List UInt8} {session : Session}
    (unused : session.heap block = none) (size : garbage.length = bufSize)
    (has : session.HasHistory) (inRange : session.historyCount < intMax) :
    ∃ next buffer, readLine block garbage session = some (next, buffer) :=
  readLine_defined_of unused size has fun _ => inRange

/-! ## The lines that come back -/

/-- A line that `read_line` has read. -/
def Returned (line : Str) : Prop :=
  ∃ block garbage session next, session.stdin ≠ [] ∧
    readLine block garbage session = some (next, some block) ∧ next.heap.string block = some line

/-- The session of a shell that has just started, for an input. -/
def Session.start (input : List UInt8) : Session where
  stdin := input
  heap block := if block < maxRecordNum then some (List.replicate bufSize 0) else none
  history := List.range maxRecordNum
  historyCount := 0

theorem Session.start_hasHistory (input : List UInt8) : (Session.start input).HasHistory where
  places := List.length_range
  distinct := List.nodup_range
  allocated := by
    intro slot isMem
    exact ⟨List.replicate bufSize 0, if_pos (List.mem_range.mp isMem), List.length_replicate⟩

theorem lineText_append_newline {line : Str} (noNewline : newline ∉ line) (noNul : 0 ∉ line) :
    lineText (line ++ [newline]) = line := by
  have front : ∀ c ∈ line, decide (c ≠ newline ∧ c ≠ 0) = true := by
    intro c isMem
    rw [decide_eq_true_eq]
    constructor
    · rintro rfl
      exact noNewline isMem
    · rintro rfl
      exact noNul isMem
  rw [lineText, List.takeWhile_append_of_pos front, List.takeWhile_cons_of_neg (by simp),
    List.append_nil]

/-- Any text that fits and does not begin with a blank is such a line. -/
theorem returned_of_text {line : Str} (nonempty : line ≠ []) (notBlank : ¬Blank line)
    (noNewline : newline ∉ line) (noNul : 0 ∉ line) (fits : line.length < bufSize - 1) :
    Returned line := by
  let session := Session.start (line ++ [newline])
  have has : session.HasHistory := Session.start_hasHistory _
  have unused : session.heap maxRecordNum = none := by
    dsimp only [session, Session.start]
    exact if_neg (Nat.lt_irrefl _)
  have inRange : session.historyCount < intMax := Nat.succ_pos _
  have size : (List.replicate bufSize (0 : UInt8)).length = bufSize := List.length_replicate
  rcases readLine_defined unused size has inRange with ⟨next, buffer, done⟩
  have stdin : session.stdin ≠ [] := List.append_ne_nil_of_left_ne_nil nonempty _
  have cutLine : cut newline (bufSize - 1) session.stdin = (line ++ [newline], []) :=
    @cut_of_lt _ _ newline _ ⟨line, true⟩ noNewline fits
  rcases (readLine_cases done).2 with ⟨nothing, _⟩ | ⟨read, rest, isCut, _, kept⟩
  · exact absurd nothing stdin
  rw [cutLine, Prod.mk.injEq] at isCut
  rcases isCut with ⟨rfl, rfl⟩
  have sameHead : (line ++ [newline]).head? = line.head? := by
    cases line with
    | nil => exact absurd rfl nonempty
    | cons c line => rfl
  rcases kept with ⟨blank, _⟩ | ⟨_, rfl, heap, others, ⟨old, content⟩, kept⟩
  · rw [Blank, sameHead] at blank
    exact absurd blank notBlank
  rcases keepLine_cases content kept with ⟨slot, ended, place, _, string, stored, _, _⟩
  rcases Heap.store_cases stored with ⟨_, _, _, _, apart⟩
  have ne : maxRecordNum ≠ slot := by
    rintro rfl
    exact has.notMem unused (List.mem_of_getElem? place)
  refine ⟨maxRecordNum, _, session, next, stdin, done, ?_⟩
  rw [Heap.string_congr (apart maxRecordNum ne), string,
    lineText_append_newline noNewline noNul]

end NckuOs.Shell
