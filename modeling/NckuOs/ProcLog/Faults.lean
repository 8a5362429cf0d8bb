import Mathlib.Data.List.TakeWhile
import NckuOs.ProcLog.Log

/-!
# Calls that fail

A call may fault after some bytes, and a payload may hold a NUL.  All that a call does
depends on the string in the buffer, and a write that faults can make that string longer.
-/

namespace NckuOs.ProcLog

open NckuOs.ByteMemory
open NckuOs.Transition
open NckuOs.Osfs (Errno UserBuf copyFromUser copyToUser)

/-- A call of the user, with any memory behind its buffer. -/
inductive Call
  | write (current : Task) (ubuf : UserBuf) (len : Nat)
  | read (ubuf : UserBuf) (len offset : Nat)

/-- What the user gets from a call. -/
structure Reply where
  result : Except Errno Nat
  delivered : List UInt8

/-- A call of `Mywrite` or `Myread`: the reply, and the memory afterwards. -/
def serve (mem : Mem) : Call → Reply × Mem
  | .write current ubuf len =>
      let done := mywrite current mem ubuf len
      (⟨done.1, []⟩, done.2)
  | .read ubuf len offset =>
      let done := myread mem ubuf len offset
      (⟨done.result, done.delivered⟩, done.mem)

/-- Any calls from the loading of the module on. -/
def calls : System Mem Call where
  init mem := ∀ a < bufSize, mem a = 0
  step mem call mem' := (serve mem call).2 = mem'

/-- The text that the next successful read returns. -/
def nextRead (mem : Mem) : List Call → Option (List UInt8)
  | [] => none
  | .write current ubuf len :: rest => nextRead (serve mem (.write current ubuf len)).2 rest
  | .read ubuf len offset :: rest =>
      let done := serve mem (.read ubuf len offset)
      match done.1.result with
      | .ok _ => some done.1.delivered
      | .error _ => nextRead done.2 rest

/-- The next successful read does not notice the call, whatever is called before it. -/
def Unnoticed (mem : Mem) (call : Call) : Prop :=
  ∀ others, nextRead (serve mem call).2 others = nextRead mem others

/-- How many bytes a write asks `copy_from_user` for. -/
def copyLen (mem : Mem) (len : Nat) : Nat :=
  min len (bufSize - strnlen mem - 1)

/-- A write asks for nothing, or cannot read the first byte, or finds a NUL there. -/
def LeavesNothing (mem : Mem) : Call → Prop
  | .write _ ubuf len => copyLen mem len = 0 ∨ ubuf.reach 0 = 0 ∨ ubuf.byte 0 = 0
  | .read .. => True

/-! ## The calls on the text -/

/-- What becomes of a text when bytes and a NUL are stored behind it. -/
def extend (text piece : List UInt8) : List UInt8 :=
  text ++ piece.takeWhile fun c => c ≠ 0

/-- A call, as a matter of the string in the buffer. -/
def serveText (text : List UInt8) : Call → Reply × List UInt8
  | .write current ubuf len =>
      let copied := min len (bufSize - text.length - 1)
      if copied = 0 then (⟨.error .ENOSPC, []⟩, text)
      else if ubuf.copied 0 copied < copied then
        (⟨.error .EFAULT, []⟩, extend text (payload ubuf (ubuf.copied 0 copied)))
      else
        (⟨.ok copied, []⟩, extend text (payload ubuf copied ++
          current.tag.take (bufSize - (text.length + copied) - 1)))
  | .read ubuf len offset =>
      if offset > 0 then (⟨.ok 0, []⟩, text)
      else if len < text.length then (⟨.error .EINVAL, []⟩, text)
      else if ubuf.copied 0 text.length < text.length then
        (⟨.error .EFAULT, text.take (ubuf.copied 0 text.length)⟩, text)
      else (⟨.ok text.length, text⟩, [])

variable {mem mem' : Mem} {call : Call}

theorem takeWhile_getD {piece : List UInt8} {i : Nat}
    (below : i < (piece.takeWhile fun c => c ≠ 0).length) :
    piece.getD i 0 = (piece.takeWhile fun c => c ≠ 0).getD i 0 := by
  conv_lhs => rw [← List.takeWhile_append_dropWhile (p := fun c => c ≠ 0) (l := piece)]
  exact List.getD_append _ _ _ _ below

/-- Behind what is in front of the first NUL there is a NUL, or nothing. -/
theorem getD_takeWhile_length (piece : List UInt8) :
    piece.getD (piece.takeWhile fun c => c ≠ 0).length 0 = 0 := by
  induction piece with
  | nil => rfl
  | cons c rest ih =>
      by_cases nul : c = 0
      · simp [nul]
      · have passes : decide (c ≠ 0) = true := decide_eq_true nul
        rw [List.takeWhile_cons, if_pos passes, List.length_cons, List.getD_cons_succ]
        exact ih

/-- Bytes behind the string with a NUL after them make it longer, up to the first NUL. -/
theorem cstr_extend (short : strnlen mem < bufSize) {piece : List UInt8}
    (fits : strnlen mem + piece.length < bufSize) (same : ∀ a < strnlen mem, mem' a = mem a)
    (bytes : ∀ i < piece.length, mem' (strnlen mem + i) = piece.getD i 0)
    (nul : mem' (strnlen mem + piece.length) = 0) :
    cstr mem' 0 bufSize = extend (cstr mem 0 bufSize) piece := by
  let front := piece.takeWhile fun c => c ≠ 0
  have noNul : 0 ∉ front := by
    intro isMem
    have passes := List.mem_takeWhile_imp isMem
    simp at passes
  have frontLe : front.length ≤ piece.length := (List.takeWhile_prefix _).length_le
  have size : (cstr mem 0 bufSize).length = strnlen mem := rfl
  have holds : Holds mem (cstr mem 0 bufSize) := by
    rw [Holds, List.take_of_length_le]
    rw [size]
    exact Nat.le_sub_one_of_lt short
  have all : min front.length (room (cstr mem 0 bufSize)) = front.length := by
    rw [room, size]
    omega
  have longer : Holds mem' (cstr mem 0 bufSize ++ front) := by
    apply holds.append noNul same
    · intro i below
      rw [all] at below
      rw [bytes i (below.trans_le frontLe)]
      exact takeWhile_getD below
    · rw [all]
      rcases Nat.lt_or_eq_of_le frontLe with nulInside | whole
      · rw [bytes _ nulInside]
        exact getD_takeWhile_length piece
      · rw [whole]
        exact nul
  rw [Holds, List.take_of_length_le] at longer
  · exact longer
  · rw [List.length_append, size]
    omega

theorem length_payload (ubuf : UserBuf) (len : Nat) : (payload ubuf len).length = len := by
  rw [payload, List.length_map, List.length_range]

/-- The string afterwards still ends inside the buffer. -/
theorem strnlen_extend {piece : List UInt8} (fits : strnlen mem + piece.length < bufSize)
    (text : cstr mem' 0 bufSize = extend (cstr mem 0 bufSize) piece) :
    strnlen mem' < bufSize := by
  have front : (piece.takeWhile fun c => c ≠ 0).length ≤ piece.length :=
    (List.takeWhile_prefix _).length_le
  have size : (cstr mem 0 bufSize).length = strnlen mem := rfl
  rw [strnlen, text, extend, List.length_append, size]
  omega

/-- A write that faults leaves what it has copied. -/
theorem cstr_copyFromUser (short : strnlen mem < bufSize) {ubuf : UserBuf} {n : Nat}
    (fits : strnlen mem + n < bufSize) (faults : ubuf.copied 0 n < n) :
    cstr (copyFromUser mem (strnlen mem) ubuf 0 n).2 0 bufSize =
      extend (cstr mem 0 bufSize) (payload ubuf (ubuf.copied 0 n)) := by
  apply cstr_extend short
  · rw [length_payload]
    omega
  · intro a below
    dsimp only [copyFromUser]
    exact store_of_not_mem (.inl below)
  · intro i below
    rw [length_payload] at below
    dsimp only [copyFromUser]
    rw [store_of_mem (by omega) (by omega), Nat.add_sub_cancel_left, if_pos below, Nat.zero_add,
      payload_getD below]
  · rw [length_payload]
    dsimp only [copyFromUser]
    rw [store_of_mem (by omega) (by omega), Nat.add_sub_cancel_left, if_neg (Nat.lt_irrefl _)]

/-- A write that succeeds leaves its payload and its tag, as far as there is room. -/
theorem cstr_scnprintf (short : strnlen mem < bufSize) {ubuf : UserBuf} {n : Nat}
    (fits : strnlen mem + n < bufSize) (whole : ubuf.copied 0 n = n) (current : Task) :
    cstr (scnprintf (store (copyFromUser mem (strnlen mem) ubuf 0 n).2 (strnlen mem + n) 1
      fun _ => 0) (strnlen mem + n) (bufSize - (strnlen mem + n)) current.tag).2 0 bufSize =
      extend (cstr mem 0 bufSize) (payload ubuf n ++
        current.tag.take (bufSize - (strnlen mem + n) - 1)) := by
  have size : ¬bufSize - (strnlen mem + n) = 0 := by omega
  have length : (current.tag.take (bufSize - (strnlen mem + n) - 1)).length =
      min current.tag.length (bufSize - (strnlen mem + n) - 1) := by
    rw [List.length_take, Nat.min_comm]
  rw [scnprintf, if_neg size]
  dsimp only
  apply cstr_extend short
  · rw [List.length_append, length_payload, length]
    omega
  · intro a below
    rw [store_of_not_mem (by omega), store_of_not_mem (by omega)]
    dsimp only [copyFromUser]
    exact store_of_not_mem (.inl below)
  · intro i below
    rw [List.length_append, length_payload, length] at below
    by_cases inPayload : i < n
    · rw [store_of_not_mem (by omega), store_of_not_mem (by omega)]
      dsimp only [copyFromUser]
      rw [store_of_mem (by omega) (by omega), Nat.add_sub_cancel_left, whole, if_pos inPayload,
        Nat.zero_add, List.getD_append _ _ _ _ (by rw [length_payload]; exact inPayload),
        payload_getD inPayload]
    · have inTag : strnlen mem + i - (strnlen mem + n) = i - n := by omega
      have inside : i - n < bufSize - (strnlen mem + n) - 1 := by omega
      rw [store_of_mem (by omega) (by omega), inTag, if_pos (by omega),
        List.getD_append_right _ _ _ _ (by rw [length_payload]; omega), length_payload,
        List.getD_eq_getElem?_getD, List.getD_eq_getElem?_getD, List.getElem?_take_of_lt inside]
  · rw [List.length_append, length_payload, length, store_of_mem (by omega) (by omega),
      if_neg (by omega)]

/-- A call does to the string what it does to the text, and leaves a string. -/
def DoesToText (mem : Mem) (call : Call) : Prop :=
  (serve mem call).1 = (serveText (cstr mem 0 bufSize) call).1 ∧
    cstr (serve mem call).2 0 bufSize = (serveText (cstr mem 0 bufSize) call).2 ∧
      strnlen (serve mem call).2 < bufSize

theorem serve_write (short : strnlen mem < bufSize) (current : Task) (ubuf : UserBuf)
    (len : Nat) : DoesToText mem (.write current ubuf len) := by
  have size : (cstr mem 0 bufSize).length = strnlen mem := rfl
  have notFull : ¬strnlen mem ≥ bufSize := Nat.not_le_of_lt short
  simp only [DoesToText, serve, serveText, mywrite, if_neg notFull, size]
  split
  next => exact ⟨rfl, rfl, short⟩
  next some =>
    have fits : strnlen mem + min len (bufSize - strnlen mem - 1) < bufSize := by omega
    have within := ubuf.copied_le 0 (min len (bufSize - strnlen mem - 1))
    by_cases faults : ubuf.copied 0 (min len (bufSize - strnlen mem - 1)) <
        min len (bufSize - strnlen mem - 1)
    · have missing : (copyFromUser mem (strnlen mem) ubuf 0
          (min len (bufSize - strnlen mem - 1))).1 ≠ 0 := by
        dsimp only [copyFromUser]
        omega
      have text := cstr_copyFromUser short fits faults
      rw [if_pos missing, if_pos faults]
      refine ⟨rfl, text, strnlen_extend ?_ text⟩
      rw [length_payload]
      omega
    · have done : ¬(copyFromUser mem (strnlen mem) ubuf 0
          (min len (bufSize - strnlen mem - 1))).1 ≠ 0 := by
        dsimp only [copyFromUser]
        omega
      have whole := Nat.le_antisymm within (Nat.le_of_not_lt faults)
      have text := cstr_scnprintf short fits whole current
      rw [if_neg done, if_neg faults]
      refine ⟨rfl, text, strnlen_extend ?_ text⟩
      rw [List.length_append, length_payload, List.length_take]
      omega

theorem serve_read (short : strnlen mem < bufSize) (ubuf : UserBuf) (len offset : Nat) :
    DoesToText mem (.read ubuf len offset) := by
  have size : (cstr mem 0 bufSize).length = strnlen mem := rfl
  simp only [DoesToText, serve, serveText, myread, size]
  split
  next => exact ⟨rfl, rfl, short⟩
  split
  next => exact ⟨rfl, rfl, short⟩
  have within := ubuf.copied_le 0 (strnlen mem)
  have bytes : (copyToUser mem 0 ubuf 0 (strnlen mem)).2 =
      (cstr mem 0 bufSize).take (ubuf.copied 0 (strnlen mem)) := by
    rw [cstr_eq_map short, ← List.map_take, List.take_range, Nat.min_eq_left within]
    rfl
  by_cases faults : ubuf.copied 0 (strnlen mem) < strnlen mem
  · have missing : (copyToUser mem 0 ubuf 0 (strnlen mem)).1 ≠ 0 := by
      dsimp only [copyToUser]
      omega
    rw [if_pos missing, if_pos faults, bytes]
    exact ⟨rfl, rfl, short⟩
  · have done : ¬(copyToUser mem 0 ubuf 0 (strnlen mem)).1 ≠ 0 := by
      dsimp only [copyToUser]
      omega
    have whole := Nat.le_antisymm within (Nat.le_of_not_lt faults)
    have cleared : cstr (store mem 0 bufSize fun _ => 0) 0 bufSize = [] :=
      holds_nil fun a below => store_of_mem (Nat.zero_le a) (by omega)
    rw [if_neg done, if_neg faults, bytes, whole, List.take_of_length_le size.le]
    refine ⟨rfl, cleared, ?_⟩
    rw [strnlen, cleared]
    decide

theorem serve_text (short : strnlen mem < bufSize) (call : Call) : DoesToText mem call := by
  cases call with
  | write current ubuf len => exact serve_write short current ubuf len
  | read ubuf len offset => exact serve_read short ubuf len offset

/-! ## Failing calls -/

/-- The next read depends on the string only. -/
theorem nextRead_congr (short : strnlen mem < bufSize) (short' : strnlen mem' < bufSize)
    (same : cstr mem' 0 bufSize = cstr mem 0 bufSize) (others : List Call) :
    nextRead mem' others = nextRead mem others := by
  induction others generalizing mem mem' with
  | nil => rfl
  | cons call rest ih =>
      rcases serve_text short call with ⟨reply, text, stays⟩
      rcases serve_text short' call with ⟨reply', text', stays'⟩
      rw [same] at reply' text'
      have sameReply : (serve mem' call).1 = (serve mem call).1 := reply'.trans reply.symm
      have sameRest := ih stays stays' (text'.trans text.symm)
      cases call with
      | write current ubuf len => exact sameRest
      | read ubuf len offset => simp only [nextRead, sameReply, sameRest]

/-- There is always a NUL in the buffer. -/
theorem short_of_reachable (reachable : Reachable calls mem) : strnlen mem < bufSize := by
  apply reachable.invariant (P := fun mem => strnlen mem < bufSize)
  · intro mem zero
    have empty : cstr mem 0 bufSize = [] := holds_nil zero
    rw [strnlen, empty]
    decide
  · rintro mem call _ short rfl
    exact (serve_text short call).2.2

/-- A read with a buffer that is large enough returns the string. -/
theorem nextRead_large (short : strnlen mem < bufSize) :
    nextRead mem [.read ⟨fun _ => 0, fun _ => bufSize⟩ bufSize 0] =
      some (cstr mem 0 bufSize) := by
  have valid : UserBuf.Valid ⟨fun _ => 0, fun _ => bufSize⟩ bufSize := by
    intro off n within
    exact Nat.le_of_add_left_le within
  simp only [nextRead, serve, myread_large short valid short.le]

/-- The next successful read notices nothing exactly when the string is the same. -/
theorem unnoticed_iff (short : strnlen mem < bufSize) (call : Call) :
    Unnoticed mem call ↔ (serveText (cstr mem 0 bufSize) call).2 = cstr mem 0 bufSize := by
  rcases serve_text short call with ⟨_, text, stays⟩
  rw [← text]
  constructor
  · intro unnoticed
    have shown := unnoticed [.read ⟨fun _ => 0, fun _ => bufSize⟩ bufSize 0]
    rw [nextRead_large short, nextRead_large stays] at shown
    exact Option.some.inj shown
  · intro same others
    exact nextRead_congr short stays same others

/-- A payload leaves the text as it is when it is empty or begins with a NUL. -/
theorem extend_payload_iff (text : List UInt8) (ubuf : UserBuf) (len : Nat) :
    extend text (payload ubuf len) = text ↔ len = 0 ∨ ubuf.byte 0 = 0 := by
  rw [extend, List.append_right_eq_self]
  cases len with
  | zero => exact iff_of_true rfl (.inl rfl)
  | succ len => simp [payload, List.range_succ_eq_map]

/-- A failing call goes unnoticed exactly when it is no write that has copied something
before its fault. -/
theorem failure_unnoticed_iff (reachable : Reachable calls mem) {call : Call} {error : Errno}
    (fails : (serve mem call).1.result = .error error) :
    Unnoticed mem call ↔ LeavesNothing mem call := by
  have short := short_of_reachable reachable
  rw [unnoticed_iff short]
  rw [(serve_text short call).1] at fails
  have size : (cstr mem 0 bufSize).length = strnlen mem := rfl
  cases call with
  | write current ubuf len =>
      simp only [serveText, size, LeavesNothing, copyLen] at fails ⊢
      split
      next none => exact iff_of_true rfl (.inl none)
      next some =>
        rw [if_neg some] at fails
        split
        next faults =>
          rw [extend_payload_iff, UserBuf.copied, Nat.min_eq_zero_iff, or_assoc]
        next whole =>
          rw [if_neg whole] at fails
          cases fails
  | read ubuf len offset =>
      simp only [serveText, size, LeavesNothing] at fails ⊢
      refine iff_of_true ?_ trivial
      split
      next => rfl
      next first =>
        rw [if_neg first] at fails
        split
        next => rfl
        next large =>
          rw [if_neg large] at fails
          split
          next => rfl
          next whole =>
            rw [if_neg whole] at fails
            cases fails

/-- User memory of the letter `A` that ends behind its first byte. -/
def oneByte : UserBuf where
  byte _ := 65
  reach off := 1 - off

theorem start_reachable : Reachable calls fun _ => 0 :=
  .start fun _ _ => rfl

/-- A read into a buffer without room fails, and the next one returns the same text. -/
theorem failure_unnoticed_iff_read :
    Unnoticed (serve (fun _ => 0) (.write ⟨7, 8, 0⟩ oneByte 1)).2 (.read oneByte 0 0) ↔
      LeavesNothing (serve (fun _ => 0) (.write ⟨7, 8, 0⟩ oneByte 1)).2 (.read oneByte 0 0) := by
  have reachable : Reachable calls (serve (fun _ => 0) (.write ⟨7, 8, 0⟩ oneByte 1)).2 :=
    start_reachable.snoc rfl
  have fails : (serve (serve (fun _ => 0) (.write ⟨7, 8, 0⟩ oneByte 1)).2
      (.read oneByte 0 0)).1.result = .error .EINVAL := by
    decide +kernel
  exact failure_unnoticed_iff reachable fails

/-- A write of two bytes that faults at the second leaves an `A` in the log. -/
theorem fault_is_noticed :
    (serve (fun _ => 0) (.write ⟨7, 8, 0⟩ oneByte 2)).1.result = .error .EFAULT ∧
      ¬Unnoticed (fun _ => 0) (.write ⟨7, 8, 0⟩ oneByte 2) := by
  constructor
  · decide +kernel
  · intro unnoticed
    have same := (unnoticed_iff (short_of_reachable start_reachable) _).mp unnoticed
    have empty : cstr (fun _ => 0) 0 bufSize = [] := holds_nil fun _ _ => rfl
    rw [empty] at same
    exact absurd same (by decide)

end NckuOs.ProcLog
