import Mathlib.Data.List.GetD
import NckuOs.ProcLog.MyKernel

/-!
# `3_1/My_Kernel.c`: the threads of a group

`Myread` prints one line for every other thread of the group into `buf`, each behind the
last, and hands the text to the user.  It looks neither at the size of `buf` nor at the
size of the user's buffer.
-/

namespace NckuOs.ProcLog.ThreadInfo

open NckuOs.ByteMemory
open NckuOs.Decimal
open NckuOs.Osfs (UserBuf copyToUser u32)

/-- The fields of a `task_struct` that are printed. -/
structure Thread where
  pid : BitVec 32
  prio : BitVec 32
  state : BitVec 32

/-- `"PID: %d, TID: %d, Priority: %d, State: %d\n"`. -/
def line (current thread : Thread) : List UInt8 :=
  ascii ['P', 'I', 'D', ':', ' '] ++ intDigits current.pid.toInt ++
    ascii [',', ' ', 'T', 'I', 'D', ':', ' '] ++ intDigits thread.pid.toInt ++
    ascii [',', ' ', 'P', 'r', 'i', 'o', 'r', 'i', 't', 'y', ':', ' '] ++
    intDigits thread.prio.toInt ++
    ascii [',', ' ', 'S', 't', 'a', 't', 'e', ':', ' '] ++ intDigits thread.state.toInt ++
    ascii ['\n']

/-- `sprintf(p, …)` with the text that the format gives: the number of characters stored
before the NUL, and the memory afterwards. -/
def sprintf (mem : Mem) (p : Nat) (text : List UInt8) : Nat × Mem :=
  (text.length, store mem p (text.length + 1) fun i => text.getD i 0)

/-- The body of the loop, on `*offset` and the memory. -/
def printThread (current : Thread) (sofar : Nat × Mem) (thread : Thread) : Nat × Mem :=
  if current.pid = thread.pid then sofar
  else
    let printed := sprintf sofar.2 sofar.1 (line current thread)
    (sofar.1 + printed.1, printed.2)

/-- `Myread`, called by a thread of the group. -/
def myread (current : Thread) (threads : List Thread) (mem : Mem) (ubuf : UserBuf)
    (_bufferLen offset : Nat) : ReadOutcome :=
  if offset > 0 then ⟨.ok 0, [], offset, mem⟩
  else
    let printed := threads.foldl (printThread current) (offset, mem)
    let copied := copyToUser printed.2 0 ubuf 0 printed.1
    let fail := u32 copied.1
    if fail ≠ 0 then ⟨.error .EFAULT, copied.2, printed.1, printed.2⟩
    else ⟨.ok printed.1, copied.2, printed.1, printed.2⟩

/-- A read from the start keeps to the kernel's buffer and to the user's. -/
structure InBounds (current : Thread) (threads : List Thread) (ubuf : UserBuf)
    (bufferLen : Nat) : Prop where
  /-- Nothing is written outside `buf`, whatever was in memory. -/
  kernel : ∀ mem a, bufSize ≤ a → (myread current threads mem ubuf bufferLen 0).mem a = mem a
  copied : ∀ mem, (myread current threads mem ubuf bufferLen 0).delivered.length ≤ bufferLen
  returned : ∀ mem n, (myread current threads mem ubuf bufferLen 0).result = .ok n →
    n ≤ bufferLen

/-- The threads that get a line. -/
def others (current : Thread) (threads : List Thread) : List Thread :=
  threads.filter fun thread => current.pid ≠ thread.pid

/-- The characters of the line about a thread: thirty-four, and those of the four numbers. -/
def lineWidth (current thread : Thread) : Nat :=
  34 + width current.pid.toInt + width thread.pid.toInt + width thread.prio.toInt +
    width thread.state.toInt

/-- The characters of the lines about all threads but the calling one. -/
def groupWidth (current : Thread) (threads : List Thread) : Nat :=
  ((others current threads).map (lineWidth current)).sum

/-- These lines. -/
def text (current : Thread) (threads : List Thread) : List UInt8 :=
  (others current threads).flatMap (line current)

/-! ## The text -/

variable {current : Thread} {threads : List Thread}

theorem length_line (current thread : Thread) :
    (line current thread).length = lineWidth current thread := by
  simp only [line, List.length_append, ascii, List.length_map, List.length_cons,
    List.length_nil, length_intDigits, lineWidth]
  omega

theorem length_text (current : Thread) (threads : List Thread) :
    (text current threads).length = groupWidth current threads := by
  simp only [text, List.length_flatMap, length_line, groupWidth]

/-- Between one and eleven characters for each number. -/
theorem lineWidth_bounds (current thread : Thread) :
    38 ≤ lineWidth current thread ∧ lineWidth current thread ≤ 78 := by
  have word (n : BitVec 32) : 1 ≤ width n.toInt ∧ width n.toInt ≤ 11 :=
    ⟨width_pos _, length_intDigits n.toInt ▸ length_intDigits_word n⟩
  have pid := word current.pid
  have tid := word thread.pid
  have prio := word thread.prio
  have state := word thread.state
  unfold lineWidth
  omega

/-- The text grows with the number of the other threads. -/
theorem groupWidth_bounds (current : Thread) (threads : List Thread) :
    38 * (others current threads).length ≤ groupWidth current threads ∧
      groupWidth current threads ≤ 78 * (others current threads).length := by
  unfold groupWidth
  induction others current threads with
  | nil => exact ⟨Nat.le_refl _, Nat.le_refl _⟩
  | cons thread rest ih =>
      have width := lineWidth_bounds current thread
      rw [List.map_cons, List.sum_cons, List.length_cons]
      omega

theorem line_ne_nil (current thread : Thread) : line current thread ≠ [] := by
  apply List.ne_nil_of_length_pos
  rw [length_line]
  exact Nat.lt_of_lt_of_le (by decide) (lineWidth_bounds current thread).1

@[simp]
theorem text_nil : text current [] = [] :=
  rfl

theorem text_cons_of_eq {thread : Thread} (own : current.pid = thread.pid) :
    text current (thread :: threads) = text current threads := by
  simp [text, others, own]

theorem text_cons_of_ne {thread : Thread} (other : current.pid ≠ thread.pid) :
    text current (thread :: threads) = line current thread ++ text current threads := by
  simp [text, others, other]

/-! ## The loop -/

/-- A text printed at the NUL of another continues it. -/
theorem sprintf_sprintf (mem : Mem) (p : Nat) (front back : List UInt8) :
    (sprintf (sprintf mem p front).2 (p + front.length) back).2 =
      (sprintf mem p (front ++ back)).2 := by
  funext a
  simp only [sprintf, List.length_append]
  by_cases inBack : p + front.length ≤ a ∧ a < p + front.length + (back.length + 1)
  · rcases inBack with ⟨low, high⟩
    have behind : front.length ≤ a - p := Nat.le_sub_of_add_le' low
    rw [store_of_mem low high, store_of_mem (by omega) (by omega),
      List.getD_append_right _ _ _ _ behind, Nat.sub_sub]
  · rw [store_of_not_mem (by omega)]
    by_cases inFront : p ≤ a ∧ a < p + front.length
    · rcases inFront with ⟨low, high⟩
      have inside : a - p < front.length := Nat.sub_lt_left_of_lt_add low high
      rw [store_of_mem low (by omega), store_of_mem low (by omega),
        List.getD_append _ _ _ _ inside]
    · rw [store_of_not_mem (by omega), store_of_not_mem (by omega)]

/-- The memory with a text printed at the start of `buf`, if there is any. -/
def printed (mem : Mem) : List UInt8 → Mem
  | [] => mem
  | text => (sprintf mem 0 text).2

theorem printed_of_ne_nil {mem : Mem} {text : List UInt8} (some : text ≠ []) :
    printed mem text = (sprintf mem 0 text).2 := by
  cases text with
  | nil => exact absurd rfl some
  | cons c rest => rfl

/-- One more thread: its line is behind the text so far. -/
theorem printThread_printed {mem : Mem} {done : List UInt8} {thread : Thread}
    (other : current.pid ≠ thread.pid) :
    printThread current (done.length, printed mem done) thread =
      ((done ++ line current thread).length, printed mem (done ++ line current thread)) := by
  have some : done ++ line current thread ≠ [] :=
    List.append_ne_nil_of_right_ne_nil done (line_ne_nil current thread)
  rw [printThread, if_neg other, printed_of_ne_nil some, List.length_append]
  cases done with
  | nil => rfl
  | cons c rest =>
      have continued := sprintf_sprintf mem 0 (c :: rest) (line current thread)
      rw [Nat.zero_add] at continued
      rw [← continued]
      rfl

/-- The loop prints the text of the threads behind the text so far. -/
theorem foldl_printThread (mem : Mem) (threads : List Thread) (done : List UInt8) :
    threads.foldl (printThread current) (done.length, printed mem done) =
      ((done ++ text current threads).length, printed mem (done ++ text current threads)) := by
  induction threads generalizing done with
  | nil => rw [text_nil, List.append_nil, List.foldl_nil]
  | cons thread rest ih =>
      rw [List.foldl_cons]
      by_cases own : current.pid = thread.pid
      · rw [printThread, if_pos own, text_cons_of_eq own]
        exact ih done
      · rw [printThread_printed own, text_cons_of_ne own, ← List.append_assoc]
        exact ih (done ++ line current thread)

/-- `Myread` from the start, with its loop run. -/
theorem myread_zero (mem : Mem) (ubuf : UserBuf) (bufferLen : Nat) :
    myread current threads mem ubuf bufferLen 0 =
      let done := printed mem (text current threads)
      let size := (text current threads).length
      let copied := copyToUser done 0 ubuf 0 size
      if u32 copied.1 ≠ 0 then ⟨.error .EFAULT, copied.2, size, done⟩
      else ⟨.ok size, copied.2, size, done⟩ := by
  have loop := @foldl_printThread current mem threads []
  rw [List.nil_append, List.length_nil, printed] at loop
  rw [myread, if_neg (Nat.lt_irrefl 0), loop]

/-! ## The bounds -/

/-- The NUL of a text that is not empty is behind it. -/
theorem printed_length {mem : Mem} {text : List UInt8} (some : text ≠ []) :
    printed mem text text.length = 0 := by
  rw [printed_of_ne_nil some, sprintf]
  dsimp only
  rw [store_of_mem (Nat.zero_le _) (by omega), Nat.sub_zero]
  exact List.getD_eq_default _ _ (Nat.le_refl _)

theorem printed_of_le {mem : Mem} {text : List UInt8} {a : Nat} (behind : text.length < a) :
    printed mem text a = mem a := by
  cases text with
  | nil => rfl
  | cons c rest =>
      rw [printed_of_ne_nil (List.cons_ne_nil c rest), sprintf]
      dsimp only
      apply store_of_not_mem
      right
      rw [Nat.zero_add]
      exact behind

/-- Nothing is written outside `buf` exactly when the text and its NUL fit. -/
theorem unchanged_iff (text : List UInt8) :
    (∀ mem a, bufSize ≤ a → printed mem text a = mem a) ↔ text.length < bufSize := by
  constructor
  · intro unchanged
    by_contra long
    have large : bufSize ≤ text.length := Nat.le_of_not_lt long
    have some : text ≠ [] := List.ne_nil_of_length_pos (Nat.lt_of_lt_of_le (by decide) large)
    have kept := unchanged (fun _ => 1) text.length large
    rw [printed_length some] at kept
    exact absurd kept (by decide)
  · intro short mem a outside
    exact printed_of_le (short.trans_le outside)

/-- As much as the user's memory takes is delivered, up to the whole text. -/
theorem length_delivered (mem : Mem) (ubuf : UserBuf) (bufferLen : Nat) :
    (myread current threads mem ubuf bufferLen 0).delivered.length =
      min (groupWidth current threads) (ubuf.reach 0) := by
  have length : ∀ (done : Mem) (size : Nat),
      (copyToUser done 0 ubuf 0 size).2.length = min size (ubuf.reach 0) := by
    intro done size
    rw [copyToUser, List.length_map, List.length_range, UserBuf.copied]
  rw [myread_zero, length_text]
  dsimp only
  split
  next => exact length _ _
  next => exact length _ _

/-- A read that succeeds has copied the whole text, when its size fits in an `int`. -/
theorem copied_of_ok {mem : Mem} {ubuf : UserBuf} {bufferLen n : Nat}
    (short : groupWidth current threads < bufSize)
    (ok : (myread current threads mem ubuf bufferLen 0).result = .ok n) :
    n = groupWidth current threads ∧ groupWidth current threads ≤ ubuf.reach 0 := by
  have small : groupWidth current threads - min (groupWidth current threads) (ubuf.reach 0) <
      2 ^ 32 := by
    unfold bufSize at short
    omega
  rw [myread_zero, length_text] at ok
  dsimp only [copyToUser, UserBuf.copied] at ok
  rw [Osfs.u32_of_lt small] at ok
  split at ok
  next => cases ok
  next whole =>
    cases ok
    omega

/-- A read keeps to both buffers exactly when the lines are shorter than `buf`, and the user
has asked for as many characters or has no more memory than that. -/
theorem inBounds_iff (current : Thread) (threads : List Thread) (ubuf : UserBuf)
    (bufferLen : Nat) :
    InBounds current threads ubuf bufferLen ↔
      groupWidth current threads < bufSize ∧
        (groupWidth current threads ≤ bufferLen ∨ ubuf.reach 0 ≤ bufferLen) := by
  have memory : ∀ mem, (myread current threads mem ubuf bufferLen 0).mem =
      printed mem (text current threads) := by
    intro mem
    rw [myread_zero]
    dsimp only
    split
    next => rfl
    next => rfl
  constructor
  · rintro ⟨kernel, copied, _⟩
    constructor
    · rw [← length_text, ← unchanged_iff]
      intro mem a outside
      rw [← memory]
      exact kernel mem a outside
    · have delivered := copied fun _ => 0
      rw [length_delivered] at delivered
      exact min_le_iff.mp delivered
  · rintro ⟨short, fits⟩
    constructor
    · intro mem a outside
      rw [← length_text] at short
      rw [memory]
      exact (unchanged_iff _).mpr short mem a outside
    · intro mem
      rw [length_delivered]
      exact min_le_iff.mpr fits
    · intro mem n ok
      rcases copied_of_ok short ok with ⟨rfl, inMemory⟩
      exact fits.elim id inMemory.trans

/-- Up to thirteen other threads can never overrun `buf`. -/
theorem groupWidth_lt (few : (others current threads).length ≤ 13) :
    groupWidth current threads < bufSize := by
  have upper := (groupWidth_bounds current threads).2
  unfold bufSize
  omega

/-- From twenty-seven other threads on every read overruns `buf`. -/
theorem le_groupWidth (many : 27 ≤ (others current threads).length) :
    bufSize ≤ groupWidth current threads := by
  have lower := (groupWidth_bounds current threads).1
  unfold bufSize
  omega

/-- Memory of a user that never faults. -/
def mapped : UserBuf where
  byte _ := 0
  reach _ := 4096

/-- With one other thread, a read of one byte gets a whole line. -/
theorem not_inBounds_one_byte :
    ¬InBounds ⟨7, 120, 0⟩ [⟨7, 120, 0⟩, ⟨8, 120, 1⟩] mapped 1 := by
  rintro ⟨_, copied, _⟩
  have delivered := copied fun _ => 0
  have lower := (groupWidth_bounds ⟨7, 120, 0⟩ [⟨7, 120, 0⟩, ⟨8, 120, 1⟩]).1
  have one : (others ⟨7, 120, 0⟩ [⟨7, 120, 0⟩, ⟨8, 120, 1⟩]).length = 1 := by decide
  have reach : mapped.reach 0 = 4096 := rfl
  rw [length_delivered] at delivered
  omega

end NckuOs.ProcLog.ThreadInfo
