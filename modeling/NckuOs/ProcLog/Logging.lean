import NckuOs.Lib.Threads
import NckuOs.ProcLog.Log

/-!
# `3_2.c`: the logging part of `thread1` and `thread2`

Behind its loops each thread initialises the lock if its own flag says that this has
not happened yet, and then writes its message to the proc file and reads the file back
between `pthread_spin_lock` and `pthread_spin_unlock`.
-/

namespace NckuOs.ProcLog

open NckuOs.ByteMemory
open NckuOs.Decimal
open NckuOs.Threads
open NckuOs.Osfs (Errno UserBuf)

/-- `data` of `thread1` and of `thread2`. -/
def message (t : Fin 2) : List UInt8 :=
  ascii ['T', 'h', 'r', 'e', 'a', 'd', ' '] ++ ascii (if t = 0 then ['1'] else ['2']) ++
    ascii [' ', 's', 'a', 'y', 's', ' ', 'h', 'e', 'l', 'l', 'o', '!', '\n']

/-- What the library and the system answer to a thread: the results of
`pthread_spin_init`, `pthread_spin_lock` and `fopen`, whether the stream for reading is
open, the size of its buffer, and what the kernel knows about the thread. -/
structure Answer where
  spinInit : Nat
  spinLock : Nat
  opens : Bool
  stream : Bool
  streamBuffer : Nat
  current : Task

/-- A buffer of the program that holds the given bytes. -/
def bufferOf (bytes : List UInt8) : UserBuf :=
  ⟨fun i => bytes.getD i 0, fun off => bytes.length - off⟩

/-- `fclose` writes out what `fwrite` has buffered, and calls the kernel again with the
rest when it has not taken everything.  The result says whether all bytes were taken;
every call takes at least one, so that `data.length` calls are enough. -/
def flush (current : Task) : Nat → Mem → List UInt8 → Bool × Mem
  | 0, mem, data => (data.isEmpty, mem)
  | fuel + 1, mem, data =>
      if data.isEmpty then (true, mem)
      else
        let call := mywrite current mem (bufferOf data) data.length
        match call.1 with
        | .error _ => (false, call.2)
        | .ok count => flush current fuel call.2 (data.drop count)

/-- The calls behind `while (fgets(…) != NULL) printf(…)`: the stream's buffer is filled
until a call returns 0.  The result is what has been printed, or nothing after an
error; the second call finds the end of the file. -/
def readLoop (ubuf : UserBuf) (len : Nat) : Nat → Mem → Nat → Option (List UInt8) × Mem
  | 0, mem, _ => (none, mem)
  | fuel + 1, mem, offset =>
      let call := myread mem ubuf len offset
      match call.result with
      | .error _ => (none, call.mem)
      | .ok 0 => (some [], call.mem)
      | .ok (_ + 1) =>
          let rest := readLoop ubuf len fuel call.mem call.offset
          (rest.1.map (call.delivered ++ ·), rest.2)

/-! ## The library on top of the kernel -/

section Library

variable {mem : Mem} {log : List UInt8}

theorem bufferOf_valid (bytes : List UInt8) : (bufferOf bytes).Valid bytes.length := by
  intro off n within
  dsimp only [bufferOf]
  omega

theorem payload_bufferOf (bytes : List UInt8) : payload (bufferOf bytes) bytes.length = bytes := by
  apply List.ext_getElem
  · simp [payload]
  · intro i _ inBytes
    simp [payload, bufferOf, inBytes]

theorem flush_nil (current : Task) (fuel : Nat) (mem : Mem) :
    flush current fuel mem [] = (true, mem) := by
  cases fuel with
  | zero => rfl
  | succ fuel => rfl

/-- Data for which there is room is written by one call. -/
theorem flush_fits (current : Task) (holds : Holds mem log) {data : List UInt8}
    (noNul : 0 ∉ data) (some : data ≠ []) (fits : data.length ≤ room log) (fuel : Nat) :
    ∃ mem', flush current (fuel + 1) mem data = (true, mem') ∧
      Holds mem' (log ++ data ++ current.tag) := by
  have keeps : kept log data.length = data.length := Nat.min_eq_left fits
  have nonzero : kept log data.length ≠ 0 := by
    rw [keeps]
    exact fun none => some (List.eq_nil_of_length_eq_zero none)
  have clean : 0 ∉ payload (bufferOf data) data.length := by
    rw [payload_bufferOf]
    exact noNul
  rcases mywrite_holds current holds (bufferOf_valid data) clean nonzero with
    ⟨mem', wrote, held, _⟩
  refine ⟨mem', ?_, ?_⟩
  · have notEmpty : ¬data.isEmpty = true := by simpa using some
    rw [flush, if_neg notEmpty, wrote, keeps]
    dsimp only
    rw [List.drop_length, flush_nil]
  · rw [payload_bufferOf] at held
    exact held

/-- Behind the first call the file is at its end. -/
theorem readLoop_end (ubuf : UserBuf) (len fuel : Nat) (mem : Mem) {offset : Nat}
    (behind : offset > 0) : readLoop ubuf len (fuel + 1) mem offset = (some [], mem) := by
  rw [readLoop, myread_again behind]

/-- A read loop that reaches the end of the file has printed what the buffer held. -/
theorem readLoop_text (holds : Holds mem log) {len : Nat} {text : List UInt8}
    (printed : (readLoop (bufferOf (List.replicate len 0)) len 2 mem 0).1 = some text) :
    text = log.take (bufSize - 1) := by
  have valid : (bufferOf (List.replicate len 0)).Valid len := by
    have whole := bufferOf_valid (List.replicate len 0)
    rw [List.length_replicate] at whole
    exact whole
  rw [readLoop] at printed
  by_cases small : len < strnlen mem
  · rw [myread_small small] at printed
    cases printed
  · rw [myread_large holds.strnlen_lt valid (Nat.le_of_not_lt small)] at printed
    cases length : strnlen mem with
    | zero =>
        rw [length] at printed
        have isEmpty : cstr mem 0 bufSize = [] := List.eq_nil_of_length_eq_zero length
        rw [← holds, isEmpty]
        exact (Option.some.inj printed).symm
    | succ n =>
        rw [length] at printed
        dsimp only at printed
        rw [readLoop_end _ _ _ _ (Nat.succ_pos n), Option.map_some, List.append_nil] at printed
        rw [← holds]
        exact (Option.some.inj printed).symm

end Library

/-- The lock and the kernel's memory. -/
structure LogShared where
  held : Bool
  mem : Mem

/-- The next step of a thread. -/
inductive LogPc
  | testFlag
  | spinInit
  | setFlag
  | testLock
  | spinLock
  | write
  | read
  | unlock
  | done
  deriving DecidableEq, Repr

/-- A thread: its static flag, `locked`, whether its message was written, and what it
has read back. -/
structure LogThread where
  pc : LogPc
  lockInitialized : Bool
  locked : Bool
  wrote : Bool
  readBack : Option (List UInt8)
  deriving DecidableEq, Repr

/-- A thread before this part; the flag is a static variable and starts as `false`. -/
def LogThread.start : LogThread :=
  ⟨.testFlag, false, false, false, none⟩

/-- The next step of a thread.  `pthread_spin_init` makes the lock free, whoever holds
it. -/
def logStep (answer : Fin 2 → Answer) (t : Fin 2) (shared : LogShared) (thread : LogThread) :
    Option (LogShared × LogThread) :=
  match thread.pc with
  | .testFlag =>
      some (shared, { thread with pc := if thread.lockInitialized then .testLock else .spinInit })
  | .spinInit =>
      if (answer t).spinInit = 0 then
        some ({ shared with held := false }, { thread with pc := .setFlag })
      else some (shared, { thread with pc := .testLock })
  | .setFlag => some (shared, { thread with pc := .testLock, lockInitialized := true })
  | .testLock =>
      some (shared, { thread with pc := if thread.lockInitialized then .spinLock else .write })
  | .spinLock =>
      if (answer t).spinLock = 0 then
        if shared.held then none
        else some ({ shared with held := true }, { thread with pc := .write, locked := true })
      else some (shared, { thread with pc := .write })
  | .write =>
      if thread.locked && (answer t).opens then
        let written := flush (answer t).current (message t).length shared.mem (message t)
        some ({ shared with mem := written.2 }, { thread with pc := .read, wrote := written.1 })
      else some (shared, { thread with pc := .read })
  | .read =>
      if thread.locked && (answer t).stream then
        let read := readLoop (bufferOf (List.replicate (answer t).streamBuffer 0))
          (answer t).streamBuffer 2 shared.mem 0
        some ({ shared with mem := read.2 }, { thread with pc := .unlock, readBack := read.1 })
      else some (shared, { thread with pc := .unlock })
  | .unlock =>
      if thread.locked then
        some ({ shared with held := false }, { thread with pc := .done })
      else some (shared, { thread with pc := .done })
  | .done => none

/-- The two threads at the beginning of this part.  Lock and memory are arbitrary. -/
def logProgram (answer : Fin 2 → Answer) : Program (Fin 2) LogShared LogThread where
  start config := ∀ t, config.thread t = .start
  step := logStep answer

/-- Between `pthread_spin_lock` and `pthread_spin_unlock`. -/
def LogThread.Inside (thread : LogThread) : Prop :=
  thread.locked = true ∧ (thread.pc = .write ∨ thread.pc = .read ∨ thread.pc = .unlock)

instance (thread : LogThread) : Decidable thread.Inside :=
  inferInstanceAs (Decidable (_ ∧ _))

end NckuOs.ProcLog
