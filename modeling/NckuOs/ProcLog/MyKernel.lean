import NckuOs.Lib.Decimal
import NckuOs.Osfs.Core

/-!
# `My_Kernel.c`: the buffer behind `/proc/Mythread_info`

`Mywrite` appends the user's bytes and a line about the caller; `Myread` hands
everything out and clears the buffer.  The memory is that of the kernel, and `buf` is
its first `BUFSIZE` bytes.
-/

namespace NckuOs.ProcLog

open NckuOs.ByteMemory
open NckuOs.Decimal
open NckuOs.Osfs (Errno UserBuf copyFromUser copyToUser)

/-- `BUFSIZE`. -/
def bufSize : Nat := 1024

/-- The fields of `current` that are printed. -/
structure Task where
  tgid : BitVec 32
  pid : BitVec 32
  utime : BitVec 64

/-- `"PID: %d, TID: %d, Time: %llu\n"`. -/
def Task.tag (current : Task) : List UInt8 :=
  ascii ['P', 'I', 'D', ':', ' '] ++ intDigits current.tgid.toInt ++
    ascii [',', ' ', 'T', 'I', 'D', ':', ' '] ++ intDigits current.pid.toInt ++
    ascii [',', ' ', 'T', 'i', 'm', 'e', ':', ' '] ++
    natDigits (current.utime.toNat / 100 / 1000) ++
    ascii ['\n']

/-- `strnlen(buf, BUFSIZE)`. -/
def strnlen (mem : Mem) : Nat :=
  (cstr mem 0 bufSize).length

/-- `scnprintf(p, size, …)` with the text that the format gives: the number of
characters stored before the NUL, and the memory afterwards. -/
def scnprintf (mem : Mem) (p size : Nat) (text : List UInt8) : Nat × Mem :=
  if size = 0 then (0, mem)
  else
    let kept := min text.length (size - 1)
    (kept, store mem p (kept + 1) fun i => if i < kept then text.getD i 0 else 0)

/-- `Mywrite`. -/
def mywrite (current : Task) (mem : Mem) (ubuf : UserBuf) (ubufferLen : Nat) :
    Except Errno Nat × Mem :=
  let bufferLen := strnlen mem
  if bufferLen ≥ bufSize then (.error .ENOSPC, mem)
  else
    let spaceLeft := bufSize - bufferLen - 1
    let copyLen := min ubufferLen spaceLeft
    if copyLen = 0 then (.error .ENOSPC, mem)
    else
      let copied := copyFromUser mem bufferLen ubuf 0 copyLen
      if copied.1 ≠ 0 then (.error .EFAULT, copied.2)
      else
        let bufferLen := bufferLen + copyLen
        let ended := store copied.2 bufferLen 1 fun _ => 0
        let printed := scnprintf ended bufferLen (bufSize - bufferLen) current.tag
        (.ok copyLen, printed.2)

/-- What `Myread` leaves behind. -/
structure ReadOutcome where
  result : Except Errno Nat
  /-- The bytes that have reached the user's buffer. -/
  delivered : List UInt8
  offset : Nat
  mem : Mem

/-- `Myread`. -/
def myread (mem : Mem) (ubuf : UserBuf) (bufferLen offset : Nat) : ReadOutcome :=
  let dataLen := strnlen mem
  if offset > 0 then ⟨.ok 0, [], offset, mem⟩
  else if bufferLen < dataLen then ⟨.error .EINVAL, [], offset, mem⟩
  else
    let copied := copyToUser mem 0 ubuf 0 dataLen
    if copied.1 ≠ 0 then ⟨.error .EFAULT, copied.2, offset, mem⟩
    else ⟨.ok dataLen, copied.2, dataLen, store mem 0 bufSize fun _ => 0⟩

/-! ## The tag -/

theorem Task.tag_noNul (current : Task) : 0 ∉ current.tag := by
  intro isMem
  simp only [tag, List.mem_append] at isMem
  have noDigit : ¬IsDigit 0 := by
    rintro ⟨low, _⟩
    exact absurd low (by decide)
  rcases isMem with (((((text | digits) | text) | digits) | text) | digits) | text
  · exact absurd text (by decide)
  · exact noDigit (isDigit_of_mem_intDigits digits)
  · exact absurd text (by decide)
  · exact noDigit (isDigit_of_mem_intDigits digits)
  · exact absurd text (by decide)
  · exact noDigit (isDigit_of_mem_natDigits digits)
  · exact absurd text (by decide)

theorem length_intDigits_word (word : BitVec 32) : (intDigits word.toInt).length ≤ 11 := by
  apply length_intDigits_le (k := 10) (by decide)
  have low := BitVec.le_toInt word
  have high := BitVec.toInt_lt (x := word)
  omega

/-- The line is much shorter than the buffer. -/
theorem Task.length_tag_le (current : Task) : current.tag.length ≤ 63 := by
  have tgid := length_intDigits_word current.tgid
  have pid := length_intDigits_word current.pid
  have time : (natDigits (current.utime.toNat / 100 / 1000)).length ≤ 20 := by
    apply length_natDigits_le (by decide)
    have small := current.utime.isLt
    omega
  simp only [tag, List.length_append]
  have first : (ascii ['P', 'I', 'D', ':', ' ']).length = 5 := rfl
  have second : (ascii [',', ' ', 'T', 'I', 'D', ':', ' ']).length = 7 := rfl
  have third : (ascii [',', ' ', 'T', 'i', 'm', 'e', ':', ' ']).length = 8 := rfl
  have newline : (ascii ['\n']).length = 1 := rfl
  omega

end NckuOs.ProcLog
