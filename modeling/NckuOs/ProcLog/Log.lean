import Mathlib.Data.List.GetD
import NckuOs.Lib.Transition
import NckuOs.ProcLog.MyKernel

/-!
# The log in the kernel buffer

Abstractly the buffer is a log: every write appends its payload and its tag, a
successful read empties it.  The code keeps the first `BUFSIZE - 1` bytes of the log as
a string and finds its end again at every call.
-/

namespace NckuOs.ProcLog

open NckuOs.ByteMemory
open NckuOs.Transition
open NckuOs.Osfs (Errno UserBuf copyFromUser copyToUser)

/-- The buffer holds what fits of the log. -/
def Holds (mem : Mem) (log : List UInt8) : Prop :=
  cstr mem 0 bufSize = log.take (bufSize - 1)

/-- The payload of a write. -/
def payload (ubuf : UserBuf) (len : Nat) : List UInt8 :=
  (List.range len).map ubuf.byte

/-- How many bytes can still be added to a log. -/
def room (log : List UInt8) : Nat :=
  bufSize - 1 - log.length

namespace Holds

variable {mem mem' : Mem} {log piece : List UInt8}

theorem strnlen_eq (holds : Holds mem log) : strnlen mem = min (bufSize - 1) log.length := by
  rw [strnlen, holds, List.length_take]

theorem strnlen_lt (holds : Holds mem log) : strnlen mem < bufSize := by
  rw [holds.strnlen_eq]
  unfold bufSize
  omega

theorem space_left (holds : Holds mem log) : bufSize - strnlen mem - 1 = room log := by
  rw [holds.strnlen_eq, room]
  omega

theorem nul_at_end (holds : Holds mem log) : mem (strnlen mem) = 0 := by
  have ends : (cstr mem 0 bufSize).length < bufSize := holds.strnlen_lt
  have nul := (cstr_bytes ends).2
  rw [Nat.zero_add] at nul
  exact nul

/-- A full buffer holds every longer log. -/
theorem of_full (holds : Holds mem log) (full : room log = 0) : Holds mem (log ++ piece) := by
  have long : bufSize - 1 ≤ log.length := by
    unfold room at full
    omega
  rw [Holds, List.take_append_of_le_length long]
  exact holds

/-- Storing behind the string, with a NUL after it, appends what fits. -/
theorem append (holds : Holds mem log) (noNul : 0 ∉ piece)
    (same : ∀ a < strnlen mem, mem' a = mem a)
    (bytes : ∀ i < min piece.length (room log), mem' (strnlen mem + i) = piece.getD i 0)
    (nul : mem' (strnlen mem + min piece.length (room log)) = 0) :
    Holds mem' (log ++ piece) := by
  have short := holds.strnlen_lt
  have ends : (cstr mem 0 bufSize).length < bufSize := short
  rcases cstr_bytes ends with ⟨old, _⟩
  have isText : (log ++ piece).take (bufSize - 1) =
      cstr mem 0 bufSize ++ piece.take (room log) := by
    rw [List.take_append, holds, room]
  have length : (cstr mem 0 bufSize ++ piece.take (room log)).length =
      strnlen mem + min piece.length (room log) := by
    rw [List.length_append, List.length_take, strnlen, Nat.min_comm]
  rw [Holds, isText]
  apply cstr_eq_of_nul
  · rw [List.mem_append]
    rintro (inOld | inPiece)
    · exact zero_not_mem_cstr mem 0 bufSize inOld
    · exact noNul (List.mem_of_mem_take inPiece)
  · rw [length, ← holds.space_left]
    omega
  · intro i below
    rw [length] at below
    rw [Nat.zero_add]
    by_cases inOld : i < strnlen mem
    · have found := old i inOld
      rw [Nat.zero_add] at found
      rw [same i inOld, found, List.getD_append _ _ _ _ inOld]
    · have new := bytes (i - strnlen mem) (by omega)
      rw [Nat.add_sub_cancel' (Nat.le_of_not_lt inOld)] at new
      have inRoom : i - strnlen mem < room log := by omega
      have kept : (piece.take (room log)).getD (i - strnlen mem) 0 =
          piece.getD (i - strnlen mem) 0 := by
        rw [List.getD_eq_getElem?_getD, List.getElem?_take_of_lt inRoom,
          ← List.getD_eq_getElem?_getD]
      rw [new, List.getD_append_right _ _ _ _ (Nat.le_of_not_lt inOld)]
      exact kept.symm
  · rw [Nat.zero_add, length]
    exact nul

end Holds

/-! ## The calls -/

section Calls

variable {mem : Mem} {log : List UInt8} {current : Task} {ubuf : UserBuf} {len : Nat}

/-- Valid user memory is copied to the last byte. -/
theorem copyFromUser_valid (mem : Mem) (valid : ubuf.Valid len) {n : Nat} (within : n ≤ len)
    (p : Nat) :
    copyFromUser mem p ubuf 0 n = (0, store mem p n ubuf.byte) := by
  have all : ubuf.copied 0 n = n := Nat.min_eq_left (valid 0 n (by omega))
  rw [copyFromUser, all, Nat.sub_self]
  congr 1
  apply store_congr
  intro i below
  rw [if_pos below, Nat.zero_add]

theorem payload_getD {i : Nat} (below : i < len) : (payload ubuf len).getD i 0 = ubuf.byte i := by
  simp [payload, below]

/-- How much of a payload is kept. -/
def kept (log : List UInt8) (len : Nat) : Nat :=
  min len (room log)

/-- No byte is kept, because there is none or because the buffer is full. -/
theorem mywrite_none (holds : Holds mem log) (none : kept log len = 0) :
    mywrite current mem ubuf len = (.error .ENOSPC, mem) := by
  have short : ¬strnlen mem ≥ bufSize := Nat.not_le_of_lt holds.strnlen_lt
  have isNone : min len (room log) = 0 := none
  simp only [mywrite, if_neg short, holds.space_left, if_pos isNone]

/-- The two stores of a write that keeps something. -/
theorem mywrite_some (holds : Holds mem log) (valid : ubuf.Valid len) (some : kept log len ≠ 0) :
    mywrite current mem ubuf len =
      (.ok (kept log len),
        (scnprintf (store (store mem (strnlen mem) (kept log len) ubuf.byte)
          (strnlen mem + kept log len) 1 fun _ => 0) (strnlen mem + kept log len)
          (bufSize - (strnlen mem + kept log len)) current.tag).2) := by
  have short : ¬strnlen mem ≥ bufSize := Nat.not_le_of_lt holds.strnlen_lt
  have within : kept log len ≤ len := Nat.min_le_left _ _
  have isSome : ¬min len (room log) = 0 := some
  have copied := copyFromUser_valid mem valid within (strnlen mem)
  rw [kept] at copied ⊢
  have done : ¬(0 : Nat) ≠ 0 := by simp
  simp only [mywrite, if_neg short, holds.space_left, if_neg isSome, copied, if_neg done]

/-- The payload behind the old string, and its NUL. -/
theorem holds_payload (holds : Holds mem log) (noNul : 0 ∉ payload ubuf len) :
    Holds (store (store mem (strnlen mem) (kept log len) ubuf.byte)
      (strnlen mem + kept log len) 1 fun _ => 0) (log ++ payload ubuf len) := by
  have length : (payload ubuf len).length = len := by simp [payload]
  apply holds.append noNul
  · intro a below
    rw [store_of_not_mem (by omega), store_of_not_mem (by omega)]
  · intro i below
    rw [length] at below
    have inPayload : i < kept log len := below
    rw [store_of_not_mem (by omega), store_of_mem (by omega) (by omega),
      Nat.add_sub_cancel_left, payload_getD (Nat.lt_of_lt_of_le inPayload (Nat.min_le_left _ _))]
  · rw [length]
    exact store_of_mem (Nat.le_refl _) (Nat.lt_succ_self _)

/-- `scnprintf` at the end of the string, with the rest of the buffer as its size. -/
theorem holds_scnprintf {text : List UInt8} (holds : Holds mem log) (noNul : 0 ∉ text) :
    Holds (scnprintf mem (strnlen mem) (bufSize - strnlen mem) text).2 (log ++ text) := by
  have size : ¬bufSize - strnlen mem = 0 := by
    have short := holds.strnlen_lt
    omega
  rw [scnprintf, if_neg size, holds.space_left]
  apply holds.append noNul
  · intro a below
    dsimp only
    exact store_of_not_mem (.inl below)
  · intro i below
    dsimp only
    rw [store_of_mem (by omega) (by omega), Nat.add_sub_cancel_left, if_pos below]
  · dsimp only
    rw [store_of_mem (by omega) (by omega), Nat.add_sub_cancel_left, if_neg (Nat.lt_irrefl _)]

/-- `scnprintf` stays inside its size. -/
theorem scnprintf_outside {text : List UInt8} {p size a : Nat} (outside : p + size ≤ a) :
    (scnprintf mem p size text).2 a = mem a := by
  by_cases empty : size = 0
  · rw [scnprintf, if_pos empty]
  · rw [scnprintf, if_neg empty]
    dsimp only
    apply store_of_not_mem
    omega

/-- A write that keeps something appends its payload and its tag. -/
theorem mywrite_holds (current : Task) (holds : Holds mem log) (valid : ubuf.Valid len)
    (noNul : 0 ∉ payload ubuf len) (some : kept log len ≠ 0) :
    ∃ mem', mywrite current mem ubuf len = (.ok (kept log len), mem') ∧
      Holds mem' (log ++ payload ubuf len ++ current.tag) ∧
      ∀ a, bufSize ≤ a → mem' a = mem a := by
  have stored := holds_payload holds noNul
  have length : (payload ubuf len).length = len := by simp [payload]
  have atEnd : strnlen (store (store mem (strnlen mem) (kept log len) ubuf.byte)
      (strnlen mem + kept log len) 1 fun _ => 0) = strnlen mem + kept log len := by
    rw [stored.strnlen_eq, holds.strnlen_eq, List.length_append, length, kept, room]
    omega
  have tagged := holds_scnprintf stored current.tag_noNul
  rw [atEnd] at tagged
  refine ⟨_, mywrite_some holds valid some, tagged, ?_⟩
  intro a outside
  have inside : strnlen mem + kept log len < bufSize := by
    rw [← atEnd]
    exact stored.strnlen_lt
  rw [scnprintf_outside (by omega), store_of_not_mem (by omega), store_of_not_mem (by omega)]

/-- The string, byte by byte. -/
theorem cstr_eq_map (short : strnlen mem < bufSize) :
    cstr mem 0 bufSize = (List.range (strnlen mem)).map fun i => mem (0 + i) := by
  have ends : (cstr mem 0 bufSize).length < bufSize := short
  rcases cstr_bytes ends with ⟨bytes, _⟩
  apply List.ext_getElem
  · simp [strnlen]
  · intro i inText _
    have byte := bytes i inText
    rw [List.getD_eq_getElem _ _ inText] at byte
    simp only [List.getElem_map, List.getElem_range]
    exact byte.symm

/-- A read whose buffer is too small. -/
theorem myread_small (small : len < strnlen mem) :
    myread mem ubuf len 0 = ⟨.error .EINVAL, [], 0, mem⟩ := by
  have first : ¬(0 : Nat) > 0 := Nat.lt_irrefl 0
  simp only [myread, if_neg first, if_pos small]

/-- A read whose buffer is large enough hands out the string and clears the buffer. -/
theorem myread_large (short : strnlen mem < bufSize) (valid : ubuf.Valid len)
    (large : strnlen mem ≤ len) :
    myread mem ubuf len 0 =
      ⟨.ok (strnlen mem), cstr mem 0 bufSize, strnlen mem, store mem 0 bufSize fun _ => 0⟩ := by
  have first : ¬(0 : Nat) > 0 := Nat.lt_irrefl 0
  have notSmall : ¬len < strnlen mem := Nat.not_lt_of_le large
  have all : ubuf.copied 0 (strnlen mem) = strnlen mem :=
    Nat.min_eq_left (valid 0 (strnlen mem) (by omega))
  have done : ¬strnlen mem - strnlen mem ≠ 0 := by simp
  simp only [myread, if_neg first, if_neg notSmall, copyToUser, all, if_neg done, cstr_eq_map short]

/-- A read behind the first one. -/
theorem myread_again {offset : Nat} (behind : offset > 0) :
    myread mem ubuf len offset = ⟨.ok 0, [], offset, mem⟩ := by
  rw [myread, if_pos behind]

theorem holds_nil (zero : ∀ a < bufSize, mem a = 0) : Holds mem [] := by
  have first : mem 0 = 0 := zero 0 (by decide)
  rw [Holds, List.take_nil, bufSize, cstr, if_pos first]

end Calls

end NckuOs.ProcLog
