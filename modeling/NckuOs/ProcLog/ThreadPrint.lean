import NckuOs.Lib.Chunks
import NckuOs.Lib.Scan
import NckuOs.ProcLog.ThreadInfo

/-!
# `3_1.c`: what `main` prints about the threads

`main` reads the proc file with `fgets` and prints piece after piece.  The pieces are the whole
text, and the text tells every other thread's numbers.
-/

namespace NckuOs.ProcLog.ThreadInfo

open NckuOs.ByteMemory
open NckuOs.Chunks
open NckuOs.Decimal
open NckuOs.Scan
open NckuOs.Osfs (UserBuf copyToUser u32)

/-! ## The loop of `main` -/

/-- What the stream `fptr4` holds until its end: it calls the kernel until it gets nothing.  The
group may have other threads at every call; nothing comes of an error, or of too few calls. -/
def streamOf (current : Thread) (ubuf : UserBuf) (len : Nat) :
    List (List Thread) → Mem → Nat → Option (List UInt8)
  | [], _, _ => none
  | threads :: later, mem, offset =>
      let call := myread current threads mem ubuf len offset
      match call.result with
      | .error _ => none
      | .ok 0 => some []
      | .ok (_ + 1) =>
          (streamOf current ubuf len later call.mem call.offset).map (call.delivered ++ ·)

/-- `while (fgets(buffer, sizeof(buffer), fptr4) != NULL) printf("%s", buffer)`. -/
def printLoop (stream : List UInt8) : List UInt8 :=
  (chunks 10 49 stream).flatMap fun piece => piece.takeWhile fun c => c ≠ 0

/-- What the loop of `main` prints. -/
def mainPrints (current : Thread) (ubuf : UserBuf) (len : Nat) (groups : List (List Thread))
    (mem : Mem) : Option (List UInt8) :=
  (streamOf current ubuf len groups mem 0).map printLoop

/-! ## Reading it back -/

/-- The numbers of a line. -/
structure Entry where
  pid : Int
  tid : Int
  priority : Int
  state : Int
  deriving DecidableEq, Repr

/-- What is printed about a thread. -/
def entry (current thread : Thread) : Entry :=
  ⟨current.pid.toInt, thread.pid.toInt, thread.prio.toInt, thread.state.toInt⟩

/-- Read a line in the format of `Myread`. -/
def scanLine (input : List UInt8) : Option (Entry × List UInt8) := do
  let (pid, rest) ← scanField (ascii ['P', 'I', 'D', ':', ' ']) input
  let (tid, rest) ← scanField (ascii [',', ' ', 'T', 'I', 'D', ':', ' ']) rest
  let (priority, rest) ←
    scanField (ascii [',', ' ', 'P', 'r', 'i', 'o', 'r', 'i', 't', 'y', ':', ' ']) rest
  let (state, rest) ← scanField (ascii [',', ' ', 'S', 't', 'a', 't', 'e', ':', ' ']) rest
  let rest ← expect (ascii ['\n']) rest
  some (⟨pid, tid, priority, state⟩, rest)

/-- Read at most `n` lines, up to the end of the text. -/
def scanLines : Nat → List UInt8 → Option (List Entry)
  | _, [] => some []
  | 0, _ :: _ => none
  | n + 1, c :: text => do
      let (first, rest) ← scanLine (c :: text)
      let others ← scanLines n rest
      some (first :: others)

variable {current : Thread} {threads : List Thread}

theorem parted_ascii {c : Char} (notDigit : isDecimal (UInt8.ofNat c.toNat) = false)
    (more : List Char) (rest : List UInt8) : Parted (ascii (c :: more) ++ rest) := by
  intro d isHead
  cases isHead
  exact notDigit

/-- A printed line is read back, and nothing behind it. -/
theorem scanLine_line (current thread : Thread) (rest : List UInt8) :
    scanLine (line current thread ++ rest) = some (entry current thread, rest) := by
  have comma : isDecimal (UInt8.ofNat ','.toNat) = false := by decide
  have ends : isDecimal (UInt8.ofNat '\n'.toNat) = false := by decide
  simp only [line, List.append_assoc, scanLine, Option.bind_eq_bind]
  rw [scanField_printed _ _ (parted_ascii comma _ _), Option.bind_some,
    scanField_printed _ _ (parted_ascii comma _ _), Option.bind_some,
    scanField_printed _ _ (parted_ascii comma _ _), Option.bind_some,
    scanField_printed _ _ (parted_ascii ends _ _), Option.bind_some, expect_append,
    Option.bind_some]
  rfl

/-- All lines are read back. -/
theorem scanLines_lines (current : Thread) (all : List Thread) {n : Nat}
    (enough : all.length ≤ n) :
    scanLines n (all.flatMap (line current)) = some (all.map (entry current)) := by
  induction all generalizing n with
  | nil => cases n <;> rfl
  | cons thread rest ih =>
      cases n with
      | zero => cases enough
      | succ n =>
          have others := ih (Nat.le_of_succ_le_succ enough)
          have first := scanLine_line current thread (rest.flatMap (line current))
          rw [List.flatMap_cons, List.map_cons]
          rcases List.exists_cons_of_ne_nil (line_ne_nil current thread) with ⟨c, more, isLine⟩
          rw [isLine, List.cons_append] at first ⊢
          simp only [scanLines, first, others, Option.bind_eq_bind, Option.bind_some]

/-! ## What is printed -/

theorem zero_notMem_intDigits (z : Int) : 0 ∉ intDigits z := by
  intro isMem
  have low : 45 ≤ (0 : UInt8).toNat := (isDigit_of_mem_intDigits isMem).1
  exact absurd low (by decide)

theorem zero_notMem_line (current thread : Thread) : 0 ∉ line current thread := by
  simp only [line, List.mem_append, not_or]
  refine ⟨⟨⟨⟨⟨⟨⟨⟨?_, ?_⟩, ?_⟩, ?_⟩, ?_⟩, ?_⟩, ?_⟩, ?_⟩, ?_⟩
  all_goals first
    | exact zero_notMem_intDigits _
    | decide +kernel

theorem zero_notMem_text (current : Thread) (threads : List Thread) :
    0 ∉ text current threads := by
  intro isMem
  rcases List.mem_flatMap.mp isMem with ⟨thread, _, inLine⟩
  exact zero_notMem_line current thread inLine

/-- A text without NULs is printed whole, in whatever pieces it is read. -/
theorem printLoop_eq {stream : List UInt8} (noNul : 0 ∉ stream) : printLoop stream = stream := by
  have whole : (chunks 10 49 stream).flatten = stream := flatten_chunks (by decide) stream
  have pieces : ∀ piece ∈ chunks 10 49 stream, (piece.takeWhile fun c => c ≠ 0) = piece := by
    intro piece isMem
    apply List.takeWhile_eq_self_iff.mpr
    intro c inPiece
    rw [decide_eq_true_eq]
    rintro rfl
    apply noNul
    rw [← whole]
    exact List.mem_flatten.mpr ⟨piece, isMem, inPiece⟩
  rw [printLoop, List.flatMap_def, List.map_congr_left pieces, List.map_id', whole]

/-- The text stands at the start of `buf`. -/
theorem printed_text (mem : Mem) (text : List UInt8) :
    ((List.range text.length).map fun i => printed mem text (0 + i)) = text := by
  apply List.ext_getElem
  · rw [List.length_map, List.length_range]
  · intro i _ inside
    have some : text ≠ [] := List.ne_nil_of_length_pos (Nat.lt_of_le_of_lt i.zero_le inside)
    rw [List.getElem_map, List.getElem_range, printed_of_ne_nil some, sprintf]
    dsimp only
    rw [store_of_mem (Nat.zero_le _) (by omega), Nat.zero_add, Nat.sub_zero,
      List.getD_eq_getElem _ _ inside]

/-- The first call delivers the text. -/
theorem myread_text (mem : Mem) {ubuf : UserBuf} (len : Nat)
    (reaches : groupWidth current threads ≤ ubuf.reach 0) :
    (myread current threads mem ubuf len 0).result = .ok (text current threads).length ∧
      (myread current threads mem ubuf len 0).delivered = text current threads ∧
      (myread current threads mem ubuf len 0).offset = (text current threads).length := by
  rw [← length_text] at reaches
  have copied : ubuf.copied 0 (text current threads).length = (text current threads).length :=
    Nat.min_eq_left reaches
  have all : u32 ((text current threads).length - (text current threads).length) = 0 := by
    rw [Nat.sub_self]
    rfl
  rw [myread_zero]
  simp only [copyToUser, copied, all, ne_eq, not_true, if_false]
  exact ⟨trivial, printed_text mem _, trivial⟩

/-- The second call finds the end. -/
theorem streamOf_text {ubuf : UserBuf} (len : Nat) (later : List Thread)
    (more : List (List Thread)) (mem : Mem)
    (reaches : groupWidth current threads ≤ ubuf.reach 0) :
    streamOf current ubuf len (threads :: later :: more) mem 0 = some (text current threads) := by
  rcases myread_text mem len reaches with ⟨result, delivered, offset⟩
  rw [streamOf]
  cases size : (text current threads).length with
  | zero =>
      rw [size] at result
      rw [result, List.length_eq_zero_iff.mp size]
  | succ n =>
      rw [size] at result offset
      have ending : (streamOf current ubuf len (later :: more)
          (myread current threads mem ubuf len 0).mem (n + 1)) = some [] := by
        rw [streamOf, myread, if_pos (Nat.succ_pos n)]
      rw [result]
      dsimp only
      rw [offset, ending, delivered, Option.map_some, List.append_nil]

/-- As long as the lines fit in `buf` and in the buffer of the stream, nothing is written outside
`buf`, and `main` prints the text, which can be read back as the numbers of all other threads,
in their order; later calls of the kernel, whatever threads there are then, add nothing. -/
theorem printed_lines_read_back {ubuf : UserBuf} {len : Nat}
    (short : groupWidth current threads < bufSize) (fits : groupWidth current threads ≤ len)
    (mapped : len ≤ ubuf.reach 0) (later : List Thread) (more : List (List Thread)) (mem : Mem) :
    (∀ a, bufSize ≤ a → (myread current threads mem ubuf len 0).mem a = mem a) ∧
      mainPrints current ubuf len (threads :: later :: more) mem = some (text current threads) ∧
      scanLines (others current threads).length (text current threads) =
        some ((others current threads).map (entry current)) := by
  have inBounds := (inBounds_iff current threads ubuf len).mpr ⟨short, .inl fits⟩
  constructor
  · exact inBounds.kernel mem
  · refine ⟨?_, scanLines_lines current _ (Nat.le_refl _)⟩
    rw [mainPrints, streamOf_text len later more mem (fits.trans mapped), Option.map_some,
      printLoop_eq (zero_notMem_text current threads)]

/-- One other thread. -/
theorem printed_lines_read_back_oneOther :
    ∃ out, mainPrints ⟨7, 120, 0⟩ ThreadInfo.mapped 1024 [[⟨7, 120, 0⟩, ⟨8, 120, 1⟩], []]
      (fun _ => 0) = some out ∧ scanLines 1 out = some [⟨7, 8, 120, 1⟩] := by
  have few : (others ⟨7, 120, 0⟩ [⟨7, 120, 0⟩, ⟨8, 120, 1⟩]).length ≤ 13 := by decide
  have short := groupWidth_lt few
  have result := @printed_lines_read_back ⟨7, 120, 0⟩ [⟨7, 120, 0⟩, ⟨8, 120, 1⟩]
    ThreadInfo.mapped 1024 short (Nat.le_of_lt short) (by decide) [] [] fun _ => 0
  exact ⟨_, result.2⟩

end NckuOs.ProcLog.ThreadInfo
