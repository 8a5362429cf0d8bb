import NckuOs.Lib.Chunks
import NckuOs.Ipc.Invariant
import Mathlib.Data.List.TakeWhile

/-!
# What `main` of the sender sends

The loop of `main` reads with `fgets`, so that a long line comes in several pieces, cuts
each piece at its newline, and sends it as a message of type 1.  The end marker, of type
2, is the last message.
-/

namespace NckuOs.Ipc

open NckuOs.Chunks

/-- `\n`. -/
def newline : UInt8 := 10

/-- The line `EOF`. -/
def eofLine : List UInt8 := [69, 79, 70]

/-- What the calls of `fgets` read; `line_buffer` has the size of `msgText`. -/
def linesOf (file : List UInt8) : List (List UInt8) :=
  chunks newline (textSize - 1) file

/-- The string in `line_buffer` after `line_buffer[strcspn(line_buffer, "\n")] = '\0'`. -/
def lineText (line : List UInt8) : List UInt8 :=
  line.takeWhile fun c => c ≠ newline ∧ c ≠ 0

/-- `strncpy` of a text, and the type that `main` gives it. -/
def Message.ofText (mType : Nat) (text : List UInt8) : Message :=
  { Message.ofLine text with mType := mType }

/-- The type and the text of a message. -/
def Message.pair (message : Message) : Nat × List UInt8 :=
  (message.mType, message.text)

theorem text_of_pair {message message' : Message} (same : message.pair = message'.pair) :
    message.text = message'.text :=
  congrArg Prod.snd same

theorem isExit_iff {message : Message} : message.isExit = true ↔ message.text = exitMessage := by
  rw [Message.isExit, decide_eq_true_eq]

/-- The message that ends the stream. -/
def endMarker : Message :=
  .ofText 2 exitMessage

/-- The loop of `main`, and what follows it when no line was `EOF`. -/
def sendLoop : List (List UInt8) → List Message
  | [] => [endMarker]
  | line :: rest =>
      if lineText line = eofLine then [endMarker]
      else .ofText 1 (lineText line) :: sendLoop rest

/-- The messages that `main` sends for a file. -/
def sentMessages (file : List UInt8) : List Message :=
  sendLoop (linesOf file)

/-- The texts of the lines in front of the first `EOF`. -/
def ordinaryTexts (file : List UInt8) : List (List UInt8) :=
  ((linesOf file).map lineText).takeWhile fun text => text ≠ eofLine

/-- `fgets` misses nothing of the file. -/
theorem linesOf_flatten (file : List UInt8) : (linesOf file).flatten = file :=
  flatten_chunks (by decide) file

theorem fits_lineText {file line : List UInt8} (isMem : line ∈ linesOf file) :
    Fits (lineText line) where
  noNul isZero := by
    have passes := List.mem_takeWhile_imp isZero
    rw [decide_eq_true_eq] at passes
    exact passes.2 rfl
  length := by
    have short : (lineText line).length ≤ line.length := (List.takeWhile_prefix _).length_le
    have inBuffer : line.length ≤ textSize - 1 := length_le_of_mem_chunks isMem
    exact Nat.lt_of_le_of_lt (short.trans inBuffer) (by decide)

theorem fits_ordinary {file text : List UInt8} (isMem : text ∈ ordinaryTexts file) :
    Fits text := by
  rcases List.mem_map.mp ((List.takeWhile_prefix _).subset isMem) with ⟨line, inFile, rfl⟩
  exact fits_lineText inFile

theorem fits_exitMessage : Fits exitMessage where
  noNul := by decide
  length := by decide

theorem text_ofText {text : List UInt8} (fits : Fits text) (mType : Nat) :
    (Message.ofText mType text).text = text :=
  Message.text_ofLine fits.noNul fits.length

theorem sendLoop_eq (lines : List (List UInt8)) :
    sendLoop lines =
      ((lines.map lineText).takeWhile fun text => text ≠ eofLine).map (.ofText 1) ++
        [endMarker] := by
  induction lines with
  | nil => rfl
  | cons line rest ih =>
      unfold sendLoop
      rw [List.map_cons]
      split
      next isEof =>
        rw [List.takeWhile_cons_of_neg (by simpa using isEof)]
        rfl
      next notEof =>
        rw [List.takeWhile_cons_of_pos (by simpa using notEof), ih]
        rfl

/-- The ordinary messages, then the end marker. -/
theorem sentMessages_eq (file : List UInt8) :
    sentMessages file = (ordinaryTexts file).map (.ofText 1) ++ [endMarker] :=
  sendLoop_eq (linesOf file)

theorem texts_sentMessages (file : List UInt8) :
    (sentMessages file).map Message.text = ordinaryTexts file ++ [exitMessage] := by
  have ordinary :
      ((ordinaryTexts file).map (Message.ofText 1)).map Message.text = ordinaryTexts file := by
    rw [List.map_map]
    calc
      (ordinaryTexts file).map (Message.text ∘ Message.ofText 1) = (ordinaryTexts file).map id := by
        apply List.map_congr_left
        intro text isMem
        exact text_ofText (fits_ordinary isMem) 1
      _ = ordinaryTexts file := List.map_id _
  rw [sentMessages_eq, List.map_append, ordinary, List.map_singleton, endMarker,
    text_ofText fits_exitMessage]

/-- With no line that spells the exit message the marker is told from the ordinary
messages by its text. -/
theorem stream_sentMessages {file : List UInt8} (noExit : exitMessage ∉ ordinaryTexts file) :
    Stream ((sentMessages file).map Message.text) where
  fits text isMem := by
    rw [texts_sentMessages] at isMem
    rcases List.mem_append.mp isMem with ordinary | isMarker
    · exact fits_ordinary ordinary
    · rw [List.mem_singleton.mp isMarker]
      exact fits_exitMessage
  ends := ⟨ordinaryTexts file, texts_sentMessages file, noExit⟩

end NckuOs.Ipc
