import Mathlib.Data.List.Forall2
import NckuOs.Lib.Lines
import NckuOs.Ipc.Lines

/-!
# The lines of a file and the messages

A line that fits in `msgText` should be one message and nothing more.  `fgets` cuts the
file into pieces instead: a line of 1023 characters leaves its newline for a piece of its
own, and the end of a longer line can spell `EOF`.
-/

namespace NckuOs.Ipc

open NckuOs.Chunks NckuOs.Lines

/-- The characters that `fgets` reads into `line_buffer`. -/
def lineRoom : Nat := textSize - 1

/-- The lines in front of the first line `EOF`. -/
def frontLines (file : List UInt8) : List (Line UInt8) :=
  (lines newline file).takeWhile fun line => line.symbols ≠ eofLine

/-- A line that fits is one message; messages for a longer line make it up, and none of them
stands in front of its text. -/
def SentAs (line : List UInt8) (group : List (List UInt8)) : Prop :=
  if line.length ≤ lineRoom then group = [line]
  else group.flatten = line ∧ group.head? ≠ some []

/-- The messages are those of the lines in front of `EOF`, and then one exit message. -/
def SentByLine (file : List UInt8) : Prop :=
  ∃ groups, List.Forall₂ SentAs ((frontLines file).map Line.symbols) groups ∧
    (sentMessages file).map Message.pair =
      groups.flatten.map (fun text => (1, text)) ++ [(2, exitMessage)]

/-- No line fills the buffer in front of its newline, and behind full buffers no rest of a
line is `EOF`. -/
def CutWell (file : List UInt8) : Prop :=
  ∀ line ∈ frontLines file, ¬(line.ended = true ∧ line.symbols.length = lineRoom) ∧
    ∀ k, line.symbols.drop (lineRoom * k) ≠ eofLine

theorem lineRoom_pos : 0 < lineRoom := by decide

theorem SentAs.flatten {line : List UInt8} {group : List (List UInt8)}
    (sent : SentAs line group) : group.flatten = line := by
  unfold SentAs at sent
  split at sent
  · rw [sent, List.flatten_singleton]
  · exact sent.1

theorem SentAs.framed {line : List UInt8} {group : List (List UInt8)}
    (sent : SentAs line group) : Framed line group := by
  refine ⟨sent.flatten, ?_, ?_⟩
  · intro nonempty
    unfold SentAs at sent
    split at sent
    · rw [sent]
      simpa using nonempty
    · exact sent.2
  · rintro rfl
    exact sent

/-- What the reads make of a line is its messages, unless it fills the buffer. -/
theorem sentAs_pieces_iff {line : Line UInt8} (proper : line.Proper newline) :
    SentAs line.symbols (pieces newline lineRoom line) ↔
      ¬(line.ended = true ∧ line.symbols.length = lineRoom) := by
  unfold SentAs
  split
  next fits => exact pieces_eq_singleton_iff lineRoom_pos proper fits
  next long =>
    have framed := framed_pieces lineRoom_pos proper
    have nonempty : line.symbols ≠ [] := by
      intro nothing
      rw [nothing] at long
      exact long (Nat.zero_le _)
    constructor
    · rintro _ ⟨_, full⟩
      exact long full.le
    · intro _
      exact ⟨framed.whole, framed.head nonempty⟩

theorem proper_of_front {file : List UInt8} {line : Line UInt8}
    (isMem : line ∈ frontLines file) : line.Proper newline :=
  proper_of_mem ((List.takeWhile_prefix _).subset isMem)

/-! ## The texts of the pieces -/

theorem lineText_of_noNul {file line : List UInt8} (noNul : 0 ∉ file)
    (isMem : line ∈ linesOf file) : lineText line = line.takeWhile fun c => c ≠ newline := by
  have inFile : ∀ c ∈ line, c ≠ 0 := by
    rintro c inLine rfl
    rw [← linesOf_flatten file] at noNul
    exact noNul (List.mem_flatten_of_mem isMem inLine)
  clear isMem
  induction line with
  | nil => rfl
  | cons c line ih =>
      have rest := ih fun d later => inFile d (List.mem_cons_of_mem c later)
      have notNul := inFile c List.mem_cons_self
      unfold lineText at rest ⊢
      rw [List.takeWhile_cons, List.takeWhile_cons, rest]
      simp [notNul]

/-- The texts that the reads give, line by line. -/
theorem texts_linesOf {file : List UInt8} (noNul : 0 ∉ file) :
    (linesOf file).map lineText = (lines newline file).flatMap (pieces newline lineRoom) := by
  calc
    (linesOf file).map lineText = (linesOf file).map (List.takeWhile fun c => c ≠ newline) :=
      List.map_congr_left fun line isMem => lineText_of_noNul noNul isMem
    _ = (lines newline file).flatMap (pieces newline lineRoom) := by
      rw [linesOf, chunks_eq_flatMap (by decide), List.map_flatMap]
      rfl

theorem pieces_eof {line : Line UInt8} (isEof : line.symbols = eofLine) :
    pieces newline lineRoom line = [eofLine] := by
  have proper : line.Proper newline := by
    constructor
    · rw [isEof]
      decide
    · intro _
      rw [isEof]
      decide
  rw [pieces_of_lt proper (by rw [isEof]; decide), isEof]

/-- Nothing behind the first line `EOF` is sent. -/
theorem takeWhile_pieces (all : List (Line UInt8)) :
    (all.flatMap (pieces newline lineRoom)).takeWhile (fun text => text ≠ eofLine) =
      ((all.takeWhile fun line => line.symbols ≠ eofLine).flatMap
        (pieces newline lineRoom)).takeWhile (fun text => text ≠ eofLine) := by
  induction all with
  | nil => rfl
  | cons line rest ih =>
      by_cases isEof : line.symbols = eofLine
      · rw [List.takeWhile_cons_of_neg (by simpa using isEof), List.flatMap_cons,
          pieces_eof isEof]
        rfl
      · rw [List.takeWhile_cons_of_pos (by simpa using isEof), List.flatMap_cons,
          List.flatMap_cons, List.takeWhile_append, List.takeWhile_append, ih]

theorem ordinaryTexts_eq {file : List UInt8} (noNul : 0 ∉ file) :
    ordinaryTexts file =
      ((frontLines file).flatMap (pieces newline lineRoom)).takeWhile
        (fun text => text ≠ eofLine) := by
  rw [ordinaryTexts, texts_linesOf noNul, takeWhile_pieces]
  rfl

theorem pairs_sentMessages (file : List UInt8) :
    (sentMessages file).map Message.pair =
      (ordinaryTexts file).map (fun text => (1, text)) ++ [(2, exitMessage)] := by
  have ordinary : ((ordinaryTexts file).map (Message.ofText 1)).map Message.pair =
      (ordinaryTexts file).map fun text => (1, text) := by
    rw [List.map_map]
    apply List.map_congr_left
    intro text isMem
    exact congrArg (Prod.mk 1) (text_ofText (fits_ordinary isMem) 1)
  have marker : endMarker.pair = (2, exitMessage) :=
    congrArg (Prod.mk 2) (text_ofText fits_exitMessage 2)
  rw [sentMessages_eq, List.map_append, ordinary, List.map_singleton, marker]

/-! ## When no piece is `EOF` -/

theorem eof_mem_pieces_iff {file : List UInt8} :
    eofLine ∈ (frontLines file).flatMap (pieces newline lineRoom) ↔
      ∃ line ∈ frontLines file, ∃ k, line.symbols.drop (lineRoom * k) = eofLine := by
  rw [List.mem_flatMap]
  constructor
  · rintro ⟨line, isMem, isPiece⟩
    refine ⟨line, isMem, ?_⟩
    exact (mem_pieces_iff lineRoom_pos (proper_of_front isMem).noStop (by decide)
      (by decide)).mp isPiece
  · rintro ⟨line, isMem, atEnd⟩
    refine ⟨line, isMem, ?_⟩
    exact (mem_pieces_iff lineRoom_pos (proper_of_front isMem).noStop (by decide)
      (by decide)).mpr atEnd

theorem takeWhile_of_notMem_eof {texts : List (List UInt8)} (noEof : eofLine ∉ texts) :
    texts.takeWhile (fun text => text ≠ eofLine) = texts := by
  rw [List.takeWhile_eq_self_iff]
  intro text isMem
  rw [decide_eq_true_eq]
  rintro rfl
  exact noEof isMem

theorem flatten_flatMap_pieces {front : List (Line UInt8)}
    (proper : ∀ line ∈ front, line.Proper newline) :
    (front.flatMap (pieces newline lineRoom)).flatten = (front.map Line.symbols).flatten := by
  induction front with
  | nil => rfl
  | cons line front ih =>
      have whole := flatten_pieces lineRoom_pos (proper line List.mem_cons_self).noStop
      rw [List.flatMap_cons, List.flatten_append, List.map_cons, List.flatten_cons, whole,
        ih fun line' later => proper line' (List.mem_cons_of_mem line later)]

theorem flatten_groups {texts : List (List UInt8)} {groups : List (List (List UInt8))}
    (sent : List.Forall₂ SentAs texts groups) : groups.flatten.flatten = texts.flatten := by
  induction sent with
  | nil => rfl
  | cons first _ ih =>
      rw [List.flatten_cons, List.flatten_append, first.flatten, ih, List.flatten_cons]

/-- Text is missing when a piece is `EOF`. -/
theorem noEof_of_flatten {texts : List (List UInt8)}
    (whole : (texts.takeWhile fun text => text ≠ eofLine).flatten = texts.flatten) :
    eofLine ∉ texts := by
  induction texts with
  | nil => exact List.not_mem_nil
  | cons text texts ih =>
      by_cases isEof : text = eofLine
      · subst isEof
        rw [List.takeWhile_cons_of_neg (by simp)] at whole
        cases whole
      · rw [List.takeWhile_cons_of_pos (by simpa using isEof), List.flatten_cons,
          List.flatten_cons] at whole
        rw [List.mem_cons, not_or]
        exact ⟨Ne.symm isEof, ih (List.append_cancel_left whole)⟩

/-! ## Framing -/

/-- Line by line the messages are as they should be exactly when every line is cut well. -/
theorem forall₂_pieces_iff {front : List (Line UInt8)}
    (proper : ∀ line ∈ front, line.Proper newline) :
    List.Forall₂ SentAs (front.map Line.symbols) (front.map (pieces newline lineRoom)) ↔
      ∀ line ∈ front, ¬(line.ended = true ∧ line.symbols.length = lineRoom) := by
  rw [List.forall₂_map_left_iff, List.forall₂_map_right_iff, List.forall₂_same]
  constructor
  · intro sent line isMem
    exact (sentAs_pieces_iff (proper line isMem)).mp (sent line isMem)
  · intro notFull line isMem
    exact (sentAs_pieces_iff (proper line isMem)).mpr (notFull line isMem)

theorem framing_pieces {front : List (Line UInt8)}
    (proper : ∀ line ∈ front, line.Proper newline) :
    List.Forall₂ Framed (front.map Line.symbols) (front.map (pieces newline lineRoom)) := by
  rw [List.forall₂_map_left_iff, List.forall₂_map_right_iff, List.forall₂_same]
  exact fun line isMem => framed_pieces lineRoom_pos (proper line isMem)

theorem cutWell_of_sentByLine {file : List UInt8} (noNul : 0 ∉ file)
    (byLine : SentByLine file) : CutWell file := by
  have proper : ∀ line ∈ frontLines file, line.Proper newline := fun _ isMem =>
    proper_of_front isMem
  have texts := ordinaryTexts_eq noNul
  rcases byLine with ⟨groups, sent, messages⟩
  rw [pairs_sentMessages] at messages
  have same : ordinaryTexts file = groups.flatten :=
    List.map_injective_iff.mpr (Prod.mk_right_injective 1) (List.append_cancel_right messages)
  have whole : (ordinaryTexts file).flatten =
      ((frontLines file).flatMap (pieces newline lineRoom)).flatten := by
    rw [same, flatten_groups sent, flatten_flatMap_pieces proper]
  have noEof : eofLine ∉ (frontLines file).flatMap (pieces newline lineRoom) :=
    noEof_of_flatten (texts ▸ whole)
  rw [takeWhile_of_notMem_eof noEof, same] at texts
  have framing : List.Forall₂ Framed ((frontLines file).map Line.symbols) groups :=
    sent.imp fun _ _ => SentAs.framed
  rcases framing_unique framing (framing_pieces proper) (i := 0) (j := 0) texts with ⟨_, rfl⟩
  have notFull := (forall₂_pieces_iff proper).mp sent
  intro line isMem
  refine ⟨notFull line isMem, fun k isEof => ?_⟩
  exact noEof (eof_mem_pieces_iff.mpr ⟨line, isMem, k, isEof⟩)

theorem sentByLine_of_cutWell {file : List UInt8} (noNul : 0 ∉ file)
    (cutWell : CutWell file) : SentByLine file := by
  have noEof : eofLine ∉ (frontLines file).flatMap (pieces newline lineRoom) := by
    rw [eof_mem_pieces_iff]
    rintro ⟨line, isMem, k, isEof⟩
    exact (cutWell line isMem).2 k isEof
  refine ⟨(frontLines file).map (pieces newline lineRoom), ?_, ?_⟩
  · have proper : ∀ line ∈ frontLines file, line.Proper newline := fun _ isMem =>
      proper_of_front isMem
    exact (forall₂_pieces_iff proper).mpr fun line isMem => (cutWell line isMem).1
  · rw [pairs_sentMessages, ordinaryTexts_eq noNul, takeWhile_of_notMem_eof noEof]
    rfl

/-- The sender sends the lines of a file without NUL characters exactly when no line in
front of `EOF` fills the buffer just in front of its newline, and the rest of none is `EOF`. -/
theorem sentByLine_iff {file : List UInt8} (noNul : 0 ∉ file) :
    SentByLine file ↔ CutWell file :=
  ⟨cutWell_of_sentByLine noNul, sentByLine_of_cutWell noNul⟩

/-- Lines with room for their newline are cut well. -/
theorem cutWell_of_short {file : List UInt8}
    (short : ∀ line ∈ frontLines file, line.symbols.length < lineRoom) : CutWell file := by
  intro line isMem
  constructor
  · rintro ⟨_, full⟩
    exact absurd full (short line isMem).ne
  · intro k isEof
    cases k with
    | zero =>
        have notEof := List.mem_takeWhile_imp isMem
        rw [decide_eq_true_eq] at notEof
        exact notEof isEof
    | succ k =>
        have passed : line.symbols.length ≤ lineRoom * (k + 1) :=
          (short line isMem).le.trans (Nat.le_mul_of_pos_right lineRoom (Nat.succ_pos k))
        rw [List.drop_eq_nil_of_le passed] at isEof
        cases isEof

theorem sentByLine_hi : SentByLine [104, 105, newline] :=
  (sentByLine_iff (by decide)).mpr (cutWell_of_short (by decide))

/-- 1023 characters, and what follows them. -/
def fullBuffer (rest : List UInt8) : List UInt8 :=
  List.replicate lineRoom 97 ++ rest

/-- A full line is followed by an empty message, and the end of a longer one passes for
`EOF`. -/
theorem not_sentByLine_fullBuffer :
    (0 ∉ fullBuffer [newline] ∧ ¬SentByLine (fullBuffer [newline])) ∧
      0 ∉ fullBuffer eofLine ∧ ¬SentByLine (fullBuffer eofLine) := by
  have noNul : 0 ∉ fullBuffer [newline] := by decide +kernel
  have noNul' : 0 ∉ fullBuffer eofLine := by decide +kernel
  have line : ⟨fullBuffer [], true⟩ ∈ frontLines (fullBuffer [newline]) := by decide +kernel
  have line' : ⟨fullBuffer eofLine, false⟩ ∈ frontLines (fullBuffer eofLine) := by
    decide +kernel
  refine ⟨⟨noNul, ?_⟩, noNul', ?_⟩
  · intro byLine
    exact (cutWell_of_sentByLine noNul byLine _ line).1 ⟨rfl, by decide +kernel⟩
  · intro byLine
    exact (cutWell_of_sentByLine noNul' byLine _ line').2 1 (by decide +kernel)

end NckuOs.Ipc
