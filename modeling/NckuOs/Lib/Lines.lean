import Mathlib.Data.List.TakeWhile
import NckuOs.Lib.Chunks

/-!
# Lines and the chunks that they are read in

A line ends at its stop symbol or at the end of the text.  A reader with a small buffer
gets a long line in several chunks, and never two lines in one.
-/

namespace NckuOs.Lines

open NckuOs.Chunks

universe u

/-- A line without its stop symbol, and whether it has one. -/
structure Line (α : Type u) where
  symbols : List α
  ended : Bool
  deriving DecidableEq

variable {α : Type u} [DecidableEq α] (stop : α)

/-- The symbols that a line takes in the text. -/
def Line.raw (line : Line α) : List α :=
  line.symbols ++ if line.ended then [stop] else []

/-- The lines of a text. -/
def lines : List α → List (Line α)
  | [] => []
  | c :: rest =>
      if c = stop then ⟨[], true⟩ :: lines rest
      else
        match lines rest with
        | [] => [⟨[c], false⟩]
        | line :: more => ⟨c :: line.symbols, line.ended⟩ :: more

variable {stop}

/-- A line of some text. -/
structure Line.Proper (stop : α) (line : Line α) : Prop where
  noStop : stop ∉ line.symbols
  nonempty : line.ended = false → line.symbols ≠ []

/-- The first line, and the lines of what is behind it. -/
theorem lines_eq_cons (stop : α) {text : List α} (nonempty : text ≠ []) :
    ∃ line rest, text = line.raw stop ++ rest ∧ lines stop text = line :: lines stop rest ∧
      line.Proper stop ∧ (line.ended = false → rest = []) := by
  induction text with
  | nil => exact absurd rfl nonempty
  | cons c text ih =>
      by_cases isStop : c = stop
      · subst isStop
        refine ⟨⟨[], true⟩, text, rfl, ?_, ⟨List.not_mem_nil, ?_⟩, ?_⟩
        · rw [lines, if_pos rfl]
        · intro ended
          cases ended
        · intro ended
          cases ended
      · have noStop {symbols : List α} (behind : stop ∉ symbols) : stop ∉ c :: symbols := by
          rw [List.mem_cons, not_or]
          exact ⟨Ne.symm isStop, behind⟩
        by_cases last : text = []
        · subst last
          refine ⟨⟨[c], false⟩, [], rfl, ?_, ⟨noStop List.not_mem_nil, ?_⟩, fun _ => rfl⟩
          · simp only [lines, if_neg isStop]
          · exact fun _ => List.cons_ne_nil c []
        · rcases ih last with ⟨line, rest, rfl, found, proper, final⟩
          refine ⟨⟨c :: line.symbols, line.ended⟩, rest, rfl, ?_,
            ⟨noStop proper.noStop, fun _ => List.cons_ne_nil c _⟩, final⟩
          rw [lines, if_neg isStop, found]

omit [DecidableEq α] in
theorem Line.Proper.raw_ne_nil {line : Line α} (proper : line.Proper stop) :
    line.raw stop ≠ [] := by
  rcases line with ⟨symbols, ended⟩
  cases ended with
  | false => simpa [Line.raw] using proper.nonempty rfl
  | true => simp [Line.raw]

theorem proper_of_mem {text : List α} {line : Line α} (isMem : line ∈ lines stop text) :
    line.Proper stop := by
  induction size : text.length using Nat.strong_induction_on generalizing text with
  | _ size ih =>
      by_cases nonempty : text = []
      · subst nonempty
        cases isMem
      · rcases lines_eq_cons stop nonempty with ⟨first, rest, rfl, found, proper, _⟩
        rw [found] at isMem
        rcases List.mem_cons.mp isMem with rfl | later
        · exact proper
        · have positive := List.length_pos_iff.mpr proper.raw_ne_nil
          rw [List.length_append] at size
          exact ih rest.length (by omega) later rfl

/-! ## Chunks of lines -/

variable {n : Nat}

/-- Reading up to a stop symbol leaves what is behind it. -/
theorem cut_append_right {front : List α} (ends : front.getLast? = some stop) (n : Nat)
    (rest : List α) :
    cut stop n (front ++ rest) = ((cut stop n front).1, (cut stop n front).2 ++ rest) ∧
      ((cut stop n front).2 = [] ∨ (cut stop n front).2.getLast? = some stop) := by
  induction n generalizing front with
  | zero => exact ⟨rfl, .inr ends⟩
  | succ n ih =>
      cases front with
      | nil => cases ends
      | cons c front =>
          by_cases isStop : c = stop
          · simp only [List.cons_append, cut, if_pos isStop]
            refine ⟨trivial, ?_⟩
            cases front with
            | nil => exact .inl rfl
            | cons d front =>
                rw [List.getLast?_cons_cons] at ends
                exact .inr ends
          · simp only [List.cons_append, cut, if_neg isStop]
            have behind : front.getLast? = some stop := by
              cases front with
              | nil =>
                  rw [List.getLast?_singleton, Option.some.injEq] at ends
                  exact absurd ends isStop
              | cons d front =>
                  rw [List.getLast?_cons_cons] at ends
                  exact ends
            rcases ih behind with ⟨read, left⟩
            rw [read]
            exact ⟨rfl, left⟩

/-- A stop symbol ends a chunk. -/
theorem chunks_append (positive : 0 < n) {front : List α} (ends : front.getLast? = some stop)
    (rest : List α) :
    chunks stop n (front ++ rest) = chunks stop n front ++ chunks stop n rest := by
  induction size : front.length using Nat.strong_induction_on generalizing front with
  | _ size ih =>
      have nonempty : front ≠ [] := by
        rintro rfl
        cases ends
      rcases cut_append_right ends n rest with ⟨read, left⟩
      rw [chunks_eq_cons positive (List.append_ne_nil_of_left_ne_nil nonempty rest),
        chunks_eq_cons positive nonempty, read]
      rcases left with done | more
      · rw [done]
        rfl
      · rw [ih _ (size ▸ length_cut_lt positive nonempty) more rfl]
        rfl

/-- A text is read line by line. -/
theorem chunks_eq_flatMap (positive : 0 < n) (text : List α) :
    chunks stop n text = (lines stop text).flatMap fun line => chunks stop n (line.raw stop) := by
  induction size : text.length using Nat.strong_induction_on generalizing text with
  | _ size ih =>
      by_cases nonempty : text = []
      · subst nonempty
        rfl
      · rcases lines_eq_cons stop nonempty with ⟨line, rest, rfl, found, proper, final⟩
        rw [found, List.flatMap_cons]
        have rawPositive := List.length_pos_iff.mpr proper.raw_ne_nil
        rw [List.length_append] at size
        rw [← ih rest.length (by omega) rest rfl]
        cases ended : line.ended with
        | false =>
            rw [final ended, List.append_nil]
            exact (List.append_nil _).symm
        | true =>
            apply chunks_append positive
            simp [Line.raw, ended]

/-! ## The pieces of a line -/

/-- The chunks of a line without the stop symbol. -/
def pieces (stop : α) (n : Nat) (line : Line α) : List (List α) :=
  (chunks stop n (line.raw stop)).map (List.takeWhile fun c => c ≠ stop)

theorem cut_of_le {symbols : List α} (noStop : stop ∉ symbols) (rest : List α)
    (long : n ≤ symbols.length) :
    cut stop n (symbols ++ rest) = (symbols.take n, symbols.drop n ++ rest) := by
  induction n generalizing symbols with
  | zero => rfl
  | succ n ih =>
      cases symbols with
      | nil => cases long
      | cons c symbols =>
          rw [List.mem_cons, not_or] at noStop
          simp only [List.cons_append, cut, if_neg (Ne.symm noStop.1)]
          rw [ih noStop.2 (Nat.le_of_succ_le_succ long)]
          rfl

theorem cut_of_lt {line : Line α} (noStop : stop ∉ line.symbols) (short : line.symbols.length < n) :
    cut stop n (line.raw stop) = (line.raw stop, []) := by
  rcases line with ⟨symbols, ended⟩
  induction n generalizing symbols with
  | zero => cases short
  | succ n ih =>
      cases symbols with
      | nil => cases ended <;> simp [Line.raw, cut]
      | cons c symbols =>
          rw [List.mem_cons, not_or] at noStop
          have behind := ih symbols noStop.2 (Nat.lt_of_succ_lt_succ short)
          unfold Line.raw at behind ⊢
          dsimp only at behind ⊢
          simp only [List.cons_append, cut, if_neg (Ne.symm noStop.1), behind]

theorem takeWhile_of_notMem {symbols : List α} (noStop : stop ∉ symbols) :
    symbols.takeWhile (fun c => c ≠ stop) = symbols := by
  rw [List.takeWhile_eq_self_iff]
  intro c isMem
  rw [decide_eq_true_eq]
  rintro rfl
  exact noStop isMem

theorem Line.takeWhile_raw {line : Line α} (noStop : stop ∉ line.symbols) :
    (line.raw stop).takeWhile (fun c => c ≠ stop) = line.symbols := by
  rcases line with ⟨symbols, ended⟩
  cases ended with
  | false =>
      rw [Line.raw, if_neg Bool.false_ne_true, List.append_nil]
      exact takeWhile_of_notMem noStop
  | true =>
      rw [Line.raw, if_pos rfl, List.takeWhile_append_of_pos]
      · simp
      · intro c isMem
        rw [decide_eq_true_eq]
        rintro rfl
        exact noStop isMem

/-- Nothing is left of a line without a stop symbol. -/
theorem pieces_nil (stop : α) (n : Nat) : pieces stop n ⟨[], false⟩ = [] :=
  rfl

/-- A line with room for its stop symbol is one piece. -/
theorem pieces_of_lt {line : Line α} (proper : line.Proper stop)
    (short : line.symbols.length < n) : pieces stop n line = [line.symbols] := by
  have positive : 0 < n := Nat.lt_of_le_of_lt (Nat.zero_le _) short
  rw [pieces, chunks_eq_cons positive proper.raw_ne_nil, cut_of_lt proper.noStop short,
    List.map_cons, line.takeWhile_raw proper.noStop]
  rfl

/-- A longer line fills the buffer and goes on. -/
theorem pieces_of_le (positive : 0 < n) {line : Line α} (noStop : stop ∉ line.symbols)
    (long : n ≤ line.symbols.length) :
    pieces stop n line =
      line.symbols.take n :: pieces stop n ⟨line.symbols.drop n, line.ended⟩ := by
  have nonempty : line.raw stop ≠ [] := by
    have some := List.ne_nil_of_length_pos (Nat.lt_of_lt_of_le positive long)
    exact List.append_ne_nil_of_left_ne_nil some _
  have front : stop ∉ line.symbols.take n := fun isMem => noStop (List.mem_of_mem_take isMem)
  rw [pieces, chunks_eq_cons positive nonempty, Line.raw, cut_of_le noStop _ long,
    List.map_cons, takeWhile_of_notMem front]
  rfl

omit [DecidableEq α] in
theorem not_mem_drop {symbols : List α} (noStop : stop ∉ symbols) (n : Nat) :
    stop ∉ symbols.drop n :=
  fun isMem => noStop (List.mem_of_mem_drop isMem)

/-- The pieces of a line, by its length: what is left of it may be nothing at all. -/
theorem pieces_induction (stop : α) (positive : 0 < n)
    {motive : (line : Line α) → stop ∉ line.symbols → Prop}
    (nothing : motive ⟨[], false⟩ List.not_mem_nil)
    (short : ∀ line, (proper : line.Proper stop) → line.symbols.length < n →
      motive line proper.noStop)
    (long : ∀ line, (noStop : stop ∉ line.symbols) → n ≤ line.symbols.length →
      motive ⟨line.symbols.drop n, line.ended⟩ (not_mem_drop noStop n) → motive line noStop)
    {line : Line α} (noStop : stop ∉ line.symbols) : motive line noStop := by
  induction size : line.symbols.length using Nat.strong_induction_on generalizing line with
  | _ size ih =>
      by_cases fits : line.symbols.length < n
      · by_cases last : line = ⟨[], false⟩
        · subst last
          exact nothing
        · refine short line ⟨noStop, ?_⟩ fits
          intro notEnded noSymbols
          exact last (by rw [← noSymbols, ← notEnded])
      · have reaches : n ≤ line.symbols.length := Nat.le_of_not_lt fits
        apply long line noStop reaches
        refine ih (line.symbols.length - n) (by omega) (not_mem_drop noStop n) ?_
        exact List.length_drop

theorem flatten_pieces (positive : 0 < n) {line : Line α} (noStop : stop ∉ line.symbols) :
    (pieces stop n line).flatten = line.symbols := by
  induction noStop using pieces_induction stop positive with
  | nothing => rfl
  | short line proper fits => rw [pieces_of_lt proper fits, List.flatten_singleton]
  | long line noStop reaches ih =>
      rw [pieces_of_le positive noStop reaches, List.flatten_cons, ih, List.take_append_drop]

/-- The pieces that do not fill the buffer are the ends of the line. -/
theorem mem_pieces_iff (positive : 0 < n) {line : Line α} (noStop : stop ∉ line.symbols)
    {piece : List α} (nonempty : piece ≠ []) (short : piece.length < n) :
    piece ∈ pieces stop n line ↔ ∃ k, line.symbols.drop (n * k) = piece := by
  induction noStop using pieces_induction stop positive with
  | nothing =>
      rw [pieces_nil]
      simp [Ne.symm nonempty]
  | short line proper fits =>
      rw [pieces_of_lt proper fits, List.mem_singleton]
      constructor
      · rintro rfl
        exact ⟨0, rfl⟩
      · rintro ⟨k, rfl⟩
        cases k with
        | zero => rfl
        | succ k =>
            have passed : line.symbols.length ≤ n * (k + 1) :=
              fits.le.trans (Nat.le_mul_of_pos_right n (Nat.succ_pos k))
            exact absurd (List.drop_eq_nil_of_le passed) nonempty
  | long line noStop reaches ih =>
      rw [pieces_of_le positive noStop reaches, List.mem_cons, ih]
      constructor
      · rintro (rfl | ⟨k, rfl⟩)
        · rw [List.length_take, Nat.min_eq_left reaches] at short
          exact absurd short (Nat.lt_irrefl n)
        · refine ⟨k + 1, ?_⟩
          rw [List.drop_drop, Nat.mul_succ, Nat.add_comm]
      · rintro ⟨k, rfl⟩
        cases k with
        | zero => exact absurd reaches (Nat.not_le_of_lt short)
        | succ k =>
            refine .inr ⟨k, ?_⟩
            rw [List.drop_drop, Nat.mul_succ, Nat.add_comm]

/-- A line as long as the buffer leaves its stop symbol for a piece of its own. -/
theorem pieces_eq_singleton_iff (positive : 0 < n) {line : Line α} (proper : line.Proper stop)
    (fits : line.symbols.length ≤ n) :
    pieces stop n line = [line.symbols] ↔ ¬(line.ended = true ∧ line.symbols.length = n) := by
  rcases Nat.lt_or_eq_of_le fits with short | full
  · simp [pieces_of_lt proper short, short.ne]
  · rw [pieces_of_le positive proper.noStop full.ge, ← full, List.take_length, List.drop_length]
    have endOnly : (⟨[], true⟩ : Line α).Proper stop :=
      ⟨List.not_mem_nil, fun ended => by cases ended⟩
    cases ended : line.ended with
    | false => simp [pieces_nil]
    | true =>
        rw [full, pieces_of_lt endOnly positive]
        simp

/-! ## Framings -/

/-- A group of messages that carries one line: nothing stands in front of its text, and an
empty line is one empty message. -/
structure Framed (line : List α) (group : List (List α)) : Prop where
  whole : group.flatten = line
  head : line ≠ [] → group.head? ≠ some []
  empty : line = [] → group = [[]]

omit [DecidableEq α] in
theorem Framed.cons {line : List α} {group : List (List α)} (framed : Framed line group)
    (nonempty : line ≠ []) : ∃ first more, group = first :: more ∧ first ≠ [] := by
  cases group with
  | nil => exact absurd framed.whole.symm nonempty
  | cons first more =>
      refine ⟨first, more, rfl, ?_⟩
      rintro rfl
      exact framed.head nonempty rfl

omit [DecidableEq α] in
theorem replicate_append_inj {i j : Nat} {first first' : List α} {more more' : List (List α)}
    (nonempty : first ≠ []) (nonempty' : first' ≠ [])
    (same : List.replicate i [] ++ first :: more = List.replicate j [] ++ first' :: more') :
    i = j ∧ first :: more = first' :: more' := by
  induction i generalizing j with
  | zero =>
      cases j with
      | zero => exact ⟨rfl, same⟩
      | succ j => exact absurd (List.cons.inj same).1 nonempty
  | succ i ih =>
      cases j with
      | zero => exact absurd (List.cons.inj same).1.symm nonempty'
      | succ j =>
          rcases ih (List.cons.inj same).2 with ⟨rfl, rest⟩
          exact ⟨rfl, rest⟩

omit [DecidableEq α] in
theorem eq_replicate_of_flatten {messages : List (List α)} (nothing : messages.flatten = []) :
    messages = List.replicate messages.length [] := by
  rw [List.eq_replicate_iff]
  exact ⟨rfl, List.flatten_eq_nil_iff.mp nothing⟩

omit [DecidableEq α] in
/-- Two framings of the same lines that send the same messages are the same; neither can be
ahead by some empty messages. -/
theorem framing_unique {texts : List (List α)} {groups groups' : List (List (List α))}
    (framing : List.Forall₂ Framed texts groups) (framing' : List.Forall₂ Framed texts groups')
    {i j : Nat} (same : List.replicate i [] ++ groups.flatten =
      List.replicate j [] ++ groups'.flatten) : i = j ∧ groups = groups' := by
  induction framing generalizing groups' i j with
  | nil =>
      cases framing'
      have size := congrArg List.length same
      simp only [List.flatten_nil, List.append_nil, List.length_replicate] at size
      exact ⟨size, rfl⟩
  | @cons line group texts groups framed _ ih =>
      rcases framing' with _ | ⟨framed', framing'⟩
      next group' groups' =>
        rw [List.flatten_cons, List.flatten_cons] at same
        by_cases nonempty : line = []
        · rw [framed.empty nonempty, framed'.empty nonempty, ← List.append_assoc,
            ← List.append_assoc, ← List.replicate_succ', ← List.replicate_succ'] at same
          rcases ih framing' same with ⟨count, rest⟩
          rw [framed.empty nonempty, framed'.empty nonempty, rest]
          exact ⟨Nat.succ.inj count, rfl⟩
        · rcases framed.cons nonempty with ⟨first, more, startsWith, notEmpty⟩
          rcases framed'.cons nonempty with ⟨first', more', startsWith', notEmpty'⟩
          rw [startsWith, startsWith', List.cons_append, List.cons_append] at same
          rcases replicate_append_inj notEmpty notEmpty' same with ⟨count, rest⟩
          rw [← List.cons_append, ← List.cons_append, ← startsWith, ← startsWith'] at rest
          have bytes : group.flatten = group'.flatten := framed.whole.trans framed'.whole.symm
          rcases List.append_eq_append_iff.mp rest with
            ⟨between, longer, shifted⟩ | ⟨between, longer, shifted⟩
          · rw [longer, List.flatten_append, List.self_eq_append_right] at bytes
            rw [eq_replicate_of_flatten bytes] at shifted
            rcases ih framing' (i := 0) shifted with ⟨none, rest⟩
            rw [List.eq_nil_of_length_eq_zero none.symm, List.append_nil] at longer
            rw [longer, rest]
            exact ⟨count, rfl⟩
          · rw [longer, List.flatten_append, List.append_right_eq_self] at bytes
            rw [eq_replicate_of_flatten bytes] at shifted
            rcases ih framing' (j := 0) shifted.symm with ⟨none, rest⟩
            rw [List.eq_nil_of_length_eq_zero none, List.append_nil] at longer
            rw [longer, rest]
            exact ⟨count, rfl⟩

theorem framed_pieces (positive : 0 < n) {line : Line α} (proper : line.Proper stop) :
    Framed line.symbols (pieces stop n line) := by
  refine ⟨flatten_pieces positive proper.noStop, ?_, ?_⟩
  · intro nonempty
    by_cases short : line.symbols.length < n
    · rw [pieces_of_lt proper short]
      simpa using nonempty
    · rw [pieces_of_le positive proper.noStop (Nat.le_of_not_lt short)]
      simp [nonempty, positive.ne']
  · intro nothing
    rw [pieces_of_lt proper (by rw [nothing]; exact positive), nothing]

end NckuOs.Lines
