import Mathlib.Data.List.TakeWhile

/-!
# Words between delimiters

Splitting a text into the words between runs of a delimiter, one word at a time, as
`strtok` does.
-/

namespace NckuOs.Words

universe u

variable {α : Type u} [DecidableEq α] (delim : α)

/-- One call of `strtok` with the rest of the text: the next word, and the text
behind the delimiter that ends it. -/
def strtok (text : List α) : Option (List α × List α) :=
  match text.dropWhile (fun c => c = delim) with
  | [] => none
  | c :: rest =>
      some ((c :: rest).takeWhile (fun c => c ≠ delim),
        ((c :: rest).dropWhile (fun c => c ≠ delim)).drop 1)

/-- A text that consists of the given words, with delimiters around them and at least
one between two of them. -/
inductive Spells : List α → List (List α) → Prop
  | nil (gap : Nat) : Spells (List.replicate gap delim) []
  | last (gap : Nat) {word : List α} (nonempty : word ≠ []) (noDelim : delim ∉ word) :
      Spells (List.replicate gap delim ++ word) [word]
  | cons (gap : Nat) {word text : List α} {words : List (List α)} (nonempty : word ≠ [])
      (noDelim : delim ∉ word) (rest : Spells text words) :
      Spells (List.replicate gap delim ++ word ++ delim :: text) (word :: words)

variable {delim}

theorem strtok_replicate_append (gap : Nat) (text : List α) :
    strtok delim (List.replicate gap delim ++ text) = strtok delim text := by
  induction gap with
  | zero => rfl
  | succ gap ih =>
      rw [List.replicate_succ, List.cons_append, ← ih]
      simp [strtok]

/-- A word at the front, up to its delimiter or the end. -/
theorem strtok_word {word text : List α} (nonempty : word ≠ []) (noDelim : delim ∉ word)
    (ends : text.head? = none ∨ text.head? = some delim) :
    strtok delim (word ++ text) = some (word, text.drop 1) := by
  have notDelim : ∀ c ∈ word, (decide (c ≠ delim)) = true := by
    intro c isMem
    rw [decide_eq_true_eq]
    rintro rfl
    exact noDelim isMem
  have stop : text.takeWhile (fun c => decide (c ≠ delim)) = [] ∧
      text.dropWhile (fun c => decide (c ≠ delim)) = text := by
    cases text with
    | nil => exact ⟨rfl, rfl⟩
    | cons c text =>
        have isDelim : c = delim := by simpa using ends
        simp [isDelim]
  cases word with
  | nil => exact absurd rfl nonempty
  | cons c rest =>
      have first : ¬c = delim := by
        rintro rfl
        exact noDelim List.mem_cons_self
      have front : (c :: rest ++ text).dropWhile (fun c => decide (c = delim)) =
          c :: (rest ++ text) := by
        simp [first]
      rw [strtok, front]
      dsimp only
      rw [← List.cons_append, List.takeWhile_append_of_pos notDelim,
        List.dropWhile_append_of_pos notDelim, stop.1, stop.2, List.append_nil]

/-- `strtok` finds the words of a text one by one. -/
theorem Spells.strtok_cons {text word : List α} {words : List (List α)}
    (spells : Spells delim text (word :: words)) :
    ∃ rest, strtok delim text = some (word, rest) ∧ Spells delim rest words := by
  cases spells with
  | last gap nonempty noDelim =>
      refine ⟨[], ?_, .nil 0⟩
      have found : strtok delim (word ++ []) = some (word, [].drop 1) :=
        strtok_word nonempty noDelim (.inl rfl)
      rw [List.append_nil] at found
      rw [strtok_replicate_append, found]
      rfl
  | @cons gap _ text _ nonempty noDelim rest =>
      refine ⟨text, ?_, rest⟩
      rw [List.append_assoc, strtok_replicate_append]
      exact strtok_word nonempty noDelim (.inr rfl)

theorem Spells.strtok_nil {text : List α} (spells : Spells delim text []) :
    strtok delim text = none := by
  cases spells with
  | nil gap =>
      have found : strtok delim (List.replicate gap delim ++ []) = strtok delim [] :=
        strtok_replicate_append gap []
      rw [List.append_nil] at found
      rw [found]
      rfl

/-- What follows the word is shorter. -/
theorem length_of_strtok {text word rest : List α}
    (found : strtok delim text = some (word, rest)) : rest.length < text.length := by
  have short := List.length_dropWhile_le (fun c => decide (c = delim)) text
  cases front : text.dropWhile (fun c => decide (c = delim)) with
  | nil => simp [strtok, front] at found
  | cons c more =>
      rw [front] at short
      simp only [strtok, front, Option.some.injEq, Prod.mk.injEq] at found
      rcases found with ⟨_, rfl⟩
      have first : ¬c = delim := by
        have head := List.head?_dropWhile_not (fun c => decide (c = delim)) text
        rw [front] at head
        simpa using head
      have shorter := List.length_dropWhile_le (fun c => decide (c ≠ delim)) more
      rw [List.dropWhile_cons_of_pos (by simpa using first), List.length_drop]
      rw [List.length_cons] at short
      omega

omit [DecidableEq α] in
/-- A text that spells words consists of them and the delimiter. -/
theorem Spells.mem {text : List α} {words : List (List α)} (spells : Spells delim text words)
    {c : α} (isMem : c ∈ text) : c = delim ∨ ∃ word ∈ words, c ∈ word := by
  induction spells with
  | nil gap => exact .inl (List.eq_of_mem_replicate isMem)
  | last gap _ _ =>
      rcases List.mem_append.mp isMem with inGap | inWord
      · exact .inl (List.eq_of_mem_replicate inGap)
      · exact .inr ⟨_, List.mem_cons_self, inWord⟩
  | cons gap _ _ _ ih =>
      rw [List.mem_append, List.mem_append, List.mem_cons] at isMem
      rcases isMem with (inGap | inWord) | isDelim | inRest
      · exact .inl (List.eq_of_mem_replicate inGap)
      · exact .inr ⟨_, List.mem_cons_self, inWord⟩
      · exact .inl isDelim
      · rcases ih inRest with isDelim | ⟨word, inWords, inWord⟩
        · exact .inl isDelim
        · exact .inr ⟨word, List.mem_cons_of_mem _ inWords, inWord⟩

omit [DecidableEq α] in
theorem Spells.ne_nil {text : List α} {words : List (List α)} (spells : Spells delim text words)
    {word : List α} (isMem : word ∈ words) : word ≠ [] := by
  induction spells with
  | nil gap => cases isMem
  | last gap nonempty _ => exact List.mem_singleton.mp isMem ▸ nonempty
  | cons gap nonempty _ _ ih =>
      rcases List.mem_cons.mp isMem with rfl | later
      · exact nonempty
      · exact ih later

/-! ## All words -/

/-- Call `strtok` until it finds no word, at most `fuel` times. -/
def strtokAll (delim : α) : Nat → List α → List (List α)
  | 0, _ => []
  | fuel + 1, text =>
      match strtok delim text with
      | none => []
      | some (word, rest) => word :: strtokAll delim fuel rest

/-- The words that successive calls of `strtok` find. -/
def words (delim : α) (text : List α) : List (List α) :=
  strtokAll delim text.length text

/-- There is a call for every word. -/
theorem Spells.strtokAll_eq {text : List α} {found : List (List α)} {fuel : Nat}
    (spells : Spells delim text found) (enough : text.length ≤ fuel) :
    strtokAll delim fuel text = found := by
  induction found generalizing text fuel with
  | nil =>
      cases fuel with
      | zero => rfl
      | succ fuel => simp only [strtokAll, spells.strtok_nil]
  | cons word found ih =>
      rcases spells.strtok_cons with ⟨rest, first, others⟩
      have shorter := length_of_strtok first
      cases fuel with
      | zero => omega
      | succ fuel =>
          simp only [strtokAll, first]
          rw [ih others (by omega)]

/-- The words of a text are those that it is spelled with. -/
theorem Spells.words_eq {text : List α} {found : List (List α)}
    (spells : Spells delim text found) : words delim text = found :=
  spells.strtokAll_eq (Nat.le_refl _)

omit [DecidableEq α] in
/-- A further delimiter in front. -/
theorem Spells.delim_cons {text : List α} {found : List (List α)}
    (spells : Spells delim text found) : Spells delim (delim :: text) found := by
  cases spells with
  | nil gap => exact .nil (gap + 1)
  | last gap nonempty noDelim => exact .last (gap + 1) nonempty noDelim
  | cons gap nonempty noDelim rest => exact .cons (gap + 1) nonempty noDelim rest

omit [DecidableEq α] in
/-- A further character in front begins a word or extends one. -/
theorem Spells.char_cons {text : List α} {found : List (List α)} {c : α} (ne : c ≠ delim)
    (spells : Spells delim text found) : ∃ found', Spells delim (c :: text) found' := by
  have single : delim ∉ [c] := fun isMem => ne (List.mem_singleton.mp isMem).symm
  have longer {word : List α} (noDelim : delim ∉ word) : delim ∉ c :: word := by
    rw [List.mem_cons, not_or]
    exact ⟨Ne.symm ne, noDelim⟩
  cases spells with
  | nil gap =>
      cases gap with
      | zero => exact ⟨_, .last 0 (List.cons_ne_nil c []) single⟩
      | succ gap => exact ⟨_, .cons 0 (List.cons_ne_nil c []) single (.nil gap)⟩
  | last gap nonempty noDelim =>
      cases gap with
      | zero => exact ⟨_, .last 0 (List.cons_ne_nil c _) (longer noDelim)⟩
      | succ gap =>
          exact ⟨_, .cons 0 (List.cons_ne_nil c []) single (.last gap nonempty noDelim)⟩
  | cons gap nonempty noDelim rest =>
      cases gap with
      | zero => exact ⟨_, .cons 0 (List.cons_ne_nil c _) (longer noDelim) rest⟩
      | succ gap =>
          exact ⟨_, .cons 0 (List.cons_ne_nil c []) single (.cons gap nonempty noDelim rest)⟩

/-- Every text is spelled with its words. -/
theorem spells_words (delim : α) (text : List α) : Spells delim text (words delim text) := by
  have some : ∃ found, Spells delim text found := by
    induction text with
    | nil => exact ⟨[], .nil 0⟩
    | cons c text ih =>
        rcases ih with ⟨found, spells⟩
        by_cases isDelim : c = delim
        · subst isDelim
          exact ⟨found, spells.delim_cons⟩
        · exact spells.char_cons isDelim
  rcases some with ⟨found, spells⟩
  rw [spells.words_eq]
  exact spells

end NckuOs.Words
