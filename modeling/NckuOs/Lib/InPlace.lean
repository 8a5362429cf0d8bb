import NckuOs.Lib.Blocks
import NckuOs.Lib.Words

/-!
# `strtok` in place

A call puts a NUL behind the word that it finds and hands out the place where the word
begins.  The place behind the NUL is where the next call goes on, so that no later call
touches the word.
-/

namespace NckuOs.InPlace

open NckuOs.Blocks (cString)
open NckuOs.Words (Spells words)

/-- The string that begins at a place of a block; without a NUL there is none. -/
def stringAt (bytes : List UInt8) (place : Nat) : Option (List UInt8) :=
  if 0 ∈ bytes.drop place then some (cString (bytes.drop place)) else none

/-- A call of `strtok` that goes on at `saved`: the bytes afterwards, the place of the token
unless there is none, and where the next call goes on.  A search that leaves the block has no
result. -/
def strtok (delim : UInt8) (bytes : List UInt8) (saved : Nat) :
    Option (List UInt8 × Option Nat × Nat) :=
  let start := saved + ((bytes.drop saved).takeWhile fun c => c = delim).length
  match bytes[start]? with
  | none => none
  | some c =>
      if c = 0 then some (bytes, none, start)
      else
        let stop := start + ((bytes.drop start).takeWhile fun c => c ≠ delim ∧ c ≠ 0).length
        match bytes[stop]? with
        | none => none
        | some c =>
            if c = 0 then some (bytes, some start, stop)
            else some (bytes.set stop 0, some start, stop + 1)

/-- What a call can do with the text that is left: it finds nothing, the last word, or a word
with a delimiter behind it.  `front` is what is in front of the text. -/
inductive Call (delim : UInt8) (front : List UInt8) :
    List UInt8 → List UInt8 → List UInt8 → Option Nat → Prop
  | nothing (gap : Nat) : Call delim front (List.replicate gap delim)
      (front ++ List.replicate gap delim) [] none
  | last (gap : Nat) {word : List UInt8} (nonempty : word ≠ []) (noDelim : delim ∉ word)
      (noNul : 0 ∉ word) : Call delim front (List.replicate gap delim ++ word)
      (front ++ List.replicate gap delim ++ word) [] (some (front.length + gap))
  | cons (gap : Nat) {word : List UInt8} (nonempty : word ≠ []) (noDelim : delim ∉ word)
      (noNul : 0 ∉ word) (text : List UInt8) :
      Call delim front (List.replicate gap delim ++ word ++ delim :: text)
        (front ++ List.replicate gap delim ++ word ++ [0]) text (some (front.length + gap))

/-- A word that has been found: a NUL ends it in front of the text that is left, or at the
end of that when nothing is left. -/
def Held (front text : List UInt8) (place : Nat) (word : List UInt8) : Prop :=
  0 ∉ word ∧ ∃ before, before.length = place ∧
    ((∃ behind, front = before ++ word ++ 0 :: behind) ∨ (text = [] ∧ front = before ++ word))

variable {delim : UInt8} {front text front' text' tail word : List UInt8} {token : Option Nat}
  {place : Nat}

/-! ## A call -/

theorem exists_call (delim : UInt8) (front : List UInt8) (noNul : 0 ∉ text) :
    ∃ front' text' token, Call delim front text front' text' token := by
  rcases (⟨_, Words.spells_words delim text⟩ : ∃ found, Spells delim text found) with
    ⟨found, spells⟩
  cases spells with
  | nil gap => exact ⟨_, _, _, .nothing gap⟩
  | last gap nonempty noDelim =>
      exact ⟨_, _, _, .last gap nonempty noDelim fun isMem => noNul (List.mem_append_right _ isMem)⟩
  | cons gap nonempty noDelim rest =>
      refine ⟨_, _, _, .cons gap nonempty noDelim (fun isMem => noNul ?_) _⟩
      exact List.mem_append_left _ (List.mem_append_right _ isMem)

theorem takeWhile_gap (gap : Nat) {rest : List UInt8} (stops : rest.head? ≠ some delim) :
    (List.replicate gap delim ++ rest).takeWhile (fun c => decide (c = delim)) =
      List.replicate gap delim := by
  have all : ∀ c ∈ List.replicate gap delim, decide (c = delim) = true := by
    intro c isMem
    rw [decide_eq_true_eq]
    exact List.eq_of_mem_replicate isMem
  rw [List.takeWhile_append_of_pos all, List.append_right_eq_self]
  cases rest with
  | nil => rfl
  | cons c rest =>
      have other : ¬c = delim := by
        rintro rfl
        exact stops rfl
      simp [other]

theorem takeWhile_word (noDelim : delim ∉ word) (noNul : 0 ∉ word) {c : UInt8}
    (stops : c = delim ∨ c = 0) (rest : List UInt8) :
    (word ++ c :: rest).takeWhile (fun c => decide (c ≠ delim ∧ c ≠ 0)) = word := by
  have all : ∀ c ∈ word, decide (c ≠ delim ∧ c ≠ 0) = true := by
    intro c isMem
    rw [decide_eq_true_eq]
    constructor
    · rintro rfl
      exact noDelim isMem
    · rintro rfl
      exact noNul isMem
  rw [List.takeWhile_append_of_pos all, List.append_right_eq_self]
  rcases stops with rfl | rfl
  · simp
  · simp

/-- The delimiters in front of `rest` are skipped. -/
theorem skipped (front : List UInt8) (gap : Nat) {rest : List UInt8}
    (stops : rest.head? ≠ some delim) :
    front.length + (((front ++ List.replicate gap delim ++ rest).drop front.length).takeWhile
      fun c => c = delim).length = front.length + gap := by
  rw [List.append_assoc, List.drop_left, takeWhile_gap gap stops, List.length_replicate]

theorem length_front (front : List UInt8) (gap : Nat) :
    (front ++ List.replicate gap delim).length = front.length + gap := by
  rw [List.length_append, List.length_replicate]

theorem getElem?_behind (front : List UInt8) {n : Nat} (length : front.length = n)
    (c : UInt8) (rest : List UInt8) : (front ++ c :: rest)[n]? = some c := by
  subst length
  rw [List.getElem?_append_right (Nat.le_refl _), Nat.sub_self]
  rfl

theorem drop_behind (front : List UInt8) {n : Nat} (length : front.length = n)
    (rest : List UInt8) : (front ++ rest).drop n = rest := by
  subst length
  exact List.drop_left

/-- A word and what stops it. -/
theorem strtok_word (front : List UInt8) (gap : Nat) (nonempty : word ≠ [])
    (noDelim : delim ∉ word) (noNul : 0 ∉ word) {c : UInt8} (stops : c = delim ∨ c = 0)
    (rest : List UInt8) :
    strtok delim (front ++ List.replicate gap delim ++ (word ++ c :: rest)) front.length =
      if c = 0 then some (front ++ List.replicate gap delim ++ (word ++ c :: rest),
        some (front.length + gap), front.length + gap + word.length)
      else some (front ++ List.replicate gap delim ++ (word ++ 0 :: rest),
        some (front.length + gap), front.length + gap + word.length + 1) := by
  rcases List.exists_cons_of_ne_nil nonempty with ⟨first, more, isWord⟩
  have notDelim : (word ++ c :: rest).head? ≠ some delim := by
    rw [isWord]
    rintro ⟨rfl⟩
    exact noDelim (isWord ▸ List.mem_cons_self)
  have notNul : ¬first = 0 := by
    rintro rfl
    exact noNul (isWord ▸ List.mem_cons_self)
  have firstAt : (front ++ List.replicate gap delim ++ (word ++ c :: rest))[front.length + gap]? =
      some first := by
    rw [isWord]
    exact getElem?_behind _ (length_front front gap) first _
  have stopAt : (front ++ List.replicate gap delim ++ (word ++ c :: rest))[
      front.length + gap + word.length]? = some c := by
    rw [← List.append_assoc]
    apply getElem?_behind
    rw [List.length_append, length_front]
  have closed : (front ++ List.replicate gap delim ++ (word ++ c :: rest)).set
      (front.length + gap + word.length) 0 =
        front ++ List.replicate gap delim ++ (word ++ 0 :: rest) := by
    have inBoth : front.length + gap + word.length =
        (front ++ List.replicate gap delim ++ word).length := by
      rw [List.length_append, length_front]
    rw [← List.append_assoc, inBoth, List.set_append_right _ _ (Nat.le_refl _), Nat.sub_self,
      List.set_cons_zero, List.append_assoc _ word]
  simp only [strtok]
  rw [skipped front gap notDelim, firstAt]
  simp only [if_neg notNul]
  rw [drop_behind _ (length_front front gap), takeWhile_word noDelim noNul stops, stopAt, closed]

/-- What a call leaves. -/
theorem strtok_call (notNul : delim ≠ 0) (call : Call delim front text front' text' token)
    (tail : List UInt8) :
    strtok delim (front ++ (text ++ 0 :: tail)) front.length =
      some (front' ++ (text' ++ 0 :: tail), token, front'.length) := by
  cases call with
  | nothing gap =>
      have other : (0 :: tail).head? ≠ some delim := fun same => notNul (Option.some.inj same).symm
      rw [← List.append_assoc]
      simp only [strtok]
      rw [skipped front gap other, getElem?_behind _ (length_front front gap)]
      simp only [if_true, List.nil_append, length_front]
  | @last gap word nonempty noDelim noNul =>
      have found := strtok_word front gap nonempty noDelim noNul (.inr rfl) tail
      rw [if_pos rfl] at found
      simp only [List.append_assoc, List.nil_append] at found ⊢
      rw [found]
      simp only [List.length_append, List.length_replicate, Nat.add_assoc]
  | @cons gap word nonempty noDelim noNul _ =>
      have found := strtok_word front gap nonempty noDelim noNul (.inl rfl) (text' ++ 0 :: tail)
      rw [if_neg notNul] at found
      simp only [List.append_assoc, List.cons_append, List.nil_append] at found ⊢
      rw [found]
      simp only [List.length_append, List.length_replicate, List.length_singleton, Nat.add_assoc]

/-! ## The words -/

/-- A call goes on in the text, unless there is none. -/
theorem Call.goes_on (call : Call delim front text front' text' token) :
    ∃ more, front' = front ++ more ∧ (text = [] → more = [] ∧ text' = []) := by
  cases call with
  | nothing gap => exact ⟨_, rfl, fun isNil => ⟨isNil, rfl⟩⟩
  | last gap nonempty _ _ =>
      refine ⟨_, List.append_assoc _ _ _, fun isNil => ?_⟩
      exact absurd (List.append_eq_nil_iff.mp isNil).2 nonempty
  | cons gap _ _ _ _ =>
      refine ⟨_, by rw [List.append_assoc, List.append_assoc], fun isNil => ?_⟩
      exact absurd (List.append_eq_nil_iff.mp isNil).2 (List.cons_ne_nil _ _)

/-- Nothing that has been found is touched. -/
theorem Held.call (held : Held front text place word)
    (call : Call delim front text front' text' token) : Held front' text' place word := by
  rcases held with ⟨noNul, before, length, held⟩
  rcases call.goes_on with ⟨more, rfl, ends⟩
  refine ⟨noNul, before, length, ?_⟩
  rcases held with ⟨behind, rfl⟩ | ⟨isNil, rfl⟩
  · left
    exact ⟨behind ++ more, by rw [List.append_assoc, List.cons_append]⟩
  · right
    rcases ends isNil with ⟨rfl, rfl⟩
    exact ⟨rfl, List.append_nil _⟩

/-- The string at the place of a word is the word. -/
theorem Held.stringAt (held : Held front text place word) (tail : List UInt8) :
    stringAt (front ++ (text ++ 0 :: tail)) place = some word := by
  rcases held with ⟨noNul, before, length, held⟩
  have ends : ∃ rest, (front ++ (text ++ 0 :: tail)).drop place = word ++ 0 :: rest := by
    rcases held with ⟨behind, rfl⟩ | ⟨rfl, rfl⟩
    · exact ⟨behind ++ (text ++ 0 :: tail), by
        rw [List.append_assoc, List.append_assoc, drop_behind _ length, List.cons_append]⟩
    · exact ⟨tail, by rw [List.append_assoc, drop_behind _ length, List.nil_append]⟩
  rcases ends with ⟨rest, isRest⟩
  have all : ∀ c ∈ word, decide (c ≠ 0) = true := by
    intro c isMem
    rw [decide_eq_true_eq]
    rintro rfl
    exact noNul isMem
  rw [InPlace.stringAt, isRest, if_pos (List.mem_append_right _ List.mem_cons_self), cString,
    List.takeWhile_append_of_pos all, List.takeWhile_cons_of_neg (by decide), List.append_nil]

/-- The character at the place of a word is its first. -/
theorem Held.first (held : Held front text place word) (nonempty : word ≠ [])
    (rest : List UInt8) : (front ++ rest)[place]? = word.head? := by
  rcases held with ⟨_, before, length, held⟩
  rcases List.exists_cons_of_ne_nil nonempty with ⟨c, more, rfl⟩
  have isFront : ∃ behind, front = before ++ c :: behind := by
    rcases held with ⟨behind, rfl⟩ | ⟨_, rfl⟩
    · exact ⟨more ++ 0 :: behind, by rw [List.append_assoc, List.cons_append]⟩
    · exact ⟨more, rfl⟩
  rcases isFront with ⟨behind, rfl⟩
  rw [List.append_assoc, List.cons_append]
  exact getElem?_behind before length c _

/-- A call finds the first of the words that are left. -/
theorem Call.words (call : Call delim front text front' text' token) (noNul : 0 ∉ text) :
    0 ∉ text' ∧
      ((token = none ∧ words delim text = [] ∧ text' = []) ∨
        ∃ place word, token = some place ∧ words delim text = word :: words delim text' ∧
          word ≠ [] ∧ Held front' text' place word) := by
  cases call with
  | nothing gap =>
      have found : Words.words delim (List.replicate gap delim) = [] := (Spells.nil gap).words_eq
      exact ⟨List.not_mem_nil, .inl ⟨rfl, found, rfl⟩⟩
  | @last gap word nonempty noDelim wordNoNul =>
      have found : Words.words delim (List.replicate gap delim ++ word) = [word] :=
        (Spells.last gap nonempty noDelim).words_eq
      refine ⟨List.not_mem_nil, .inr ⟨_, word, rfl, found, nonempty, wordNoNul,
        front ++ List.replicate gap delim, length_front front gap, .inr ⟨rfl, rfl⟩⟩⟩
  | @cons gap word nonempty noDelim wordNoNul _ =>
      have found : Words.words delim (List.replicate gap delim ++ word ++ delim :: text') =
          word :: Words.words delim text' :=
        (Spells.cons gap nonempty noDelim (Words.spells_words delim text')).words_eq
      have restNoNul : 0 ∉ text' := fun isMem =>
        noNul (List.mem_append_right _ (List.mem_cons_of_mem _ isMem))
      refine ⟨restNoNul, .inr ⟨_, word, rfl, found, nonempty, wordNoNul,
        front ++ List.replicate gap delim, length_front front gap, .inl ⟨[], rfl⟩⟩⟩

end NckuOs.InPlace
