import Mathlib.Data.List.Basic

/-!
# Reading in chunks

A chunk ends behind the first stop symbol or when the buffer is full, as with `fgets`.
-/

namespace NckuOs.Chunks

universe u

variable {α : Type u} [DecidableEq α]

/-- One read of at most `n` symbols: what was read, and what remains. -/
def cut (stop : α) : Nat → List α → List α × List α
  | 0, input => ([], input)
  | _ + 1, [] => ([], [])
  | n + 1, c :: rest =>
      if c = stop then ([c], rest) else (c :: (cut stop n rest).1, (cut stop n rest).2)

/-- The reads up to the first that gets nothing. -/
def chunksFrom (stop : α) (n : Nat) : Nat → List α → List (List α)
  | 0, _ => []
  | fuel + 1, input =>
      match cut stop n input with
      | ([], _) => []
      | (c :: chunk, rest) => (c :: chunk) :: chunksFrom stop n fuel rest

/-- The chunks of an input; each of them takes at least one symbol. -/
def chunks (stop : α) (n : Nat) (input : List α) : List (List α) :=
  chunksFrom stop n input.length input

variable {stop : α} {n : Nat} {input : List α}

theorem cut_append (stop : α) (n : Nat) (input : List α) :
    (cut stop n input).1 ++ (cut stop n input).2 = input := by
  induction n generalizing input with
  | zero => rfl
  | succ n ih =>
      cases input with
      | nil => rfl
      | cons c rest =>
          unfold cut
          split
          · rfl
          · exact congrArg (c :: ·) (ih rest)

theorem length_cut_le (stop : α) (n : Nat) (input : List α) : (cut stop n input).1.length ≤ n := by
  induction n generalizing input with
  | zero => exact Nat.le_refl 0
  | succ n ih =>
      cases input with
      | nil => exact Nat.zero_le _
      | cons c rest =>
          unfold cut
          split
          · exact Nat.succ_le_succ (Nat.zero_le n)
          · exact Nat.succ_le_succ (ih rest)

/-- A read gets nothing only at the end. -/
theorem eq_nil_of_cut (positive : 0 < n) (nothing : (cut stop n input).1 = []) : input = [] := by
  cases n with
  | zero => exact absurd positive (Nat.lt_irrefl 0)
  | succ n =>
      cases input with
      | nil => rfl
      | cons c rest =>
          unfold cut at nothing
          split at nothing
          · cases nothing
          · cases nothing

theorem length_cut_lt (positive : 0 < n) (nonempty : input ≠ []) :
    (cut stop n input).2.length < input.length := by
  have whole := congrArg List.length (cut_append stop n input)
  have some : (cut stop n input).1 ≠ [] := by
    intro nothing
    exact nonempty (eq_nil_of_cut positive nothing)
  have read := List.length_pos_iff.mpr some
  rw [List.length_append] at whole
  omega

theorem chunksFrom_nil (stop : α) (n fuel : Nat) : chunksFrom stop n fuel [] = [] := by
  cases fuel with
  | zero => rfl
  | succ fuel => cases n <;> rfl

/-- Enough fuel is enough. -/
theorem chunksFrom_eq {fuel fuel' : Nat} (enough : input.length ≤ fuel)
    (enough' : input.length ≤ fuel') :
    chunksFrom stop n fuel input = chunksFrom stop n fuel' input := by
  induction fuel generalizing input fuel' with
  | zero =>
      rw [List.eq_nil_of_length_eq_zero (Nat.le_zero.mp enough), chunksFrom_nil, chunksFrom_nil]
  | succ fuel ih =>
      cases fuel' with
      | zero =>
          rw [List.eq_nil_of_length_eq_zero (Nat.le_zero.mp enough'), chunksFrom_nil,
            chunksFrom_nil]
      | succ fuel' =>
          have whole := congrArg List.length (cut_append stop n input)
          unfold chunksFrom
          split
          · rfl
          next c chunk rest read =>
            rw [read, List.length_append] at whole
            have whole : chunk.length + 1 + rest.length = input.length := whole
            have restEnough : rest.length ≤ fuel := by omega
            have restEnough' : rest.length ≤ fuel' := by omega
            rw [ih restEnough restEnough']

/-- The first chunk, and the chunks of what remains. -/
theorem chunks_eq_cons (positive : 0 < n) (nonempty : input ≠ []) :
    chunks stop n input = (cut stop n input).1 :: chunks stop n (cut stop n input).2 := by
  have shorter : (cut stop n input).2.length < input.length := length_cut_lt positive nonempty
  cases size : input.length with
  | zero => exact absurd (List.eq_nil_of_length_eq_zero size) nonempty
  | succ fuel =>
      rw [chunks, size, chunksFrom]
      split
      next rest read => exact absurd (eq_nil_of_cut positive (congrArg Prod.fst read)) nonempty
      next c chunk rest read =>
        rw [read] at shorter ⊢
        dsimp only at shorter ⊢
        rw [chunks, chunksFrom_eq (by omega) (Nat.le_refl _)]

theorem flatten_chunksFrom (positive : 0 < n) {fuel : Nat} (enough : input.length ≤ fuel) :
    (chunksFrom stop n fuel input).flatten = input := by
  induction fuel generalizing input with
  | zero =>
      rw [List.eq_nil_of_length_eq_zero (Nat.le_zero.mp enough)]
      rfl
  | succ fuel ih =>
      have whole := cut_append stop n input
      unfold chunksFrom
      split
      next rest read =>
        rw [eq_nil_of_cut positive (congrArg Prod.fst read)]
        rfl
      next c chunk rest read =>
        rw [read] at whole
        have whole : c :: (chunk ++ rest) = input := whole
        have shorter : rest.length ≤ fuel := by
          rw [← whole, List.length_cons, List.length_append] at enough
          exact Nat.le_trans (Nat.le_add_left _ _) (Nat.le_of_succ_le_succ enough)
        rw [List.flatten_cons, ih shorter]
        exact whole

/-- The chunks make up the input. -/
theorem flatten_chunks (positive : 0 < n) (input : List α) :
    (chunks stop n input).flatten = input :=
  flatten_chunksFrom positive (Nat.le_refl _)

theorem length_le_of_mem_chunksFrom {fuel : Nat} {chunk : List α}
    (isMem : chunk ∈ chunksFrom stop n fuel input) : chunk.length ≤ n := by
  induction fuel generalizing input with
  | zero => cases isMem
  | succ fuel ih =>
      unfold chunksFrom at isMem
      split at isMem
      · cases isMem
      next read =>
        have short := length_cut_le stop n input
        rw [read] at short
        cases isMem with
        | head => exact short
        | tail _ later => exact ih later

/-- No chunk is longer than the buffer. -/
theorem length_le_of_mem_chunks {chunk : List α} (isMem : chunk ∈ chunks stop n input) :
    chunk.length ≤ n :=
  length_le_of_mem_chunksFrom isMem

end NckuOs.Chunks
