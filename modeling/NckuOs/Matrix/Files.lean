import NckuOs.Lib.Scan
import NckuOs.Matrix.Parallel
import NckuOs.ProcLog.Program

/-!
# Matrices in files

`data_processing` of the programs of `lab3` reads two matrices as decimal numbers, each
behind two numbers that it does not look at, and gives up when one is missing.  What the
programs print is in the same format.
-/

namespace NckuOs.Matrix

open NckuOs.Decimal
open NckuOs.LoopNest
open NckuOs.ProcLog
open NckuOs.Scan

/-- `matrix_row_x` and `matrix_col_x`, or those of `y`. -/
structure Size where
  rows : Nat
  cols : Nat

/-- A value that an `int` can have. -/
def IsInt (z : Int) : Prop :=
  -2 ^ 31 ≤ z ∧ z < 2 ^ 31

instance (z : Int) : Decidable (IsInt z) :=
  inferInstanceAs (Decidable (_ ∧ _))

/-- `fscanf(fptr, "%d", &value)`, with what is left of the file.  A number that is no `int`
is undefined. -/
def fscanf (input : List UInt8) : Option (Option Word × List UInt8) :=
  match scanInt input with
  | (none, rest) => some (none, rest)
  | (some z, rest) => if IsInt z then some (some (BitVec.ofInt 32 z), rest) else none

/-- The inner loop, with so many columns still to read, and whether it has come to its
end. -/
def readRow (i j : Nat) : Nat → Mat Word → List UInt8 → Option (Mat Word × List UInt8 × Bool)
  | 0, m, input => some (m, input, true)
  | left + 1, m, input =>
      match fscanf input with
      | none => none
      | some (none, rest) => some (m, rest, false)
      | some (some word, rest) => readRow i (j + 1) left (setCell m i j word) rest

/-- The outer loop, with so many rows still to read. -/
def readRows (cols i : Nat) : Nat → Mat Word → List UInt8 → Option (Mat Word × List UInt8 × Bool)
  | 0, m, input => some (m, input, true)
  | left + 1, m, input =>
      match readRow i 0 cols m input with
      | none => none
      | some (m', rest, false) => some (m', rest, false)
      | some (m', rest, true) => readRows cols (i + 1) left m' rest

/-- Both numbers of the first line, and the matrix behind them; what was in the cells stays
where nothing is read. -/
def readMatrix (size : Size) (m₀ : Mat Word) (input : List UInt8) : Option (Mat Word × Bool) :=
  match fscanf input with
  | none => none
  | some (_, rest) =>
      match fscanf rest with
      | none => none
      | some (_, rest') =>
          (readRows size.cols 0 size.rows m₀ rest').map fun (m, _, more) => (m, more)

/-- The matrices, and what has been printed. -/
structure Data where
  x : Mat Word
  y : Mat Word
  printed : List UInt8

def errorText : List UInt8 :=
  ascii "Error reading from file".toList

/-- `data_processing`. -/
def dataProcessing (sizeX sizeY : Size) (file₁ file₂ : List UInt8) (x₀ y₀ : Mat Word) :
    Option Data :=
  match readMatrix sizeX x₀ file₁ with
  | none => none
  | some (x, false) => some ⟨x, y₀, errorText⟩
  | some (x, true) =>
      (readMatrix sizeY y₀ file₂).map fun (y, more) => ⟨x, y, if more then [] else errorText⟩

/-! ## What is read -/

/-- The cells of a matrix, row by row, from a list of numbers; the others are left. -/
def filled (size : Size) (m₀ : Mat Word) (numbers : List Int) : Mat Word := fun i j =>
  if i < size.rows ∧ j < size.cols then
    (numbers[i * size.cols + j]?.map (BitVec.ofInt 32)).getD (m₀ i j)
  else m₀ i j

variable {input : List UInt8} {numbers : List Int}

/-- One number less, or the end of the file. -/
theorem fscanf_spelt (spelt : Numbers input numbers) (ints : ∀ z ∈ numbers, IsInt z) :
    ∃ rest, fscanf input = some (numbers.head?.map (BitVec.ofInt 32), rest) ∧
      Numbers rest numbers.tail := by
  cases numbers with
  | nil =>
      refine ⟨[], ?_, numbers_nil⟩
      rw [fscanf, spelt.scan_nil]
      rfl
  | cons z others =>
      rcases spelt.scan_cons with ⟨rest, scanned, later⟩
      have isInt := ints z List.mem_cons_self
      refine ⟨rest, ?_, later⟩
      simp only [fscanf, scanned, if_pos isInt, List.head?_cons, Option.map_some]

theorem readRow_spelt (spelt : Numbers input numbers) (ints : ∀ z ∈ numbers, IsInt z)
    (i j left : Nat) (m : Mat Word) :
    ∃ m' rest, readRow i j left m input = some (m', rest, decide (left ≤ numbers.length)) ∧
      Numbers rest (numbers.drop left) ∧
      ∀ i' j', m' i' j' = if i' = i ∧ j ≤ j' ∧ j' < j + left then
        (numbers[j' - j]?.map (BitVec.ofInt 32)).getD (m i' j') else m i' j' := by
  induction left generalizing input numbers j m with
  | zero =>
      refine ⟨m, input, ?_, spelt, ?_⟩
      · simp [readRow]
      · intro i' j'
        rw [if_neg (by omega)]
  | succ left ih =>
      rcases fscanf_spelt spelt ints with ⟨rest, scanned, later⟩
      cases numbers with
      | nil =>
          refine ⟨m, rest, ?_, later, ?_⟩
          · simp [readRow, scanned]
          · simp
      | cons z others =>
          rw [List.tail_cons] at later
          rcases ih later (fun z' isMem => ints z' (List.mem_cons_of_mem z isMem)) (j + 1)
            (setCell m i j (BitVec.ofInt 32 z)) with ⟨m', rest', read, behind, cells⟩
          refine ⟨m', rest', ?_, behind, ?_⟩
          · have same :
                decide (left + 1 ≤ (z :: others).length) = decide (left ≤ others.length) := by
              simp
            rw [same, ← read]
            simp only [readRow, scanned, List.head?_cons, Option.map_some]
          · intro i' j'
            rw [cells]
            by_cases here : i' = i ∧ j' = j
            · rcases here with ⟨rfl, rfl⟩
              simp [setCell]
            · have kept : setCell m i j (BitVec.ofInt 32 z) i' j' = m i' j' := if_neg here
              rw [kept]
              by_cases behindJ : i' = i ∧ j + 1 ≤ j' ∧ j' < j + 1 + left
              · have index : j' - j = (j' - (j + 1)) + 1 := by omega
                rw [if_pos behindJ, if_pos (by omega), index, List.getElem?_cons_succ]
              · rw [if_neg behindJ, if_neg (by omega)]

theorem readRows_spelt (cols : Nat) (spelt : Numbers input numbers)
    (ints : ∀ z ∈ numbers, IsInt z) (i left : Nat) (m : Mat Word) :
    ∃ m' rest,
      readRows cols i left m input = some (m', rest, decide (left * cols ≤ numbers.length)) ∧
      ∀ i' j', m' i' j' = if i ≤ i' ∧ i' < i + left ∧ j' < cols then
        (numbers[(i' - i) * cols + j']?.map (BitVec.ofInt 32)).getD (m i' j') else m i' j' := by
  induction left generalizing input numbers i m with
  | zero =>
      refine ⟨m, input, ?_, ?_⟩
      · simp [readRows]
      · intro i' j'
        rw [if_neg (by omega)]
  | succ left ih =>
      rcases readRow_spelt spelt ints i 0 cols m with ⟨row, rest, read, later, cells⟩
      by_cases complete : cols ≤ numbers.length
      · rw [decide_eq_true complete] at read
        rcases ih later (fun z isMem => ints z (List.mem_of_mem_drop isMem)) (i + 1) row with
          ⟨m', rest', reads, others⟩
        refine ⟨m', rest', ?_, ?_⟩
        · have same : decide (left * cols ≤ (numbers.drop cols).length) =
              decide ((left + 1) * cols ≤ numbers.length) := by
            rw [List.length_drop, Nat.succ_mul, decide_eq_decide]
            omega
          rw [← same, ← reads]
          simp only [readRows, read]
        · intro i' j'
          have origin : 0 * cols + j' = j' := by omega
          rw [others, cells]
          rcases Nat.lt_trichotomy i' i with above | rfl | below
          · rw [if_neg (by omega), if_neg (by omega), if_neg (by omega)]
          · rw [if_neg (by omega), Nat.sub_self, origin]
            by_cases inside : j' < cols
            · rw [if_pos (by omega), if_pos (by omega), Nat.sub_zero]
            · rw [if_neg (by omega), if_neg (by omega)]
          · rcases Nat.exists_eq_add_of_lt below with ⟨k, rfl⟩
            have index : (i + k + 1 - i) * cols + j' =
                cols + ((i + k + 1 - (i + 1)) * cols + j') := by
              have first : i + k + 1 - i = k + 1 := by omega
              have second : i + k + 1 - (i + 1) = k := by omega
              rw [first, second, Nat.succ_mul]
              omega
            have notRow : ¬(i + k + 1 = i ∧ 0 ≤ j' ∧ j' < 0 + cols) := by omega
            rw [if_neg notRow, index, List.getElem?_drop]
            by_cases inside : i + k + 1 < i + 1 + left ∧ j' < cols
            · rw [if_pos (by omega), if_pos (by omega)]
            · rw [if_neg (by omega), if_neg (by omega)]
      · rw [decide_eq_false complete] at read
        have grows : cols ≤ (left + 1) * cols := Nat.le_mul_of_pos_left cols (Nat.succ_pos left)
        have short : ¬(left + 1) * cols ≤ numbers.length := by omega
        refine ⟨row, rest, ?_, ?_⟩
        · simp only [readRows, read, decide_eq_false short]
        · intro i' j'
          have origin : 0 * cols + j' = j' := by omega
          rw [cells]
          by_cases here : i' = i
          · subst here
            rw [Nat.sub_self, origin]
            by_cases inside : j' < cols
            · rw [if_pos (by omega), if_pos (by omega), Nat.sub_zero]
            · rw [if_neg (by omega), if_neg (by omega)]
          · rw [if_neg (by omega)]
            split
            next inside =>
              have later : cols ≤ (i' - i) * cols :=
                Nat.le_mul_of_pos_left cols (by omega)
              rw [List.getElem?_eq_none (by omega)]
              rfl
            next => rfl

/-- The numbers behind the first two are enough for a matrix. -/
def Enough (size : Size) (numbers : List Int) : Prop :=
  size.rows * size.cols ≤ (numbers.drop 2).length

instance (size : Size) (numbers : List Int) : Decidable (Enough size numbers) :=
  inferInstanceAs (Decidable (_ ≤ _))

theorem readMatrix_spelt (spelt : Numbers input numbers) (ints : ∀ z ∈ numbers, IsInt z)
    (size : Size) (m₀ : Mat Word) : readMatrix size m₀ input =
      some (filled size m₀ (numbers.drop 2), decide (Enough size numbers)) := by
  have ints' : ∀ z ∈ numbers.tail, IsInt z := fun z isMem => ints z (List.mem_of_mem_tail isMem)
  rcases fscanf_spelt spelt ints with ⟨rest, scanned, later⟩
  rcases fscanf_spelt later ints' with ⟨rest', scanned', later'⟩
  have behind : numbers.tail.tail = numbers.drop 2 := by
    rw [← List.drop_one, ← List.drop_one, List.drop_drop]
  rw [behind] at later'
  rcases readRows_spelt size.cols later' (fun z isMem => ints z (List.mem_of_mem_drop isMem)) 0
    size.rows m₀ with ⟨m, rest'', reads, cells⟩
  have same : m = filled size m₀ (numbers.drop 2) := by
    funext i j
    rw [cells, filled]
    simp
  simp only [readMatrix, scanned, scanned', reads, Option.map_some, same]
  rfl

/-- `data_processing` fills the cells row by row with the numbers behind the first two of a
file, however the file is laid out.  When one is missing it prints so, leaves the cells that
it does not come to, and reads nothing of the second file. -/
theorem data_processing_reads {file₁ file₂ : List UInt8} {numbers₁ numbers₂ : List Int}
    (spelt₁ : Numbers file₁ numbers₁) (spelt₂ : Numbers file₂ numbers₂)
    (ints₁ : ∀ z ∈ numbers₁, IsInt z) (ints₂ : ∀ z ∈ numbers₂, IsInt z) (sizeX sizeY : Size)
    (x₀ y₀ : Mat Word) : dataProcessing sizeX sizeY file₁ file₂ x₀ y₀ = some
      (if Enough sizeX numbers₁ then
        ⟨filled sizeX x₀ (numbers₁.drop 2), filled sizeY y₀ (numbers₂.drop 2),
          if Enough sizeY numbers₂ then [] else errorText⟩
      else ⟨filled sizeX x₀ (numbers₁.drop 2), y₀, errorText⟩) := by
  have first := readMatrix_spelt spelt₁ ints₁ sizeX x₀
  have second := readMatrix_spelt spelt₂ ints₂ sizeY y₀
  by_cases enough : Enough sizeX numbers₁
  · rw [decide_eq_true enough] at first
    rw [if_pos enough]
    simp only [dataProcessing, first, second, Option.map_some, decide_eq_true_eq]
  · rw [decide_eq_false enough] at first
    rw [if_neg enough]
    simp only [dataProcessing, first]

/-- Two lines for a matrix of one row, and a second file that ends too early. -/
theorem data_processing_reads_short :
    (dataProcessing ⟨1, 2⟩ ⟨1, 1⟩
      (intDigits 1 ++ (ascii [' '] ++ (intDigits 2 ++ (ascii ['\r', '\n'] ++
        (intDigits 3 ++ (ascii [' '] ++ (intDigits (-4) ++ (ascii ['\n'] ++ []))))))))
      (intDigits 1 ++ (ascii [' '] ++ (intDigits 1 ++ (ascii ['\n'] ++ [])))) (fun _ _ => 7)
      fun _ _ => 7).map (fun data => (data.x 0 0, data.x 0 1, data.y 0 0, data.printed)) =
      some (3, -4, 7, errorText) := by
  have space : Blank (ascii [' ']) := by decide +kernel
  have newline : Blank (ascii ['\n']) := by decide +kernel
  have both : Blank (ascii ['\r', '\n']) := by decide +kernel
  have first := Numbers.cons (spells_intDigits 1) space (by decide)
    (.cons (spells_intDigits 2) both (by decide) (.cons (spells_intDigits 3) space (by decide)
      (.cons (spells_intDigits (-4)) newline (by decide) numbers_nil)))
  have second := Numbers.cons (spells_intDigits 1) space (by decide)
    (.cons (spells_intDigits 1) newline (by decide) numbers_nil)
  rw [data_processing_reads first second (by decide) (by decide)]
  decide +kernel

/-! ## What is printed -/

section Printed

variable {rest : List UInt8} {later : List Int}

theorem numbers_cell (cols j : Nat) (word : Word) (numbers : Numbers rest later) :
    Numbers (cellText cols word j ++ rest) (word.toInt :: later) := by
  have blank : Blank (ascii [' '] ++ if j = cols - 1 then ascii ['\n'] else []) := by
    split
    · decide +kernel
    · decide +kernel
  have cell := Numbers.cons (spells_intDigits word.toInt) blank (by simp [ascii]) numbers
  simpa only [cellText, List.append_assoc] using cell

/-- The numbers of a row, and those behind it. -/
theorem numbers_cells (cols : Nat) (row : Nat → Word) (js : List Nat)
    (numbers : Numbers rest later) :
    Numbers (js.flatMap (fun j => cellText cols (row j) j) ++ rest)
      (js.map (fun j => (row j).toInt) ++ later) := by
  induction js with
  | nil => exact numbers
  | cons j js ih =>
      rw [List.flatMap_cons, List.append_assoc, List.map_cons, List.cons_append]
      exact numbers_cell cols j (row j) ih

theorem numbers_rows (cols : Nat) (m : Mat Word) (is : List Nat) (numbers : Numbers rest later) :
    Numbers (is.flatMap (fun i => cellsText cols (m i) cols) ++ rest)
      (is.flatMap (fun i => (List.range cols).map fun j => (m i j).toInt) ++ later) := by
  induction is with
  | nil => exact numbers
  | cons i is ih =>
      rw [List.flatMap_cons, List.append_assoc, List.flatMap_cons, List.append_assoc]
      exact numbers_cells cols (m i) (List.range cols) ih

end Printed

end NckuOs.Matrix
