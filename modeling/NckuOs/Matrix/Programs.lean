import NckuOs.Matrix.Files

/-!
# `2_1.c` and `2_2.c`: from files to files

Both programs read two matrices and append their product to a file, in the format that
they read.
-/

namespace NckuOs.Matrix

open NckuOs.Decimal
open NckuOs.LoopNest
open NckuOs.ProcLog
open NckuOs.Scan
open NckuOs.Threads
open NckuOs.Transition

/-- The loops that print the cells. -/
def printCells (dims : Dims) (cell : Mat Word) (file : List UInt8) : List UInt8 :=
  (List.range dims.rowX).foldl (fun file i =>
    (List.range dims.colY).foldl (fun file j => file ++ cellText dims.colY (cell i j) j) file) file

/-- `main` and `thread` of `2_1.c`: what becomes of `2.txt`, and what is printed. -/
def main₂₁ (dims : Dims) (colX : Nat) (file₁ file₂ : List UInt8) (x₀ y₀ : Mat Word)
    (file : List UInt8) : Option (List UInt8 × List UInt8) :=
  (dataProcessing ⟨dims.rowX, colX⟩ ⟨dims.rowY, dims.colY⟩ file₁ file₂ x₀ y₀).map fun data =>
    (printCells dims (fun i j => res data.x data.y i j dims.rowY) (file ++ header dims),
      data.printed)

/-- `main` of `2_2.c`, in some interleaving of its threads; `z₀` is what `malloc` has left
in `z`. -/
def Main₂₂ (dims : Dims) (colX : Nat) (file₁ file₂ : List UInt8) (x₀ y₀ z₀ : Mat Word)
    (file : List UInt8) (result : List UInt8 × List UInt8) : Prop :=
  ∃ data, dataProcessing ⟨dims.rowX, colX⟩ ⟨dims.rowY, dims.colY⟩ file₁ file₂ x₀ y₀ = some data ∧
    let both := threads dims.rowX dims.colY dims.rowY data.x data.y z₀
    ∃ config, Reachable both.system config ∧
      (∀ t, both.step t config.shared (config.thread t) = none) ∧
      result = (printCells dims config.shared (file ++ header dims), data.printed)

theorem printCells_eq (dims : Dims) (cell : Mat Word) (file : List UInt8) :
    printCells dims cell file = file ++ rowsText dims.colY cell dims.rowX := by
  have row (file : List UInt8) (i : Nat) : (List.range dims.colY).foldl (fun file j =>
      file ++ cellText dims.colY (cell i j) j) file =
        file ++ cellsText dims.colY (cell i) dims.colY := by
    rw [List.foldl_append_eq_append, ← List.flatMap_def, cellsText]
  simp only [printCells, row]
  rw [List.foldl_append_eq_append, ← List.flatMap_def, rowsText]

/-! ## The format -/

/-- A matrix in the format of the programs. -/
def matrixText (dims : Dims) (m : Mat Word) : List UInt8 :=
  header dims ++ rowsText dims.colY m dims.rowX

/-- The cells, row by row. -/
def entries (size : Size) (m : Mat Word) : List Int :=
  (List.range size.rows).flatMap fun i => (List.range size.cols).map fun j => (m i j).toInt

/-- A text that a program reads as a matrix. -/
def SpellsMatrix (size : Size) (text : List UInt8) (m : Mat Word) : Prop :=
  ∃ first second numbers, Numbers text (first :: second :: numbers) ∧ IsInt first ∧
    IsInt second ∧ (∀ z ∈ numbers, IsInt z) ∧ size.rows * size.cols ≤ numbers.length ∧
    ∀ i < size.rows, ∀ j < size.cols,
      numbers[i * size.cols + j]?.map (BitVec.ofInt 32) = some (m i j)

theorem length_entries (size : Size) (m : Mat Word) :
    (entries size m).length = size.rows * size.cols := by
  simp [entries, List.length_flatMap]

theorem entries_getElem? (rows cols : Nat) (m : Mat Word) {i j : Nat} (row : i < rows)
    (col : j < cols) : (entries ⟨rows, cols⟩ m)[i * cols + j]? = some (m i j).toInt := by
  induction rows with
  | zero => cases row
  | succ rows ih =>
      have split : entries ⟨rows + 1, cols⟩ m =
          entries ⟨rows, cols⟩ m ++ (List.range cols).map fun j => (m rows j).toInt := by
        simp [entries, List.range_succ]
      have length : (entries ⟨rows, cols⟩ m).length = rows * cols := length_entries _ m
      rw [split]
      by_cases early : i < rows
      · have inside : i * cols + j < rows * cols := by
          have next := Nat.mul_le_mul_right cols early
          rw [Nat.succ_mul] at next
          omega
        rw [List.getElem?_append_left (by omega)]
        exact ih early
      · obtain rfl : i = rows := by omega
        rw [List.getElem?_append_right (by omega), length, Nat.add_sub_cancel_left]
        simp [col]

/-- The rows of a matrix spell its cells. -/
theorem numbers_rowsText (size : Size) (m : Mat Word) :
    Numbers (rowsText size.cols m size.rows) (entries size m) := by
  have rows := numbers_rows size.cols m (List.range size.rows) numbers_nil
  rwa [List.append_nil, List.append_nil] at rows

theorem isInt_toInt (word : Word) : IsInt word.toInt :=
  ⟨BitVec.le_toInt word, BitVec.toInt_lt⟩

theorem isInt_natCast {n : Nat} (small : n < 2 ^ 31) : IsInt n := by
  rw [IsInt]
  omega

/-- What a program prints can be read back. -/
theorem spellsMatrix_text {dims : Dims} (fewRows : dims.rowX < 2 ^ 31)
    (fewCols : dims.colY < 2 ^ 31) (m : Mat Word) :
    SpellsMatrix ⟨dims.rowX, dims.colY⟩ (matrixText dims m) m := by
  have rows := numbers_rowsText ⟨dims.rowX, dims.colY⟩ m
  have space : Blank (ascii [' ']) := by decide +kernel
  have newline : Blank (ascii ['\n']) := by decide +kernel
  have text := Numbers.cons (spells_intDigits dims.rowX) space (by decide)
    (.cons (spells_intDigits dims.colY) newline (by decide) rows)
  refine ⟨dims.rowX, dims.colY, entries ⟨dims.rowX, dims.colY⟩ m, ?_, isInt_natCast fewRows,
    isInt_natCast fewCols, ?_, (length_entries _ m).ge, ?_⟩
  · have digits (n : Nat) : intDigits n = natDigits n := rfl
    rw [digits, digits] at text
    rw [matrixText, header]
    simpa only [List.append_assoc] using text
  · intro z isMem
    rcases List.mem_flatMap.mp isMem with ⟨i, _, inRow⟩
    rcases List.mem_map.mp inRow with ⟨j, _, rfl⟩
    exact isInt_toInt (m i j)
  · intro i row j col
    rw [entries_getElem? _ _ m row col, Option.map_some, BitVec.ofInt_toInt]

/-- The rows that a program prints say what is in every cell. -/
theorem rowsText_inj {rows cols : Nat} {m m' : Mat Word} :
    rowsText cols m rows = rowsText cols m' rows ↔ ∀ i < rows, ∀ j < cols, m i j = m' i j := by
  constructor
  · intro same i row j col
    have numbers := numbers_rowsText ⟨rows, cols⟩ m
    have numbers' := numbers_rowsText ⟨rows, cols⟩ m'
    dsimp only at numbers numbers'
    rw [same] at numbers
    have cell := entries_getElem? rows cols m row col
    rw [← numbers.unique numbers', entries_getElem? rows cols m' row col,
      Option.some.injEq] at cell
    exact (BitVec.eq_of_toInt_eq cell).symm
  · intro same
    apply List.flatMap_congr
    intro i row
    apply List.flatMap_congr
    intro j col
    rw [same i (List.mem_range.mp row) j (List.mem_range.mp col)]

/-- A program reads a matrix that a text spells. -/
theorem readMatrix_spells {size : Size} {text : List UInt8} {m : Mat Word}
    (spells : SpellsMatrix size text m) (m₀ : Mat Word) :
    ∃ m', readMatrix size m₀ text = some (m', true) ∧
      ∀ i < size.rows, ∀ j < size.cols, m' i j = m i j := by
  rcases spells with ⟨first, second, numbers, spelt, isInt, isInt', ints, enough, cells⟩
  have all : ∀ z ∈ first :: second :: numbers, IsInt z := by
    intro z isMem
    rcases List.mem_cons.mp isMem with rfl | isMem
    · exact isInt
    rcases List.mem_cons.mp isMem with rfl | isMem
    · exact isInt'
    · exact ints z isMem
  have read := readMatrix_spelt spelt all size m₀
  have isEnough : Enough size (first :: second :: numbers) := enough
  rw [decide_eq_true isEnough] at read
  refine ⟨_, read, ?_⟩
  intro i row j col
  rw [filled, if_pos ⟨row, col⟩]
  have cell := cells i row j col
  change ((numbers[i * size.cols + j]?).map _).getD _ = _
  rw [cell, Option.getD_some]

theorem dataProcessing_spells {sizeX sizeY : Size} {file₁ file₂ : List UInt8} {x y : Mat Word}
    (spellsX : SpellsMatrix sizeX file₁ x) (spellsY : SpellsMatrix sizeY file₂ y)
    (x₀ y₀ : Mat Word) : ∃ data, dataProcessing sizeX sizeY file₁ file₂ x₀ y₀ = some data ∧
      (∀ i < sizeX.rows, ∀ j < sizeX.cols, data.x i j = x i j) ∧
      (∀ i < sizeY.rows, ∀ j < sizeY.cols, data.y i j = y i j) ∧ data.printed = [] := by
  rcases readMatrix_spells spellsX x₀ with ⟨x', readX, sameX⟩
  rcases readMatrix_spells spellsY y₀ with ⟨y', readY, sameY⟩
  refine ⟨⟨x', y', []⟩, ?_, sameX, sameY, rfl⟩
  simp [dataProcessing, readX, readY]

/-! ## The product -/

/-- `2_1.c` appends the product of the matrices that it reads. -/
theorem main₂₁_spells {dims : Dims} {file₁ file₂ : List UInt8} {x y : Mat Word}
    (spellsX : SpellsMatrix ⟨dims.rowX, dims.rowY⟩ file₁ x)
    (spellsY : SpellsMatrix ⟨dims.rowY, dims.colY⟩ file₂ y) (x₀ y₀ : Mat Word)
    (file : List UInt8) : main₂₁ dims dims.rowY file₁ file₂ x₀ y₀ file =
      some (file ++ matrixText dims (product dims x y), []) := by
  rcases dataProcessing_spells spellsX spellsY x₀ y₀ with ⟨data, read, sameX, sameY, printed⟩
  have cells : ∀ i < dims.rowX, ∀ j < dims.colY,
      res data.x data.y i j dims.rowY = product dims x y i j := by
    intro i row j col
    rw [res_eq_sum, product]
    apply Finset.sum_congr rfl
    intro k inner
    have below := (Finset.mem_Ico.mp inner).2
    rw [sameX i row k below, sameY k below j col]
  have rows := rowsText_inj.mpr cells
  rw [main₂₁, read, Option.map_some, printCells_eq, rows, printed, matrixText, List.append_assoc]

/-- The output of one run is the input of another: two runs of `2_1.c` write the product of
three matrices, whatever the layout of the files and the contents of fresh memory. -/
theorem runs_multiply {p q r s : Nat} {fileA fileB fileC : List UInt8} {a b c : Mat Word}
    (spellsA : SpellsMatrix ⟨p, q⟩ fileA a) (spellsB : SpellsMatrix ⟨q, r⟩ fileB b)
    (spellsC : SpellsMatrix ⟨r, s⟩ fileC c) (fewRows : p < 2 ^ 31) (fewCols : r < 2 ^ 31)
    (x₀ y₀ x₁ y₁ : Mat Word) :
    ∃ out, main₂₁ ⟨p, q, r⟩ q fileA fileB x₀ y₀ [] = some (out, []) ∧
      main₂₁ ⟨p, r, s⟩ r out fileC x₁ y₁ [] = some (matrixText ⟨p, r, s⟩
        (product ⟨p, r, s⟩ (product ⟨p, q, r⟩ a b) c), []) := by
  have first := @main₂₁_spells ⟨p, q, r⟩ fileA fileB a b spellsA spellsB x₀ y₀ []
  have middle := @spellsMatrix_text ⟨p, q, r⟩ fewRows fewCols (product ⟨p, q, r⟩ a b)
  have second := @main₂₁_spells ⟨p, r, s⟩ _ fileC _ c middle spellsC x₁ y₁ []
  exact ⟨_, first, second⟩

/-- The matrix `(0 2 4; 1 3 5)`. -/
def twoByThree : Mat Word := fun i k => .ofNat 32 (i + 2 * k)

/-- The matrix `(0 1; 3 4; 6 7)`. -/
def threeByTwo : Mat Word := fun k j => .ofNat 32 (3 * k + j)

/-- The matrix `(1; 2)`. -/
def twoByOne : Mat Word := fun i _ => .ofNat 32 (i + 1)

/-- The product of the three is `(102; 135)`. -/
theorem runs_multiply_threeMatrices : ∃ out,
    main₂₁ ⟨2, 3, 2⟩ 3 (matrixText ⟨2, 2, 3⟩ twoByThree) (matrixText ⟨3, 3, 2⟩ threeByTwo)
      (fun _ _ => 7) (fun _ _ => 7) [] = some (out, []) ∧
    main₂₁ ⟨2, 2, 1⟩ 2 out (matrixText ⟨2, 2, 1⟩ twoByOne) (fun _ _ => 7) (fun _ _ => 7) [] =
      some (matrixText ⟨2, 2, 1⟩ fun i _ => if i = 0 then 102 else 135, []) := by
  have spellsA := @spellsMatrix_text ⟨2, 2, 3⟩ (by decide) (by decide) twoByThree
  have spellsB := @spellsMatrix_text ⟨3, 3, 2⟩ (by decide) (by decide) threeByTwo
  have spellsC := @spellsMatrix_text ⟨2, 2, 1⟩ (by decide) (by decide) twoByOne
  have twice := runs_multiply spellsA spellsB spellsC (by decide) (by decide)
    (fun _ _ => 7) (fun _ _ => 7) (fun _ _ => 7) fun _ _ => 7
  have result : rowsText 1 (product ⟨2, 2, 1⟩ (product ⟨2, 3, 2⟩ twoByThree threeByTwo)
      twoByOne) 2 = rowsText 1 (fun i _ => if i = 0 then 102 else 135) 2 := by
    apply rowsText_inj.mpr
    decide +kernel
  have text : matrixText ⟨2, 2, 1⟩ (product ⟨2, 2, 1⟩ (product ⟨2, 3, 2⟩ twoByThree threeByTwo)
      twoByOne) = matrixText ⟨2, 2, 1⟩ fun i _ => if i = 0 then 102 else 135 :=
    congrArg (header _ ++ ·) result
  rw [← text]
  exact twice

/-! ## One thread and two -/

/-- On any input files, with the same fresh memory for `x` and `y`, both programs print the same,
and `2_2.c` writes what `2_1.c` writes, in whatever order its threads move, exactly when
`malloc` has returned cells that are zero. -/
theorem programs_agree_iff {dims : Dims} {colX : Nat} {file₁ file₂ : List UInt8}
    {x₀ y₀ z₀ : Mat Word} {file : List UInt8} {one two : List UInt8 × List UInt8}
    (single : main₂₁ dims colX file₁ file₂ x₀ y₀ file = some one)
    (double : Main₂₂ dims colX file₁ file₂ x₀ y₀ z₀ file two) :
    one.2 = two.2 ∧ (one.1 = two.1 ↔ ∀ i < dims.rowX, ∀ j < dims.colY, z₀ i j = 0) := by
  rcases double with ⟨data, read, config, reachable, done, rfl⟩
  rw [main₂₁, read, Option.map_some, Option.some.injEq] at single
  subst single
  refine ⟨rfl, ?_⟩
  rw [printCells_eq, printCells_eq, List.append_cancel_left_eq, rowsText_inj]
  have cells : ∀ i < dims.rowX, ∀ j < dims.colY,
      config.shared i j = z₀ i j + res data.x data.y i j dims.rowY := by
    intro i row j col
    rw [cells_of_done reachable done, total_halves data.x data.y row col]
  constructor
  · intro same i row j col
    have cell := same i row j col
    rw [cells i row j col] at cell
    exact left_eq_add.mp (by rw [add_comm]; exact cell)
  · intro zero i row j col
    rw [cells i row j col, zero i row j col, zero_add]

/-- With empty files and seven in the only cell: the product of what is in fresh memory, and
seven more. -/
theorem programs_agree_iff_garbage : ∃ one two,
    main₂₁ ⟨1, 1, 1⟩ 1 [] [] (fun _ _ => 2) (fun _ _ => 3) [] = some one ∧
    Main₂₂ ⟨1, 1, 1⟩ 1 [] [] (fun _ _ => 2) (fun _ _ => 3) (fun _ _ => 7) [] two ∧
    one.2 = two.2 ∧ one.1 ≠ two.1 := by
  have read : dataProcessing ⟨1, 1⟩ ⟨1, 1⟩ [] [] (fun _ _ => 2) (fun _ _ => 3) =
      some ⟨fun _ _ => 2, fun _ _ => 3, errorText⟩ := rfl
  let both := threads 1 1 1 (fun _ _ => 2) (fun _ _ => 3) fun _ _ => 7
  let start : Config (Fin 2) (Mat Word) Nest := ⟨fun _ _ => 7, fun t => (bounds 1 1 1 t).start⟩
  have runs : ((both.run [0, 0, 1, 1, 1] start).any fun config =>
      decide (∀ t, ¬(config.thread t).i < (config.thread t).bounds.rowTo)) = true := by
    decide +kernel
  rcases (Option.any_eq_true _ _).mp runs with ⟨config, ends, ended⟩
  have started : Trace both.system [] start := .start rfl
  have reachable : Reachable both.system config := ⟨_, Program.trace_run _ started ends⟩
  have double : Main₂₂ ⟨1, 1, 1⟩ 1 [] [] (fun _ _ => 2) (fun _ _ => 3) (fun _ _ => 7) [] _ :=
    ⟨_, read, config, reachable, threads_done (of_decide_eq_true ended), rfl⟩
  have single : main₂₁ ⟨1, 1, 1⟩ 1 [] [] (fun _ _ => 2) (fun _ _ => 3) [] = some _ := rfl
  rcases programs_agree_iff single double with ⟨printed, agree⟩
  refine ⟨_, _, single, double, printed, ?_⟩
  intro same
  have zero := agree.mp same 0 Nat.zero_lt_one 0 Nat.zero_lt_one
  exact absurd zero (by decide)

end NckuOs.Matrix
