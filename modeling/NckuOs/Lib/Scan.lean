import Mathlib.Data.List.Basic
import Mathlib.Data.List.TakeWhile
import NckuOs.Lib.Decimal

/-!
# Reading decimal numbers

The conversion `%d` of the `scanf` family: white space is skipped, and the number that
stands behind it is read up to the first byte that does not belong to it.  A text that
spells a list of numbers is read number by number, however it is laid out.
-/

namespace NckuOs.Scan

open NckuOs.Decimal

/-- `isspace`. -/
def isSpace (c : UInt8) : Bool :=
  c == 32 || (9 ≤ c && c ≤ 13)

/-- `isdigit`. -/
def isDecimal (c : UInt8) : Bool :=
  48 ≤ c && c ≤ 57

/-- The value of some digits. -/
def value (digits : List UInt8) : Nat :=
  digits.foldl (fun sofar c => 10 * sofar + (c.toNat - 48)) 0

/-- An optional sign. -/
def scanSign : List UInt8 → Bool × List UInt8
  | 45 :: rest => (true, rest)
  | 43 :: rest => (false, rest)
  | text => (false, text)

/-- The digits behind the sign, if there are any, and what is left. -/
def scanDigits (negative : Bool) (text : List UInt8) : Option Int × List UInt8 :=
  let digits := text.takeWhile isDecimal
  let rest := text.dropWhile isDecimal
  if digits = [] then (none, rest)
  else (some (if negative then -(value digits : Int) else value digits), rest)

/-- `%d`: the number, if there is one, and what is left of the input.  A sign without
digits is gone. -/
def scanInt (input : List UInt8) : Option Int × List UInt8 :=
  let signed := scanSign (input.dropWhile isSpace)
  scanDigits signed.1 signed.2

example : scanInt [9, 45, 49, 50, 13, 51] = (some (-12), [13, 51]) := by decide

/-- Nothing but white space. -/
def Blank (text : List UInt8) : Prop :=
  ∀ c ∈ text, isSpace c = true

instance (text : List UInt8) : Decidable (Blank text) :=
  inferInstanceAs (Decidable (∀ c ∈ text, _))

/-- Digits, perhaps with a sign, that stand for a number. -/
def Spells (text : List UInt8) (z : Int) : Prop :=
  ∃ digits, digits ≠ [] ∧ (∀ c ∈ digits, isDecimal c = true) ∧
    ((text = digits ∨ text = 43 :: digits) ∧ z = value digits ∨
      text = 45 :: digits ∧ z = -value digits)

/-- The text is behind a number: it does not go on with a digit. -/
def Parted (text : List UInt8) : Prop :=
  ∀ c ∈ text.head?, isDecimal c = false

/-- A text of numbers with white space between them. -/
inductive Numbers : List UInt8 → List Int → Prop
  | last {gap : List UInt8} (blank : Blank gap) : Numbers gap []
  | next {gap text rest : List UInt8} {z : Int} {others : List Int} (blank : Blank gap)
      (spelt : Spells text z) (parted : Parted rest) (later : Numbers rest others) :
      Numbers (gap ++ text ++ rest) (z :: others)

theorem not_isSpace_of_isDecimal {c : UInt8} (digit : isDecimal c = true) :
    isSpace c = false := by
  simp only [isDecimal, isSpace, Bool.and_eq_true, decide_eq_true_eq, Bool.or_eq_false_iff,
    beq_eq_false_iff_ne, Bool.and_eq_false_iff, decide_eq_false_iff_not, UInt8.le_iff_toNat_le,
    ne_eq, ← UInt8.toNat_inj] at digit ⊢
  have high : (57 : UInt8).toNat = 57 := rfl
  have low : (48 : UInt8).toNat = 48 := rfl
  have space : (32 : UInt8).toNat = 32 := rfl
  have tab : (9 : UInt8).toNat = 9 := rfl
  have last : (13 : UInt8).toNat = 13 := rfl
  omega

theorem scanInt_blank {text : List UInt8} (blank : Blank text) : scanInt text = (none, []) := by
  have nothing : text.dropWhile isSpace = [] := List.dropWhile_eq_nil_iff.mpr blank
  rw [scanInt, nothing]
  rfl

theorem span_digits {digits rest : List UInt8} (all : ∀ c ∈ digits, isDecimal c = true)
    (parted : Parted rest) : (digits ++ rest).takeWhile isDecimal = digits ∧
      (digits ++ rest).dropWhile isDecimal = rest := by
  rw [List.takeWhile_append_of_pos all, List.dropWhile_append_of_pos all]
  cases rest with
  | nil => exact ⟨List.append_nil digits, rfl⟩
  | cons c rest =>
      have stops := parted c rfl
      simp [stops]

theorem scanDigits_spelt {digits rest : List UInt8} (some_ : digits ≠ [])
    (all : ∀ c ∈ digits, isDecimal c = true) (parted : Parted rest) (negative : Bool) :
    scanDigits negative (digits ++ rest) =
      (some (if negative then -(value digits : Int) else value digits), rest) := by
  rcases span_digits all parted with ⟨taken, dropped⟩
  rw [scanDigits, taken, dropped, if_neg some_]

theorem scanSign_digit {c : UInt8} (digit : isDecimal c = true) (text : List UInt8) :
    scanSign (c :: text) = (false, c :: text) := by
  unfold scanSign
  split
  next minus =>
    cases minus
    exact absurd digit (by decide)
  next plus =>
    cases plus
    exact absurd digit (by decide)
  next => rfl

/-- The next number is read, and nothing behind it. -/
theorem scanInt_next {gap text rest : List UInt8} {z : Int} (blank : Blank gap)
    (spelt : Spells text z) (parted : Parted rest) :
    scanInt (gap ++ text ++ rest) = (some z, rest) := by
  rcases spelt with ⟨digits, some_, all, spelt⟩
  rcases List.exists_cons_of_ne_nil some_ with ⟨d, ds, rfl⟩
  have first : isDecimal d = true := all d List.mem_cons_self
  have skip {body : List UInt8} {c : UInt8} (notSpace : isSpace c = false) :
      (gap ++ (c :: body)).dropWhile isSpace = c :: body := by
    rw [List.dropWhile_append_of_pos blank, List.dropWhile_cons_of_neg (by simp [notSpace])]
  have spells := scanDigits_spelt some_ all parted
  rw [List.append_assoc]
  rcases spelt with ⟨rfl | rfl, rfl⟩ | ⟨rfl, rfl⟩
  · rw [scanInt, List.cons_append, skip (not_isSpace_of_isDecimal first), scanSign_digit first]
    exact spells false
  · have plus : isSpace 43 = false := by decide
    rw [scanInt, List.cons_append, skip plus]
    exact spells false
  · have minus : isSpace 45 = false := by decide
    rw [scanInt, List.cons_append, skip minus]
    exact spells true

theorem Blank.append {text text' : List UInt8} (blank : Blank text) (blank' : Blank text') :
    Blank (text ++ text') := by
  intro c isMem
  rcases List.mem_append.mp isMem with first | second
  · exact blank c first
  · exact blank' c second

/-- White space parts a number from what comes behind it. -/
theorem Blank.parted {gap : List UInt8} (blank : Blank gap) (some_ : gap ≠ [])
    (rest : List UInt8) : Parted (gap ++ rest) := by
  rcases List.exists_cons_of_ne_nil some_ with ⟨c, gap', rfl⟩
  rintro _ ⟨⟩
  have space := blank c List.mem_cons_self
  by_contra digit
  rw [Bool.not_eq_false] at digit
  rw [not_isSpace_of_isDecimal digit] at space
  cases space

theorem numbers_nil : Numbers [] [] :=
  .last fun _ isMem => absurd isMem List.not_mem_nil

/-- White space in front of a text spells nothing more. -/
theorem Numbers.skip {gap text : List UInt8} {zs : List Int} (blank : Blank gap)
    (numbers : Numbers text zs) : Numbers (gap ++ text) zs := by
  cases numbers with
  | last blank' => exact .last (blank.append blank')
  | next blank' spelt parted later =>
      rw [← List.append_assoc, ← List.append_assoc]
      exact .next (blank.append blank') spelt parted later

/-- A number, white space behind it, and more. -/
theorem Numbers.cons {text gap rest : List UInt8} {z : Int} {zs : List Int}
    (spelt : Spells text z) (blank : Blank gap) (some_ : gap ≠ []) (numbers : Numbers rest zs) :
    Numbers (text ++ (gap ++ rest)) (z :: zs) := by
  have nothing : Blank [] := fun c isMem => absurd isMem List.not_mem_nil
  exact .next nothing spelt (blank.parted some_ rest) (numbers.skip blank)

theorem Numbers.scan_nil {text : List UInt8} (numbers : Numbers text []) :
    scanInt text = (none, []) := by
  cases numbers with
  | last blank => exact scanInt_blank blank

theorem Numbers.scan_cons {text : List UInt8} {z : Int} {others : List Int}
    (numbers : Numbers text (z :: others)) :
    ∃ rest, scanInt text = (some z, rest) ∧ Numbers rest others := by
  cases numbers with
  | next blank spelt parted later => exact ⟨_, scanInt_next blank spelt parted, later⟩

/-- A text spells one list of numbers. -/
theorem Numbers.unique {text : List UInt8} {zs zs' : List Int} (numbers : Numbers text zs)
    (numbers' : Numbers text zs') : zs' = zs := by
  induction zs generalizing text zs' with
  | nil =>
      cases zs' with
      | nil => rfl
      | cons z' others' =>
          rcases numbers'.scan_cons with ⟨rest, scanned, _⟩
          rw [numbers.scan_nil] at scanned
          cases scanned
  | cons z others ih =>
      rcases numbers.scan_cons with ⟨rest, scanned, later⟩
      cases zs' with
      | nil =>
          rw [numbers'.scan_nil] at scanned
          cases scanned
      | cons z' others' =>
          rcases numbers'.scan_cons with ⟨rest', scanned', later'⟩
          rw [scanned] at scanned'
          cases scanned'
          rw [ih later later']

/-! ## What `printf` prints -/

theorem toNat_ascii {c : Char} (digit : c.isDigit = true) :
    (UInt8.ofNat c.toNat).toNat = c.toNat ∧ 48 ≤ c.toNat ∧ c.toNat ≤ 57 := by
  simp only [Char.isDigit, Bool.and_eq_true, decide_eq_true_eq, ge_iff_le,
    UInt32.le_iff_toNat_le] at digit
  have low : 48 ≤ c.toNat := digit.1
  have high : c.toNat ≤ 57 := digit.2
  rw [UInt8.toNat_ofNat', Nat.mod_eq_of_lt (by omega)]
  exact ⟨rfl, low, high⟩

theorem value_ascii {digits : List Char} (all : ∀ c ∈ digits, c.isDigit = true) :
    value (ascii digits) = Nat.ofDigitChars 10 digits 0 := by
  rw [value, ascii, List.foldl_map, Nat.ofDigitChars_eq_foldl]
  apply List.foldl_ext
  intro sofar c isMem
  rw [(toNat_ascii (all c isMem)).1]
  rfl

theorem natDigits_spec (n : Nat) : natDigits n ≠ [] ∧
    (∀ c ∈ natDigits n, isDecimal c = true) ∧ value (natDigits n) = n := by
  have all : ∀ c ∈ Nat.toDigits 10 n, c.isDigit = true := fun c isMem =>
    Nat.isDigit_of_mem_toDigits (by decide) (by decide) isMem
  refine ⟨?_, ?_, ?_⟩
  · intro empty
    have none := congrArg List.length empty
    rw [length_natDigits] at none
    cases none
  · intro c isMem
    rcases List.mem_map.mp isMem with ⟨digit, isDigit, rfl⟩
    rcases toNat_ascii (all digit isDigit) with ⟨same, low, high⟩
    simp only [isDecimal, Bool.and_eq_true, decide_eq_true_eq, UInt8.le_iff_toNat_le, same]
    exact ⟨low, high⟩
  · rw [natDigits, value_ascii all, Nat.ofDigitChars_ten_toDigits]

/-- `%d` reads what `%d` prints. -/
theorem spells_intDigits (z : Int) : Spells (intDigits z) z := by
  cases z with
  | ofNat n =>
      rcases natDigits_spec n with ⟨some_, all, same⟩
      exact ⟨natDigits n, some_, all, .inl ⟨.inl rfl, by rw [same]; rfl⟩⟩
  | negSucc n =>
      rcases natDigits_spec (n + 1) with ⟨some_, all, same⟩
      exact ⟨natDigits (n + 1), some_, all, .inr ⟨rfl, by rw [same]; rfl⟩⟩

/-! ## Numbers behind fixed words -/

/-- What is left behind a fixed text. -/
def expect (literal input : List UInt8) : Option (List UInt8) :=
  if literal <+: input then some (input.drop literal.length) else none

theorem expect_append (literal rest : List UInt8) :
    expect literal (literal ++ rest) = some rest := by
  rw [expect, if_pos (List.prefix_append literal rest), List.drop_left]

/-- The number behind a fixed text, and what is left. -/
def scanField (literal input : List UInt8) : Option (Int × List UInt8) :=
  (expect literal input).bind fun rest => (scanInt rest).1.map fun z => (z, (scanInt rest).2)

theorem scanField_printed (literal : List UInt8) (z : Int) {rest : List UInt8}
    (parted : Parted rest) :
    scanField literal (literal ++ (intDigits z ++ rest)) = some (z, rest) := by
  have blank : Blank [] := by
    rintro c ⟨⟩
  have scanned := scanInt_next blank (spells_intDigits z) parted
  rw [List.nil_append] at scanned
  rw [scanField, expect_append, Option.bind_some, scanned, Option.map_some]

end NckuOs.Scan
