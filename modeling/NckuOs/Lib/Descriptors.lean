import Mathlib.Data.Finset.Card
import Mathlib.Data.List.Basic

/-!
# Descriptor tables

The table of a process's open descriptors, in the manner of POSIX: a descriptor is an
index, an entry is an open file description or nothing, and opening takes the lowest
free index.
-/

namespace NckuOs.Descriptors

universe u

/-- The entries of a table; behind its end every descriptor is closed. -/
abbrev Table (δ : Type u) := List (Option δ)

namespace Table

variable {δ : Type u}

/-- The open file description of a descriptor. -/
def lookup (table : Table δ) (fd : Nat) : Option δ :=
  (table[fd]?).join

/-- The lowest free descriptor. -/
def lowest (table : Table δ) : Nat :=
  table.findIdx Option.isNone

/-- Change one entry. -/
def put (table : Table δ) (fd : Nat) (entry : Option δ) : Table δ :=
  (table ++ List.replicate (fd + 1 - table.length) none).set fd entry

/-- `close`. -/
def close (table : Table δ) (fd : Nat) : Table δ :=
  table.put fd none

/-- `dup2`, which does nothing when the old descriptor is closed. -/
def dup2 (table : Table δ) (old new : Nat) : Table δ :=
  match table.lookup old with
  | none => table
  | some entry => table.put new (some entry)

/-- Open a file description: the descriptor, and the table with it. -/
def alloc (table : Table δ) (entry : δ) : Nat × Table δ :=
  (table.lowest, table.put table.lowest (some entry))

/-- How many descriptors below a limit are free. -/
def free (table : Table δ) (limit : Nat) : Nat :=
  ((Finset.range limit).filter fun fd => table.lookup fd = none).card

/-- `open` or `dup` in a process that may have descriptors below a limit only. -/
def allocBelow (table : Table δ) (limit : Nat) (entry : δ) : Option (Nat × Table δ) :=
  if table.lowest < limit then some (table.alloc entry) else none

/-- Both tables have the same descriptors open, for the same file descriptions. -/
def Same (table table' : Table δ) : Prop :=
  ∀ fd, table'.lookup fd = table.lookup fd

/-- Some descriptor refers to the file description. -/
def Holds (table : Table δ) (entry : δ) : Prop :=
  some entry ∈ table

instance [DecidableEq δ] (table : Table δ) (entry : δ) : Decidable (table.Holds entry) :=
  inferInstanceAs (Decidable (_ ∈ _))

theorem lookup_put (table : Table δ) (fd fd' : Nat) (entry : Option δ) :
    (table.put fd entry).lookup fd' = if fd' = fd then entry else table.lookup fd' := by
  have long : fd < (table ++ List.replicate (fd + 1 - table.length) none).length := by
    rw [List.length_append, List.length_replicate]
    omega
  by_cases same : fd' = fd
  · subst same
    rw [if_pos rfl, lookup, put, List.getElem?_set_self long]
    rfl
  · rw [if_neg same, lookup, put, List.getElem?_set_ne (Ne.symm same), lookup]
    by_cases inside : fd' < table.length
    · rw [List.getElem?_append_left inside]
    · rw [List.getElem?_append_right (Nat.le_of_not_lt inside),
        List.getElem?_eq_none (Nat.le_of_not_lt inside)]
      cases padded : (List.replicate (fd + 1 - table.length) (none : Option δ))[fd' -
          table.length]? with
      | none => rfl
      | some entry' =>
          have isNone := List.eq_of_mem_replicate (List.mem_of_getElem? padded)
          rw [isNone]
          rfl

theorem lookup_put_self (table : Table δ) (fd : Nat) (entry : Option δ) :
    (table.put fd entry).lookup fd = entry := by
  rw [lookup_put, if_pos rfl]

theorem lookup_put_of_ne (table : Table δ) {fd fd' : Nat} (other : fd' ≠ fd)
    (entry : Option δ) : (table.put fd entry).lookup fd' = table.lookup fd' := by
  rw [lookup_put, if_neg other]

/-- The lowest free descriptor is free. -/
theorem lookup_lowest (table : Table δ) : table.lookup table.lowest = none := by
  rw [lookup, lowest]
  by_cases inside : table.findIdx Option.isNone < table.length
  · have isNone := List.findIdx_getElem (w := inside)
    rw [Option.isNone_iff_eq_none] at isNone
    rw [List.getElem?_eq_getElem inside, isNone]
    rfl
  · rw [List.getElem?_eq_none (Nat.le_of_not_lt inside)]
    rfl

/-- A new descriptor is none that was open. -/
theorem ne_lowest {table : Table δ} {fd : Nat} (opened : table.lookup fd ≠ none) :
    fd ≠ table.lowest := by
  rintro rfl
  exact opened table.lookup_lowest

theorem lookup_alloc_self (table : Table δ) (entry : δ) :
    (table.alloc entry).2.lookup (table.alloc entry).1 = some entry :=
  lookup_put_self table _ _

/-- Opening leaves what is open. -/
theorem lookup_alloc_of_open {table : Table δ} {fd : Nat} (opened : table.lookup fd ≠ none)
    (entry : δ) : (table.alloc entry).2.lookup fd = table.lookup fd :=
  lookup_put_of_ne table (ne_lowest opened) _

theorem holds_iff {table : Table δ} {entry : δ} :
    table.Holds entry ↔ ∃ fd, table.lookup fd = some entry := by
  constructor
  · intro isMem
    rcases List.mem_iff_getElem?.mp isMem with ⟨fd, found⟩
    refine ⟨fd, ?_⟩
    rw [lookup, found]
    rfl
  · rintro ⟨fd, found⟩
    cases at_ : table[fd]? with
    | none =>
        rw [lookup, at_] at found
        cases found
    | some entry' =>
        rw [lookup, at_] at found
        have same : entry' = some entry := found
        rw [Holds, ← same]
        exact List.mem_of_getElem? at_

/-- What a descriptor refers to after `dup2`. -/
theorem lookup_dup2 {table : Table δ} {old new fd : Nat} {entry : δ}
    (found : (table.dup2 old new).lookup fd = some entry) :
    table.lookup fd = some entry ∨ (fd = new ∧ table.lookup old = some entry) := by
  cases at_ : table.lookup old with
  | none =>
      rw [dup2, at_] at found
      exact .inl found
  | some duplicated =>
      rw [dup2, at_] at found
      dsimp only at found
      rw [lookup_put] at found
      split at found
      next same => exact .inr ⟨same, found⟩
      next => exact .inl found

theorem dup2_of_open {table : Table δ} {old : Nat} {entry : δ}
    (opened : table.lookup old = some entry) (new : Nat) :
    table.dup2 old new = table.put new (some entry) := by
  rw [dup2, opened]

theorem lookup_dup2_of_ne (table : Table δ) {fd new : Nat} (other : fd ≠ new) (old : Nat) :
    (table.dup2 old new).lookup fd = table.lookup fd := by
  unfold dup2
  split
  · rfl
  · exact lookup_put_of_ne table other _

theorem lookup_close_of_ne (table : Table δ) {fd closed : Nat} (other : fd ≠ closed) :
    (table.close closed).lookup fd = table.lookup fd :=
  lookup_put_of_ne table other _

/-- Opening adds one descriptor. -/
theorem lookup_alloc_iff (table : Table δ) {fd : Nat} {entry entry' : δ} :
    (table.alloc entry).2.lookup fd = some entry' ↔
      table.lookup fd = some entry' ∨ (fd = (table.alloc entry).1 ∧ entry = entry') := by
  have fresh : (table.alloc entry).1 = table.lowest := rfl
  by_cases same : fd = (table.alloc entry).1
  · have free : table.lookup fd = none := by
      rw [same, fresh]
      exact table.lookup_lowest
    rw [free, same, lookup_alloc_self]
    simp
  · have kept : (table.alloc entry).2.lookup fd = table.lookup fd :=
      lookup_put_of_ne table same _
    rw [kept]
    simp [same]

/-- Closing the only descriptor of a file description removes that description. -/
theorem lookup_close_iff {table : Table δ} {closed fd : Nat} {entry entry' : δ}
    (opened : table.lookup closed = some entry)
    (only : ∀ other, table.lookup other = some entry → other = closed) :
    (table.close closed).lookup fd = some entry' ↔
      table.lookup fd = some entry' ∧ entry' ≠ entry := by
  rw [close, lookup_put]
  by_cases same : fd = closed
  · rw [if_pos same, same, opened, Option.some.injEq]
    constructor
    · intro found
      cases found
    · rintro ⟨rfl, differs⟩
      exact absurd rfl differs
  · rw [if_neg same]
    constructor
    · intro found
      refine ⟨found, ?_⟩
      rintro rfl
      exact same (only fd found)
    · exact And.left

/-! ## Descriptors below a limit -/

/-- No free descriptor is below the lowest one. -/
theorem lowest_le {table : Table δ} {fd : Nat} (free : table.lookup fd = none) :
    table.lowest ≤ fd := by
  by_contra below
  have early : fd < table.findIdx Option.isNone := Nat.lt_of_not_le below
  have inside : fd < table.length := early.trans_le List.findIdx_le_length
  have opened := List.not_of_lt_findIdx early
  rw [lookup, List.getElem?_eq_getElem inside] at free
  have closed : table[fd] = none := free
  rw [closed] at opened
  cases opened

theorem Same.trans {first second third : Table δ} (same : Same first second)
    (same' : Same second third) : Same first third :=
  fun fd => (same' fd).trans (same fd)

theorem Same.lowest {table table' : Table δ} (same : Same table table') :
    table'.lowest = table.lowest := by
  apply Nat.le_antisymm
  · exact lowest_le ((same _).trans table.lookup_lowest)
  · exact lowest_le ((same _).symm.trans table'.lookup_lowest)

/-- As many descriptors are free when the same ones are. -/
theorem free_congr {table table' : Table δ}
    (closed : ∀ fd, table'.lookup fd = none ↔ table.lookup fd = none) (limit : Nat) :
    table'.free limit = table.free limit := by
  rw [free, free]
  congr 1
  apply Finset.filter_congr
  exact fun fd _ => closed fd

theorem Same.free {table table' : Table δ} (same : Same table table') (limit : Nat) :
    table'.free limit = table.free limit :=
  free_congr (fun fd => by rw [same fd]) limit

theorem lowest_lt_iff (table : Table δ) (limit : Nat) :
    table.lowest < limit ↔ 1 ≤ table.free limit := by
  rw [free, Nat.one_le_iff_ne_zero, Finset.card_ne_zero]
  constructor
  · intro below
    exact ⟨table.lowest, Finset.mem_filter.mpr
      ⟨Finset.mem_range.mpr below, table.lookup_lowest⟩⟩
  · rintro ⟨fd, isMem⟩
    rcases Finset.mem_filter.mp isMem with ⟨below, closed⟩
    exact Nat.lt_of_le_of_lt (lowest_le closed) (Finset.mem_range.mp below)

theorem allocBelow_eq_none_iff (table : Table δ) (limit : Nat) (entry : δ) :
    table.allocBelow limit entry = none ↔ table.free limit = 0 := by
  have positive := table.lowest_lt_iff limit
  rw [allocBelow]
  split
  next below =>
    have some := positive.mp below
    simp only [reduceCtorEq, false_iff]
    omega
  next full =>
    simp only [true_iff]
    have none := mt positive.mpr full
    omega

/-- What a new descriptor changes. -/
theorem allocBelow_cases {table next : Table δ} {limit fd : Nat} {entry : δ}
    (allocated : table.allocBelow limit entry = some (fd, next)) :
    table.lookup fd = none ∧ next = table.put fd (some entry) ∧
      next.free limit + 1 = table.free limit := by
  rw [allocBelow] at allocated
  split at allocated
  next below =>
    cases allocated
    refine ⟨table.lookup_lowest, rfl, ?_⟩
    have isMem : table.lowest ∈
        (Finset.range limit).filter fun fd => table.lookup fd = none :=
      Finset.mem_filter.mpr ⟨Finset.mem_range.mpr below, table.lookup_lowest⟩
    have others : ((Finset.range limit).filter fun fd =>
        (table.put table.lowest (some entry)).lookup fd = none) =
        ((Finset.range limit).filter fun fd => table.lookup fd = none).erase table.lowest := by
      ext fd
      simp only [Finset.mem_filter, Finset.mem_erase, lookup_put]
      by_cases same : fd = table.lowest
      · simp [same]
      · simp [same]
    rw [free, free, others, Finset.card_erase_add_one isMem]
  next => cases allocated

end Table

end NckuOs.Descriptors
