import Mathlib.Data.List.Basic
import Mathlib.Logic.Function.Basic

/-!
# Output through a buffer

Symbols wait in a buffer and are written to the destination that the output has when the
buffer is written, which need not be the one that it had when they were put there.
-/

namespace NckuOs.Buffered

universe u v

/-- A symbol that has been written, where it was meant to go, and where it went. -/
structure Written (κ : Type u) (α : Type v) where
  meant : κ
  went : κ
  symbol : α
  deriving DecidableEq

/-- The buffer, all that has been written, and what the destinations hold. -/
structure Output (κ : Type u) (α : Type v) where
  pending : List (κ × α)
  written : List (Written κ α)
  holds : κ → List α

variable {κ : Type u} {α : Type v} [DecidableEq κ]

namespace Output

/-- Write the buffer. -/
def flush (dest : κ) (output : Output κ α) : Output κ α where
  pending := []
  written := output.written ++ output.pending.map fun p => ⟨p.1, dest, p.2⟩
  holds := Function.update output.holds dest (output.holds dest ++ output.pending.map Prod.snd)

/-- A destination loses what it holds. -/
def truncate (place : κ) (output : Output κ α) : Output κ α :=
  { output with holds := Function.update output.holds place [] }

/-- A full buffer is written. -/
def makeRoom (capacity : Nat) (dest : κ) (output : Output κ α) : Output κ α :=
  if output.pending.length < capacity then output else output.flush dest

/-- One more symbol waits. -/
def add (dest : κ) (output : Output κ α) (symbol : α) : Output κ α :=
  { output with pending := output.pending ++ [(dest, symbol)] }

/-- Put a symbol into the buffer, which is written before it when it is full, and behind it
when it is a symbol of `ends`. -/
def put (capacity : Nat) (ends : α → Bool) (dest : κ) (output : Output κ α) (symbol : α) :
    Output κ α :=
  let longer := (output.makeRoom capacity dest).add dest symbol
  if ends symbol then longer.flush dest else longer

/-- Add a text. -/
def print (capacity : Nat) (ends : α → Bool) (dest : κ) (output : Output κ α) (text : List α) :
    Output κ α :=
  text.foldl (put capacity ends dest) output

/-- Something went elsewhere. -/
def Astray (output : Output κ α) : Prop :=
  ∃ one ∈ output.written, one.meant ≠ one.went

/-- Something went elsewhere, or the buffer holds symbols for two destinations. -/
def Doomed (output : Output κ α) : Prop :=
  output.Astray ∨ ∃ one ∈ output.pending, ∃ other ∈ output.pending, one.1 ≠ other.1

/-- Everything was meant for one destination, and has gone there as far as it is written. -/
structure Only (place : κ) (output : Output κ α) : Prop where
  pending : ∀ one ∈ output.pending, one.1 = place
  written : ∀ one ∈ output.written, one.meant = place ∧ one.went = place

/-- An empty buffer, before anything is written. -/
def start (holds : κ → List α) : Output κ α where
  pending := []
  written := []
  holds := holds

variable {capacity : Nat} {ends : α → Bool} {dest place : κ} {output : Output κ α}

/-! ## The right destination -/

omit [DecidableEq κ] in
theorem only_start (place : κ) (holds : κ → List α) : Only place (start holds) :=
  ⟨List.forall_mem_nil _, List.forall_mem_nil _⟩

theorem Only.flush (only : Only dest output) : Only dest (output.flush dest) where
  pending := List.forall_mem_nil _
  written := by
    intro one isMem
    rcases List.mem_append.mp isMem with earlier | now
    · exact only.written one earlier
    · rcases List.mem_map.mp now with ⟨p, waited, rfl⟩
      exact ⟨only.pending p waited, rfl⟩

theorem Only.truncate (only : Only dest output) (place : κ) : Only dest (output.truncate place) :=
  ⟨only.pending, only.written⟩

omit [DecidableEq κ] in
theorem Only.add (only : Only dest output) (symbol : α) : Only dest (output.add dest symbol) where
  pending := by
    intro one isMem
    rcases List.mem_append.mp isMem with earlier | now
    · exact only.pending one earlier
    · rw [List.mem_singleton.mp now]
  written := only.written

theorem Only.put (only : Only dest output) (symbol : α) :
    Only dest (output.put capacity ends dest symbol) := by
  have room : Only dest (output.makeRoom capacity dest) := by
    unfold makeRoom
    split
    · exact only
    · exact only.flush
  unfold Output.put
  dsimp only
  split
  · exact (room.add symbol).flush
  · exact room.add symbol

theorem Only.print (only : Only dest output) (text : List α) :
    Only dest (output.print capacity ends dest text) := by
  induction text generalizing output with
  | nil => exact only
  | cons symbol text ih => exact ih (only.put symbol)

/-! ## The other destinations -/

theorem holds_truncate_self (place : κ) (output : Output κ α) :
    (output.truncate place).holds place = [] :=
  Function.update_self _ _ _

/-- What is empty stays so when something is truncated. -/
theorem holds_truncate_of_empty (other : κ) (empty : output.holds place = []) :
    (output.truncate other).holds place = [] := by
  by_cases same : place = other
  · rw [same, holds_truncate_self]
  · exact (Function.update_of_ne same _ _).trans empty

theorem holds_flush_of_ne (other : place ≠ dest) : (output.flush dest).holds place =
    output.holds place :=
  Function.update_of_ne other _ _

theorem holds_put_of_ne (other : place ≠ dest) (symbol : α) :
    (output.put capacity ends dest symbol).holds place = output.holds place := by
  have room : (output.makeRoom capacity dest).holds place = output.holds place := by
    unfold makeRoom
    split
    · rfl
    · exact holds_flush_of_ne other
  unfold put
  dsimp only
  split
  · exact (holds_flush_of_ne other).trans room
  · exact room

/-- Nothing that is printed to one destination changes what another holds. -/
theorem holds_print_of_ne (other : place ≠ dest) (text : List α) :
    (output.print capacity ends dest text).holds place = output.holds place := by
  induction text generalizing output with
  | nil => rfl
  | cons symbol text ih => exact ih.trans (holds_put_of_ne other symbol)

/-! ## The wrong destination -/

theorem Astray.flush (astray : output.Astray) : (output.flush dest).Astray := by
  rcases astray with ⟨one, isMem, differs⟩
  exact ⟨one, List.mem_append_left _ isMem, differs⟩

/-- A symbol for another destination goes astray. -/
theorem astray_flush {one : κ × α} (waits : one ∈ output.pending) (differs : one.1 ≠ dest) :
    (output.flush dest).Astray :=
  ⟨_, List.mem_append_right _ (List.mem_map_of_mem waits), differs⟩

/-- A buffer with symbols for two destinations cannot be written to both. -/
theorem Doomed.flush (doomed : output.Doomed) : (output.flush dest).Astray := by
  rcases doomed with astray | ⟨one, waits, other, waits', differs⟩
  · exact astray.flush
  · by_cases here : one.1 = dest
    · exact astray_flush waits' fun same => differs (here.trans same.symm)
    · exact astray_flush waits here

theorem Doomed.truncate (doomed : output.Doomed) (place : κ) : (output.truncate place).Doomed :=
  doomed

omit [DecidableEq κ] in
theorem Doomed.add (doomed : output.Doomed) (symbol : α) : (output.add dest symbol).Doomed := by
  rcases doomed with astray | ⟨one, waits, other, waits', differs⟩
  · exact .inl astray
  · exact .inr ⟨one, List.mem_append_left _ waits, other, List.mem_append_left _ waits', differs⟩

theorem Doomed.put_of_add {symbol : α}
    (doomed : ((output.makeRoom capacity dest).add dest symbol).Doomed) :
    (output.put capacity ends dest symbol).Doomed := by
  unfold Output.put
  dsimp only
  split
  · exact .inl doomed.flush
  · exact doomed

theorem Doomed.put (doomed : output.Doomed) (symbol : α) :
    (output.put capacity ends dest symbol).Doomed := by
  apply Doomed.put_of_add
  apply Doomed.add
  unfold makeRoom
  split
  · exact doomed
  · exact .inl doomed.flush

theorem Doomed.print (doomed : output.Doomed) (text : List α) :
    (output.print capacity ends dest text).Doomed := by
  induction text generalizing output with
  | nil => exact doomed
  | cons symbol text ih => exact ih (doomed.put symbol)

/-- What is printed behind a symbol for another destination is doomed. -/
theorem doomed_print {one : κ × α} (waits : one ∈ output.pending) (differs : one.1 ≠ dest)
    {text : List α} (nonempty : text ≠ []) : (output.print capacity ends dest text).Doomed := by
  rcases List.exists_cons_of_ne_nil nonempty with ⟨symbol, rest, rfl⟩
  have first : (output.put capacity ends dest symbol).Doomed := by
    apply Doomed.put_of_add
    unfold makeRoom
    split
    · refine .inr ⟨one, List.mem_append_left _ waits, (dest, symbol), ?_, differs⟩
      exact List.mem_append_right _ List.mem_cons_self
    · exact Doomed.add (.inl (astray_flush waits differs)) symbol
  exact first.print rest

/-- A text that ends in the middle of a line leaves its last symbol in the buffer. -/
theorem last_mem_print {symbol : α} (stays : ends symbol = false) (text : List α) :
    (dest, symbol) ∈ (output.print capacity ends dest (text ++ [symbol])).pending := by
  rw [print, List.foldl_append, List.foldl_cons, List.foldl_nil, put, stays]
  exact List.mem_append_right _ List.mem_cons_self

end Output

end NckuOs.Buffered
