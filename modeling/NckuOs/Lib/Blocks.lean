import Mathlib.Data.List.TakeWhile
import Mathlib.Logic.Function.Basic

/-!
# Blocks of bytes

What `malloc` has handed out, block by block, and the strings in the blocks.  An access
behind the end of a block, or to none, has no result.
-/

namespace NckuOs.Blocks

/-- The bytes of every allocated block. -/
abbrev Heap := Nat → Option (List UInt8)

/-- The characters in front of the NUL. -/
def cString (bytes : List UInt8) : List UInt8 :=
  bytes.takeWhile fun c => c ≠ 0

/-- What `strncpy` writes into `n` bytes. -/
def strncpy (text : List UInt8) (n : Nat) : List UInt8 :=
  text.take n ++ List.replicate (n - text.length) 0

namespace Heap

/-- `malloc` gives a block that is not in use; its bytes are not initialized. -/
def malloc (heap : Heap) (block : Nat) (garbage : List UInt8) : Option Heap :=
  if heap block = none then some (Function.update heap block (some garbage)) else none

/-- `free`. -/
def free (heap : Heap) (block : Nat) : Heap :=
  Function.update heap block none

/-- Overwrite the first bytes of a block. -/
def store (heap : Heap) (block : Nat) (bytes : List UInt8) : Option Heap :=
  match heap block with
  | none => none
  | some old =>
      if bytes.length ≤ old.length then
        some (Function.update heap block (some (bytes ++ old.drop bytes.length)))
      else none

/-- Overwrite one byte of a block. -/
def poke (heap : Heap) (block i : Nat) (byte : UInt8) : Option Heap :=
  match heap block with
  | none => none
  | some old =>
      if i < old.length then some (Function.update heap block (some (old.set i byte))) else none

/-- The string in a block. -/
def string (heap : Heap) (block : Nat) : Option (List UInt8) :=
  match heap block with
  | none => none
  | some bytes => if 0 ∈ bytes then some (cString bytes) else none

variable {heap heap' : Heap} {block other : Nat}

/-! ## One block changes -/

/-- Nothing but `block` differs. -/
def SameBut (block : Nat) (heap heap' : Heap) : Prop :=
  ∀ other, other ≠ block → heap' other = heap other

theorem SameBut.trans {heap'' : Heap} (first : SameBut block heap heap')
    (second : SameBut block heap' heap'') : SameBut block heap heap'' := by
  intro other ne
  rw [second other ne, first other ne]

theorem sameBut_update (heap : Heap) (block : Nat) (content : Option (List UInt8)) :
    SameBut block heap (Function.update heap block content) := by
  intro other ne
  exact Function.update_of_ne ne _ _

theorem malloc_cases {garbage : List UInt8} (done : heap.malloc block garbage = some heap') :
    heap block = none ∧ heap' block = some garbage ∧ SameBut block heap heap' := by
  unfold malloc at done
  split at done
  next unused =>
    cases done
    exact ⟨unused, Function.update_self .., sameBut_update heap block _⟩
  next => cases done

theorem free_self (heap : Heap) (block : Nat) : heap.free block block = none :=
  Function.update_self ..

theorem sameBut_free (heap : Heap) (block : Nat) : SameBut block heap (heap.free block) :=
  sameBut_update heap block none

theorem store_cases {bytes : List UInt8} (done : heap.store block bytes = some heap') :
    ∃ old, heap block = some old ∧ bytes.length ≤ old.length ∧
      heap' block = some (bytes ++ old.drop bytes.length) ∧ SameBut block heap heap' := by
  unfold store at done
  split at done
  next => cases done
  next old content =>
    split at done
    next fits =>
      cases done
      exact ⟨old, content, fits, Function.update_self .., sameBut_update heap block _⟩
    next => cases done

theorem poke_cases {i : Nat} {byte : UInt8} (done : heap.poke block i byte = some heap') :
    ∃ old, heap block = some old ∧ i < old.length ∧
      heap' block = some (old.set i byte) ∧ SameBut block heap heap' := by
  unfold poke at done
  split at done
  next => cases done
  next old content =>
    split at done
    next inside =>
      cases done
      exact ⟨old, content, inside, Function.update_self .., sameBut_update heap block _⟩
    next => cases done

/-! ## What is allowed is defined -/

theorem malloc_defined (unused : heap block = none) (garbage : List UInt8) :
    ∃ heap', heap.malloc block garbage = some heap' :=
  ⟨_, if_pos unused⟩

theorem store_defined {bytes old : List UInt8} (content : heap block = some old)
    (fits : bytes.length ≤ old.length) : ∃ heap', heap.store block bytes = some heap' := by
  rw [store, content]
  exact ⟨_, if_pos fits⟩

theorem poke_defined {old : List UInt8} {i : Nat} (content : heap block = some old)
    (inside : i < old.length) (byte : UInt8) : ∃ heap', heap.poke block i byte = some heap' := by
  rw [poke, content]
  exact ⟨_, if_pos inside⟩

/-! ## Strings -/

theorem string_congr (same : heap' block = heap block) :
    heap'.string block = heap.string block := by
  rw [string, string, same]

theorem string_of_nul {text rest : List UInt8} (content : heap block = some (text ++ 0 :: rest))
    (noNul : 0 ∉ text) : heap.string block = some text := by
  have front : ∀ c ∈ text, decide (c ≠ 0) = true := by
    intro c isMem
    rw [decide_eq_true_eq]
    rintro rfl
    exact noNul isMem
  rw [string, content]
  dsimp only
  rw [if_pos (List.mem_append_right text List.mem_cons_self), cString,
    List.takeWhile_append_of_pos front, List.takeWhile_cons_of_neg (by decide), List.append_nil]

end Heap

theorem strncpy_of_lt {text : List UInt8} {n : Nat} (fits : text.length < n) :
    strncpy text n = text ++ 0 :: List.replicate (n - text.length - 1) 0 := by
  have room : n - text.length = n - text.length - 1 + 1 := by omega
  rw [strncpy, List.take_of_length_le fits.le, room, List.replicate_succ]
  rfl

theorem length_strncpy {text : List UInt8} {n : Nat} (fits : text.length ≤ n) :
    (strncpy text n).length = n := by
  rw [strncpy, List.length_append, List.length_take, List.length_replicate,
    Nat.min_eq_right fits, Nat.add_sub_cancel' fits]

end NckuOs.Blocks
