import Mathlib.Data.Nat.ModEq

/-!
# The last items in a ring

Items are written to the places of a ring one after another, so that a new item takes the
place of the one that came `n` before it.
-/

namespace NckuOs.Ring

universe u

variable {α : Type u} {n : Nat} {place place' : Nat → Option α} {items : List α}

/-- The last `n` items are in their places. -/
def Shows (n : Nat) (place : Nat → Option α) (items : List α) : Prop :=
  ∀ j, items.length ≤ j + n → j < items.length → place (j % n) = items[j]?

/-- The last `n` items. -/
def last (n : Nat) (items : List α) : List α :=
  items.drop (items.length - n)

theorem shows_nil (n : Nat) (place : Nat → Option α) : Shows n place [] :=
  fun _ _ inside => absurd inside (Nat.not_lt_zero _)

/-- Two of the last items have different places. -/
theorem mod_ne {j count : Nat} (older : j < count) (recent : count < j + n) :
    j % n ≠ count % n := by
  intro same
  have divides : n ∣ count - j := (Nat.modEq_iff_dvd' older.le).mp same
  have atMost : n ≤ count - j := Nat.le_of_dvd (Nat.sub_pos_of_lt older) divides
  omega

/-- The next item goes to the next place. -/
theorem Shows.push (holds : Shows n place items) {item : α}
    (stored : place' (items.length % n) = some item)
    (others : ∀ i, i ≠ items.length % n → place' i = place i) :
    Shows n place' (items ++ [item]) := by
  intro j recent inside
  rw [List.length_append, List.length_singleton] at recent inside
  rcases Nat.lt_succ_iff_lt_or_eq.mp inside with older | rfl
  · rw [others _ (mod_ne older recent), holds j (Nat.le_of_succ_le recent) older,
      List.getElem?_append_left older]
  · rw [stored, List.getElem?_concat_length]

theorem Shows.congr (holds : Shows n place items) (same : ∀ i, place' i = place i) :
    Shows n place' items := by
  intro j recent inside
  rw [same]
  exact holds j recent inside

theorem length_last (n : Nat) (items : List α) : (last n items).length = min items.length n := by
  rw [last, List.length_drop]
  omega

/-- The places of the last items, from the oldest on. -/
theorem Shows.read (holds : Shows n place items) {k : Nat} (inside : k < (last n items).length) :
    place ((items.length - n + k) % n) = (last n items)[k]? := by
  rw [length_last] at inside
  rw [last, List.getElem?_drop]
  exact holds _ (by omega) (by omega)

end NckuOs.Ring
