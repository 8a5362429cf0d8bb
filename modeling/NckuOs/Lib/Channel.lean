import Mathlib.Data.List.Basic
import NckuOs.Lib.Transition

/-!
# A channel of many parties

Some parties put items in and some take them out, first in, first out.  What has been put in
and what has been taken out is written down beside the party that did it, so that the part of
each party can be read off.
-/

namespace NckuOs.Channels

open NckuOs.Transition

universe u v

variable {ι : Type u} {α : Type v}

/-- What has been put in and taken out, oldest first; what is inside are the items that have
not been taken out yet. -/
structure Channel (ι : Type u) (α : Type v) where
  put : List (ι × α)
  taken : List (ι × α)
  inside : List α
  fifo : put.map Prod.snd = taken.map Prod.snd ++ inside

namespace Channel

/-- A new channel. -/
def empty : Channel ι α where
  put := []
  taken := []
  inside := []
  fifo := rfl

/-- Party `i` puts in an item. -/
def puts (channel : Channel ι α) (i : ι) (item : α) : Channel ι α where
  put := channel.put ++ [(i, item)]
  taken := channel.taken
  inside := channel.inside ++ [item]
  fifo := by
    rw [List.map_append, channel.fifo, List.append_assoc]
    rfl

@[simp]
theorem puts_inside (channel : Channel ι α) (i : ι) (item : α) :
    (channel.puts i item).inside = channel.inside ++ [item] :=
  rfl

/-- Party `i` takes out the first item. -/
def takes (channel : Channel ι α) (i : ι) (item : α) (rest : List α)
    (first : channel.inside = item :: rest) : Channel ι α where
  put := channel.put
  taken := channel.taken ++ [(i, item)]
  inside := rest
  fifo := by
    rw [channel.fifo, first, List.map_append, List.append_assoc]
    rfl

/-- One step of party `i`; `room` says whether an item may be put beside those inside. -/
inductive Step (room : List α → α → Prop) : Channel ι α → ι → Channel ι α → Prop
  | put {channel : Channel ι α} {i : ι} {item : α} (fits : room channel.inside item) :
      Step room channel i (channel.puts i item)
  | take {channel : Channel ι α} {i : ι} {item : α} {rest : List α}
      (first : channel.inside = item :: rest) :
      Step room channel i (channel.takes i item rest first)

/-- Every order of steps from a new channel on. -/
def system (room : List α → α → Prop) : System (Channel ι α) ι where
  init channel := channel = .empty
  step := Step room

/-- A bound that every item put in keeps to holds for what is inside. -/
theorem inside_of_reachable {room : List α → α → Prop} {P : List α → Prop} (nothing : P [])
    (put : ∀ inside item, P inside → room inside item → P (inside ++ [item]))
    (take : ∀ item rest, P (item :: rest) → P rest) {channel : Channel ι α}
    (reachable : Reachable (system room) channel) : P channel.inside := by
  apply reachable.invariant (P := fun channel => P channel.inside)
  · rintro _ rfl
    exact nothing
  · rintro channel i _ holds step
    cases step with
    | put fits => exact put _ _ holds fits
    | take first => exact take _ _ (first ▸ holds)

end Channel

/-! ## One party's part -/

variable [DecidableEq ι]

/-- What party `i` has done, oldest first. -/
def own (i : ι) (log : List (ι × α)) : List α :=
  (log.filter fun entry => entry.1 = i).map Prod.snd

@[simp]
theorem own_nil (i : ι) : own i ([] : List (ι × α)) = [] :=
  rfl

theorem own_concat_self (i : ι) (log : List (ι × α)) (item : α) :
    own i (log ++ [(i, item)]) = own i log ++ [item] := by
  simp [own]

theorem own_concat_of_ne {i j : ι} (other : j ≠ i) (log : List (ι × α)) (item : α) :
    own j (log ++ [(i, item)]) = own j log := by
  simp [own, other.symm]

theorem mem_own {i : ι} {item : α} {log : List (ι × α)} :
    item ∈ own i log ↔ (i, item) ∈ log := by
  simp [own]

/-- What is inside has been put in by some party. -/
theorem Channel.exists_put (channel : Channel ι α) {item : α} (isMem : item ∈ channel.inside) :
    ∃ i, item ∈ own i channel.put := by
  have inPut : item ∈ channel.put.map Prod.snd := by
    rw [channel.fifo]
    exact List.mem_append_right _ isMem
  rcases List.mem_map.mp inPut with ⟨⟨i, _⟩, isEntry, rfl⟩
  exact ⟨i, mem_own.mpr isEntry⟩

/-- The parts of all parties: what each has put in, with what it has still to put in, is the
whole of what it was given, and what each has taken out is what it has received. -/
structure Parts (channel : Channel ι α) (pending received whole : ι → List α) : Prop where
  account : ∀ i, own i channel.put ++ pending i = whole i
  received : ∀ i, own i channel.taken = received i

namespace Parts

variable {channel : Channel ι α} {pending received pending' received' whole whole' : ι → List α}
  {i : ι} {item : α}

theorem empty (all : ∀ i, pending i = whole i) (nothing : ∀ i, received i = []) :
    Parts .empty pending received whole where
  account := all
  received i := (nothing i).symm

theorem congr (parts : Parts channel pending received whole) (same : ∀ j, pending' j = pending j)
    (same' : ∀ j, received' j = received j) (same'' : ∀ j, whole' j = whole j) :
    Parts channel pending' received' whole' where
  account j := by
    rw [same, same'']
    exact parts.account j
  received j := (parts.received j).trans (same' j).symm

/-- A party with nothing yet is given its items. -/
theorem gives (parts : Parts channel pending received whole) (nothing : whole i = [])
    (given : pending' i = whole' i) (others : ∀ j, j ≠ i → pending' j = pending j)
    (others' : ∀ j, j ≠ i → whole' j = whole j) (same : ∀ j, received' j = received j) :
    Parts channel pending' received' whole' where
  account j := by
    by_cases isOwn : j = i
    · subst isOwn
      have account := parts.account j
      rw [nothing] at account
      rw [(List.append_eq_nil_iff.mp account).1, given, List.nil_append]
    · rw [others j isOwn, others' j isOwn]
      exact parts.account j
  received j := (parts.received j).trans (same j).symm

/-- Party `i` has put in one more. -/
theorem puts (parts : Parts channel pending received whole) (first : pending i = item :: pending' i)
    (others : ∀ j, j ≠ i → pending' j = pending j) (same : ∀ j, received' j = received j) :
    Parts (channel.puts i item) pending' received' whole where
  account j := by
    by_cases isOwn : j = i
    · subst isOwn
      have account := parts.account j
      rw [first] at account
      rw [Channel.puts, own_concat_self, List.append_assoc]
      exact account
    · rw [Channel.puts, own_concat_of_ne isOwn, others j isOwn]
      exact parts.account j
  received j := (parts.received j).trans (same j).symm

/-- Party `i` has taken out one more. -/
theorem takes (parts : Parts channel pending received whole) {rest : List α}
    (first : channel.inside = item :: rest) (more : received' i = received i ++ [item])
    (others : ∀ j, j ≠ i → received' j = received j) (same : ∀ j, pending' j = pending j) :
    Parts (channel.takes i item rest first) pending' received' whole where
  account j := by
    rw [same]
    exact parts.account j
  received j := by
    by_cases isOwn : j = i
    · subst isOwn
      rw [Channel.takes, own_concat_self, parts.received, more]
    · rw [Channel.takes, own_concat_of_ne isOwn, parts.received, others j isOwn]

/-- What is inside was given to some party. -/
theorem exists_whole (parts : Parts channel pending received whole)
    (isMem : item ∈ channel.inside) : ∃ i, item ∈ whole i := by
  rcases channel.exists_put isMem with ⟨i, isOwn⟩
  refine ⟨i, ?_⟩
  rw [← parts.account i]
  exact List.mem_append_left _ isOwn

end Parts

end NckuOs.Channels
