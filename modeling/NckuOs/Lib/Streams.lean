import Mathlib.Data.List.Basic

/-!
# Programs that read and write

A program reads one value after the other from its input and writes to its output until
it exits.  What it makes of an input is given in one go by `Runs`, and value by value by
the state that it is in and what it has still to read.
-/

namespace NckuOs.Streams

universe u v

/-- What a program does next.  At the end of its input it reads nothing. -/
inductive Action (σ : Type u) (α : Type v)
  | read (next : Option α → σ)
  | write (value : α) (next : σ)
  | exit

variable {σ : Type u} {α : Type v} (act : σ → Action σ α)

/-- From a state on, with this input in front of it, the program writes `output` and exits;
`left` is what it has not read. -/
inductive Runs : σ → List α → List α → List α → Prop
  | exit {state : σ} {input : List α} (now : act state = .exit) : Runs state input [] input
  | readSome {state : σ} {next : Option α → σ} {value : α} {input output left : List α}
      (now : act state = .read next) (later : Runs (next (some value)) input output left) :
      Runs state (value :: input) output left
  | readEnd {state : σ} {next : Option α → σ} {output left : List α}
      (now : act state = .read next) (later : Runs (next none) [] output left) :
      Runs state [] output left
  | write {state next : σ} {value : α} {input output left : List α}
      (now : act state = .write value next) (later : Runs next input output left) :
      Runs state input (value :: output) left

/-- The program that has started with `input` is in `state`, has written `written`, and has
`left` in front of it. -/
def Reaches (start : σ) (input : List α) (state : σ) (left written : List α) : Prop :=
  ∀ output rest, Runs act state left output rest →
    Runs act start input (written ++ output) rest

variable {act} {start state : σ} {input left written : List α}

theorem Reaches.refl : Reaches act start input start input [] :=
  fun _ _ runs => runs

theorem Reaches.readSome {next : Option α → σ} {value : α}
    (reaches : Reaches act start input state (value :: left) written)
    (now : act state = .read next) :
    Reaches act start input (next (some value)) left written :=
  fun output rest runs => reaches output rest (.readSome now runs)

theorem Reaches.readEnd {next : Option α → σ} (reaches : Reaches act start input state [] written)
    (now : act state = .read next) : Reaches act start input (next none) [] written :=
  fun output rest runs => reaches output rest (.readEnd now runs)

theorem Reaches.write {next : σ} {value : α}
    (reaches : Reaches act start input state left written) (now : act state = .write value next) :
    Reaches act start input next left (written ++ [value]) := by
  intro output rest runs
  rw [List.append_assoc]
  exact reaches (value :: output) rest (.write now runs)

theorem Reaches.exit (reaches : Reaches act start input state left written)
    (now : act state = .exit) : Runs act start input written left := by
  have whole := reaches [] left (.exit now)
  rwa [List.append_nil] at whole

/-- A program makes one thing of an input. -/
theorem Runs.unique {output output' left' : List α} (runs : Runs act state input output left)
    (runs' : Runs act state input output' left') : output' = output ∧ left' = left := by
  induction runs generalizing output' with
  | exit now => cases runs' <;> simp_all
  | readSome now later ih =>
      cases runs' with
      | readSome now' later' =>
          cases now.symm.trans now'
          exact ih later'
      | exit now' => cases now.symm.trans now'
      | write now' later' => cases now.symm.trans now'
  | readEnd now later ih =>
      cases runs' with
      | readEnd now' later' =>
          cases now.symm.trans now'
          exact ih later'
      | exit now' => cases now.symm.trans now'
      | write now' later' => cases now.symm.trans now'
  | write now later ih =>
      cases runs' with
      | write now' later' =>
          cases now.symm.trans now'
          rcases ih later' with ⟨rfl, rfl⟩
          exact ⟨rfl, rfl⟩
      | exit now' => cases now.symm.trans now'
      | readSome now' later' => cases now.symm.trans now'
      | readEnd now' later' => cases now.symm.trans now'

/-- Whatever its input is, the program exits, and it has written `f` of it. -/
def Computes (act : σ → Action σ α) (start : σ) (f : List α → List α) : Prop :=
  ∀ input, ∃ left, Runs act start input (f input) left

/-- The functions of the first programs of a chain, one after the other. -/
def through (f : Nat → List α → List α) : Nat → List α → List α
  | 0, input => input
  | p + 1, input => f p (through f p input)

end NckuOs.Streams
