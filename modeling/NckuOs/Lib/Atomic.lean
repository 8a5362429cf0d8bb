import NckuOs.Lib.Threads

/-!
# Operations that nobody disturbs

The threads of a program go through operations of many steps; between two of them a thread
is idle.  Where no operation begins inside another, the program is the one whose steps are
whole operations.
-/

namespace NckuOs.Threads

open NckuOs.Transition

universe u v w

variable {ι : Type u} {σ : Type v} {τ : Type w}

/-- Thread `i`, moving alone, takes its operation to the end. -/
inductive Completes (program : Program ι σ τ) (Idle : τ → Prop) (i : ι) :
    σ × τ → σ × τ → Prop
  | last {state next : σ × τ} : program.step i state.1 state.2 = some next → Idle next.2 →
      Completes program Idle i state next
  | more {state next last : σ × τ} : program.step i state.1 state.2 = some next →
      ¬Idle next.2 → Completes program Idle i next last → Completes program Idle i state last

variable {program : Program ι σ τ} {Idle : τ → Prop} {i : ι}

namespace Completes

theorem idle {state last : σ × τ} (completes : Completes program Idle i state last) :
    Idle last.2 := by
  induction completes with
  | last _ idle => exact idle
  | more _ _ _ ih => exact ih

/-- An operation has one outcome. -/
theorem unique {state last last' : σ × τ} (completes : Completes program Idle i state last)
    (other : Completes program Idle i state last') : last = last' := by
  induction completes with
  | @last state next step idle =>
      cases other with
      | last step' _ => exact Option.some.inj (step.symm.trans step')
      | more step' notIdle _ =>
          cases step.symm.trans step'
          exact absurd idle notIdle
  | @more state next last step notIdle _ ih =>
      cases other with
      | last step' idle =>
          cases step.symm.trans step'
          exact absurd idle notIdle
      | more step' _ rest =>
          cases step.symm.trans step'
          exact ih rest

end Completes

variable [DecidableEq ι]

/-- All threads but `i` are idle. -/
def Alone (Idle : τ → Prop) (config : Config ι σ τ) (i : ι) : Prop :=
  ∀ j, j ≠ i → Idle (config.thread j)

/-- The program with whole operations for steps. -/
def Program.atomic (program : Program ι σ τ) (Idle : τ → Prop) : System (Config ι σ τ) ι where
  init := program.start
  step config i config' := ∃ next,
    Completes program Idle i (config.shared, config.thread i) next ∧
      config' = config.after i next

/-- Two steps of one thread are one change. -/
theorem Config.after_after (config : Config ι σ τ) (i : ι) (next last : σ × τ) :
    (config.after i next).after i last = config.after i last := by
  simp only [Config.after, Function.update_idem]

/-- Between operations, or inside one that `i` began when all were idle. -/
inductive Inside (program : Program ι σ τ) (Idle : τ → Prop) (config : Config ι σ τ) : Prop
  | between : Reachable (program.atomic Idle) config → (∀ j, Idle (config.thread j)) →
      Inside program Idle config
  | within {before : Config ι σ τ} (i : ι) : Reachable (program.atomic Idle) before →
      (∀ j, Idle (before.thread j)) → ¬Idle (config.thread i) →
      config = before.after i (config.shared, config.thread i) →
      (∀ last, Completes program Idle i (config.shared, config.thread i) last →
        Completes program Idle i (before.shared, before.thread i) last) →
      Inside program Idle config

/-- A step of the thread whose operation it is. -/
theorem Inside.step {before config : Config ι σ τ} {next : σ × τ}
    (reachable : Reachable (program.atomic Idle) before) (idle : ∀ j, Idle (before.thread j))
    (moved : program.step i config.shared (config.thread i) = some next)
    (same : config = before.after i (config.shared, config.thread i))
    (earlier : ∀ last, Completes program Idle i (config.shared, config.thread i) last →
      Completes program Idle i (before.shared, before.thread i) last) :
    Inside program Idle (config.after i next) := by
  have isAfter : config.after i next = before.after i next := by
    rw [same, Config.after_after]
  by_cases done : Idle next.2
  · left
    · rw [isAfter]
      exact reachable.snoc ⟨next, earlier next (.last moved done), rfl⟩
    · rw [isAfter]
      exact Config.forall_after (P := fun _ thread => Idle thread) done fun j _ => idle j
  · apply Inside.within i reachable idle
    · rw [Config.after_self]
      exact done
    · rw [Config.after_self]
      exact isAfter
    · intro last completes
      rw [Config.after_self] at completes
      exact earlier last (.more moved done completes)

/-- In a run whose operations do not overlap every configuration is inside one operation at
most. -/
theorem inside_of_reachable {config : Config ι σ τ}
    (start : ∀ config, program.start config → ∀ j, Idle (config.thread j))
    (reachable : Reachable (program.system.restrict (Alone Idle)) config) :
    Inside program Idle config := by
  apply reachable.invariant (P := Inside program Idle)
  · exact fun config initial => .between (.start initial) (start config initial)
  · rintro config i _ inside ⟨⟨next, moved, rfl⟩, alone⟩
    rcases inside with ⟨before, idle⟩ | ⟨i', before, idle, notIdle, same, earlier⟩
    · apply Inside.step before idle moved
      · exact (Config.after_same config i).symm
      · exact fun _ completes => completes
    · have isOwn : i' = i := by
        by_contra other
        exact notIdle (alone i' other)
      subst isOwn
      exact Inside.step before idle moved same earlier

/-- An operation is steps that nobody else interrupts. -/
theorem reachable_after {config : Config ι σ τ} {last : σ × τ}
    (reachable : Reachable (program.system.restrict (Alone Idle)) config)
    (alone : Alone Idle config i)
    (completes : Completes program Idle i (config.shared, config.thread i) last) :
    Reachable (program.system.restrict (Alone Idle)) (config.after i last) := by
  generalize isState : (config.shared, config.thread i) = state at completes
  induction completes generalizing config with
  | last moved _ =>
      subst isState
      exact reachable.snoc ⟨⟨_, moved, rfl⟩, alone⟩
  | @more _ next last moved _ _ ih =>
      subst isState
      have reached : Reachable (program.system.restrict (Alone Idle)) (config.after i next) :=
        reachable.snoc ⟨⟨next, moved, rfl⟩, alone⟩
      have still : Alone Idle (config.after i next) i := by
        intro j other
        rw [Config.after_of_ne other]
        exact alone j other
      have further := ih reached still (by rw [Config.after_self]; rfl)
      rw [Config.after_after] at further
      exact further

/-- Where operations do not overlap, what is reached between them is what whole operations
reach. -/
theorem reachable_atomic_iff {config : Config ι σ τ}
    (start : ∀ config, program.start config → ∀ j, Idle (config.thread j)) :
    Reachable (program.atomic Idle) config ↔
      Reachable (program.system.restrict (Alone Idle)) config ∧ ∀ j, Idle (config.thread j) := by
  constructor
  · intro reachable
    apply reachable.invariant (P := fun config =>
      Reachable (program.system.restrict (Alone Idle)) config ∧ ∀ j, Idle (config.thread j))
    · exact fun config initial => ⟨.start initial, start config initial⟩
    · rintro config i _ ⟨reached, idle⟩ ⟨next, completes, rfl⟩
      constructor
      · exact reachable_after reached (fun j _ => idle j) completes
      · exact Config.forall_after (P := fun _ thread => Idle thread) completes.idle
          fun j _ => idle j
  · rintro ⟨reachable, idle⟩
    rcases inside_of_reachable start reachable with ⟨atomic, _⟩ | ⟨i, _, _, notIdle, _, _⟩
    · exact atomic
    · exact absurd (idle i) notIdle

end NckuOs.Threads
