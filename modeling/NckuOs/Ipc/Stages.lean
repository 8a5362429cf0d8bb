import NckuOs.Ipc.Startup

/-!
# From the creation of a segment to `ready`

A segment is set up by the process that made it, which either sets `ready` or, being a
receiver, removes the segment again.  As long as it does so every other process that
knows the segment is about to attach it, or polls.  The runs in question keep clear
of two steps: a sender whose set-up is going to fail makes no segment, and nobody
attaches a segment whose set-up is going to fail.  What a set-up comes to does not depend
on the second condition, so that the stages are defined for any condition on the creators
of the segments that are polled.
-/

namespace NckuOs.Ipc.Startup

open NckuOs.Threads
open NckuOs.Transition

variable {ι : Type}

theorem Run.Initializes.semInit {run : Run} (initializes : run.Initializes) (sem : Semaphore) :
    run.semInit sem = true := by
  cases sem with
  | mutex => exact initializes.2.1
  | empty => exact initializes.2.2.1
  | full => exact initializes.2.2.2

namespace Pc

variable {s : Nat} {pc : Pc}

/-- The segment that the process knows. -/
def shmid? : Pc → Option Nat
  | .shmat _ shmid | .memset shmid | .semInit _ shmid | .setReady shmid | .waitReady shmid
  | .fopen _ shmid | .communicate _ shmid | .shmdt _ shmid | .shmctl shmid | .exit shmid =>
      some shmid
  | .shmgetExcl | .shmget | .ended => none

/-- The process has the segment attached. -/
inductive Attached (s : Nat) : Pc → Prop
  | memset : Attached s (.memset s)
  | semInit (sem : Semaphore) : Attached s (.semInit sem s)
  | setReady : Attached s (.setReady s)
  | waitReady : Attached s (.waitReady s)
  | fopen (created : Bool) : Attached s (.fopen created s)
  | communicate (created : Bool) : Attached s (.communicate created s)
  | shmdt (remove : Bool) : Attached s (.shmdt remove s)
  | exit : Attached s (.exit s)

/-- The process made the segment, and has not set `ready` yet. -/
inductive Creates (s : Nat) : Pc → Prop
  | shmat : Creates s (.shmat true s)
  | memset : Creates s (.memset s)
  | semInit (sem : Semaphore) : Creates s (.semInit sem s)
  | setReady : Creates s (.setReady s)

/-- The process is about to remove the segment. -/
inductive Removes (s : Nat) : Pc → Prop
  | shmdt : Removes s (.shmdt true s)
  | shmctl : Removes s (.shmctl s)

theorem Attached.shmid? (attached : Attached s pc) : pc.shmid? = some s := by
  cases attached <;> rfl

theorem Creates.shmid? (creates : Creates s pc) : pc.shmid? = some s := by
  cases creates <;> rfl

theorem Removes.shmid? (removes : Removes s pc) : pc.shmid? = some s := by
  cases removes <;> rfl

/-- How many steps of the set-up, or of the removal that ends it, are left. -/
def left : Pc → Nat
  | .shmat _ _ => 6
  | .memset _ => 5
  | .semInit .mutex _ => 4
  | .semInit .empty _ => 3
  | .semInit .full _ => 2
  | .shmdt _ _ => 1
  | _ => 0

theorem left_nextInit (sem : Semaphore) :
    (nextInit s sem).left < (Pc.semInit sem s).left := by
  cases sem with
  | mutex | empty => exact Nat.lt_succ_self _
  | full => exact Nat.succ_pos _

theorem one_lt_left (sem : Semaphore) : 1 < (Pc.semInit sem s).left := by
  cases sem with
  | mutex | empty | full => simp [left]

end Pc

/-- What the runs keep clear of: the two steps that leave a segment, or a process that
polls it, behind. -/
def AllowedAt (runs : ι → Run) (config : Config ι (Kernel ι) Pc) (i : ι) : Pc → Prop
  | .shmgetExcl =>
      config.shared.key = none → (runs i).role = .sender → (runs i).Initializes
  | .shmat false shmid =>
      (runs i).shmat = true → (config.shared.segment shmid).ready = false →
        ∀ j, (config.thread j).Creates shmid ∨ (config.thread j).Removes shmid →
          (runs j).Initializes
  | _ => True

def Allowed (runs : ι → Run) (config : Config ι (Kernel ι) Pc) (i : ι) : Prop :=
  AllowedAt runs config i (config.thread i)

/-! ## The stages of a segment -/

/-- Nobody has the identifier; `creator` sets the segment up; `ready` is set; `creator` has
removed the segment before that. -/
inductive Stage (ι : Type)
  | unused
  | setUp (creator : ι)
  | ready
  | dropped (creator : ι)

/-- The creator sets up, or removes, the segment.  A sender does not remove it. -/
def Builds (run : Run) (s : Nat) (pc : Pc) : Prop :=
  (pc.Creates s ∧ (run.role = .sender → run.Initializes)) ∨ (pc.Removes s ∧ ¬run.Initializes)

/-- Any other process that knows the segment. -/
def Waits (mayPoll : Prop) (s : Nat) (pc : Pc) : Prop :=
  pc.shmid? = some s → pc = .shmat false s ∨ pc = .waitReady s ∧ mayPoll

/-- How the stages follow each other. -/
inductive Stage.Next : Stage ι → Stage ι → Prop
  | same (stage : Stage ι) : Next stage stage
  | created (creator : ι) : Next .unused (.setUp creator)
  | finished (creator : ι) : Next (.setUp creator) .ready
  | removed (creator : ι) : Next (.setUp creator) (.dropped creator)

section Stages

/-! `mayPoll` says of which creators the segments are polled before `ready` is set. -/

variable (mayPoll : Run → Prop) (runs : ι → Run)

namespace Stage

/-- The segment and the key at each stage. -/
def OfKernel (kernel : Kernel ι) (s : Nat) : Stage ι → Prop
  | .unused => kernel.next ≤ s ∧ kernel.key ≠ some s
  | .setUp _ =>
      s < kernel.next ∧ kernel.key = some s ∧ (kernel.segment s).ready = false ∧
        (kernel.segment s).removed = false
  | .ready => s < kernel.next ∧ (kernel.segment s).ready = true
  | .dropped creator =>
      s < kernel.next ∧ kernel.key ≠ some s ∧ (kernel.segment s).ready = false ∧
        ¬(runs creator).Initializes ∧ (mayPoll (runs creator) ∨
          (kernel.segment s).removed = true ∧ (kernel.segment s).attached = ∅)

/-- Where process `i` is at each stage. -/
def OfThread (s : Nat) (i : ι) (pc : Pc) : Stage ι → Prop
  | .unused => pc.shmid? ≠ some s
  | .setUp creator =>
      (i = creator → Builds (runs creator) s pc) ∧
        (i ≠ creator → Waits (mayPoll (runs creator)) s pc)
  | .ready => ¬pc.Creates s
  | .dropped creator => Waits (mayPoll (runs creator)) s pc

end Stage

/-- Segment `s` is at `stage`. -/
structure AtStage (config : Config ι (Kernel ι) Pc) (s : Nat) (stage : Stage ι) : Prop where
  kernel : stage.OfKernel mayPoll runs config.shared s
  thread : ∀ i, stage.OfThread mayPoll runs s i (config.thread i)

end Stages

/-- Who is attached is known to the kernel. -/
def Known (config : Config ι (Kernel ι) Pc) : Prop :=
  ∀ i s, i ∈ (config.shared.segment s).attached → (config.thread i).Attached s

/-- Every segment is at some stage, and only those are polled whose set-up succeeds. -/
structure Sound (runs : ι → Run) (config : Config ι (Kernel ι) Pc) : Prop where
  known : Known config
  stage : ∀ s, ∃ stage, AtStage Run.Initializes runs config s stage

/-! ## Steps -/

namespace Kernel

variable {kernel : Kernel ι} {s shmid : Nat}

theorem modify_segment (f : Segment ι → Segment ι) :
    (kernel.modify s f).segment s = f (kernel.segment s) :=
  Function.update_self _ _ _

@[simp]
theorem create_segment : kernel.create.segment kernel.next = .fresh :=
  Function.update_self _ _ _

@[simp]
theorem storeReady_segment (ready : Bool) :
    (kernel.storeReady s ready).segment s = { kernel.segment s with ready := ready } :=
  modify_segment _

@[simp]
theorem attach_segment [DecidableEq ι] (i : ι) :
    (kernel.attach i s).segment s =
      { kernel.segment s with attached := insert i (kernel.segment s).attached } :=
  modify_segment _

@[simp]
theorem detach_segment [DecidableEq ι] (i : ι) :
    (kernel.detach i s).segment s =
      { kernel.segment s with attached := (kernel.segment s).attached.erase i } :=
  modify_segment _

@[simp]
theorem remove_segment :
    (kernel.remove s).segment s = { kernel.segment s with removed := true } :=
  modify_segment fun segment => { segment with removed := true }

/-- The two kernels agree on segment `s`. -/
structure SameAt (s : Nat) (kernel kernel' : Kernel ι) : Prop where
  segment : kernel'.segment s = kernel.segment s
  key : kernel'.key = some s ↔ kernel.key = some s
  next : s < kernel'.next ↔ s < kernel.next

theorem SameAt.refl (s : Nat) (kernel : Kernel ι) : SameAt s kernel kernel :=
  ⟨rfl, Iff.rfl, Iff.rfl⟩

theorem sameAt_modify (f : Segment ι → Segment ι) (other : some shmid ≠ some s) :
    SameAt s kernel (kernel.modify shmid f) := by
  have ne : s ≠ shmid := fun same => other (congrArg some same.symm)
  constructor
  · simp [modify, ne]
  · exact Iff.rfl
  · exact Iff.rfl

theorem sameAt_storeReady (ready : Bool) (other : some shmid ≠ some s) :
    SameAt s kernel (kernel.storeReady shmid ready) :=
  sameAt_modify _ other

theorem sameAt_attach [DecidableEq ι] (i : ι) (other : some shmid ≠ some s) :
    SameAt s kernel (kernel.attach i shmid) :=
  sameAt_modify _ other

theorem sameAt_detach [DecidableEq ι] (i : ι) (other : some shmid ≠ some s) :
    SameAt s kernel (kernel.detach i shmid) :=
  sameAt_modify _ other

theorem sameAt_remove (other : some shmid ≠ some s) : SameAt s kernel (kernel.remove shmid) := by
  constructor
  · exact (sameAt_modify (fun segment => { segment with removed := true }) other).segment
  · simp only [remove]
    split
    · rename_i named
      simp only [named, other, reduceCtorEq]
    · rfl
  · exact Iff.rfl

theorem sameAt_create (free : kernel.key = none) (other : some kernel.next ≠ some s) :
    SameAt s kernel kernel.create := by
  have ne : s ≠ kernel.next := fun same => other (congrArg some same.symm)
  constructor
  · simp [create, ne]
  · simp only [create, free, other, reduceCtorEq]
  · simp only [create]
    omega

end Kernel

variable {runs : ι → Run} {config : Config ι (Kernel ι) Pc} {i : ι}
  {kernel kernel' : Kernel ι} {pc pc' : Pc} {s : Nat}

/-! ## What a step does -/

theorem attached_cleanup (role : Role) (locals : Locals) : (cleanup role locals s).Attached s := by
  unfold cleanup
  split
  · exact .shmdt _
  · exact .exit

theorem attached_setUpDone (role : Role) (created : Bool) :
    (setUpDone role created s).Attached s := by
  cases role with
  | sender => exact .fopen created
  | receiver => exact .communicate created

theorem attached_nextInit (sem : Semaphore) : (nextInit s sem).Attached s := by
  cases sem with
  | mutex => exact .semInit .empty
  | empty => exact .semInit .full
  | full => exact .setReady

/-- Only the process that made the segment has something to do when `shmat` fails. -/
theorem shmatFailed_false (role : Role) : shmatFailed role false s = .ended := by
  cases role with
  | sender => rfl
  | receiver => rfl

theorem not_creates_cleanup (role : Role) (locals : Locals) :
    ¬(cleanup role locals s).Creates s := by
  unfold cleanup
  split
  · rintro ⟨⟩
  · rintro ⟨⟩

theorem not_creates_setUpDone (role : Role) (created : Bool) :
    ¬(setUpDone role created s).Creates s := by
  cases role with
  | sender => rintro ⟨⟩
  | receiver => rintro ⟨⟩

/-- What a step does that concerns segment `s`: `ready` and the removal last, only the
process itself is attached or detached, and it does not turn to another segment. -/
structure Effect (i : ι) (s : Nat) (kernel kernel' : Kernel ι) (pc pc' : Pc) : Prop where
  others : ∀ t, some s ≠ some t → kernel.SameAt t kernel'
  next : kernel'.next = kernel.next
  knows : pc' = .ended ∨ pc'.shmid? = some s
  ready : (kernel.segment s).ready = true → ¬pc.Creates s →
    (kernel'.segment s).ready = true ∧ ¬pc'.Creates s
  own : (i ∈ (kernel.segment s).attached → pc.Attached s) →
    i ∈ (kernel'.segment s).attached → pc'.Attached s
  rest : ∀ j, j ≠ i → j ∈ (kernel'.segment s).attached → j ∈ (kernel.segment s).attached

namespace Effect

/-- A step of the process alone, with the segment attached before and after it. -/
theorem of_attached (attached : pc'.Attached s) (creates : pc'.Creates s → pc.Creates s) :
    Effect i s kernel kernel pc pc' where
  others t _ := .refl t kernel
  next := rfl
  knows := .inr attached.shmid?
  ready ready notCreates := ⟨ready, fun later => notCreates (creates later)⟩
  own _ _ := attached
  rest _ _ isMem := isMem

/-- A step of the process alone that gives up on a segment it has not attached. -/
theorem of_not_attached (knows : pc' = .ended ∨ pc'.shmid? = some s) (before : ¬pc.Attached s)
    (creates : ¬pc'.Creates s) : Effect i s kernel kernel pc pc' where
  others t _ := .refl t kernel
  next := rfl
  knows := knows
  ready ready _ := ⟨ready, creates⟩
  own known isMem := absurd (known isMem) before
  rest _ _ isMem := isMem

theorem of_storeReady {ready : Bool} (attached : pc'.Attached s)
    (keeps : ¬pc.Creates s → ready = true ∧ ¬pc'.Creates s) :
    Effect i s kernel (kernel.storeReady s ready) pc pc' where
  others _ other := Kernel.sameAt_storeReady _ other
  next := rfl
  knows := .inr attached.shmid?
  ready _ notCreates := by
    rw [Kernel.storeReady_segment]
    exact keeps notCreates
  own _ _ := attached
  rest _ _ isMem := by
    rw [Kernel.storeReady_segment] at isMem
    exact isMem

theorem of_remove : Effect i s kernel (kernel.remove s) (.shmctl s) .ended where
  others _ other := Kernel.sameAt_remove other
  next := rfl
  knows := .inl rfl
  ready ready _ := by
    constructor
    · rw [Kernel.remove_segment]
      exact ready
    · rintro ⟨⟩
  own known isMem := by
    rw [Kernel.remove_segment] at isMem
    cases known isMem
  rest _ _ isMem := by
    rw [Kernel.remove_segment] at isMem
    exact isMem

variable [DecidableEq ι]

theorem of_attach (attached : pc'.Attached s) (creates : pc'.Creates s → pc.Creates s) :
    Effect i s kernel (kernel.attach i s) pc pc' where
  others _ other := Kernel.sameAt_attach i other
  next := rfl
  knows := .inr attached.shmid?
  ready ready notCreates := by
    constructor
    · rw [Kernel.attach_segment]
      exact ready
    · exact fun later => notCreates (creates later)
  own _ _ := attached
  rest j ne isMem := by
    rw [Kernel.attach_segment] at isMem
    exact Finset.mem_of_mem_insert_of_ne isMem ne

theorem of_detach (knows : pc' = .ended ∨ pc'.shmid? = some s) (creates : ¬pc'.Creates s) :
    Effect i s kernel (kernel.detach i s) pc pc' where
  others _ other := Kernel.sameAt_detach i other
  next := rfl
  knows := knows
  ready ready _ := by
    constructor
    · rw [Kernel.detach_segment]
      exact ready
    · exact creates
  own _ isMem := by
    rw [Kernel.detach_segment] at isMem
    exact absurd isMem (Finset.notMem_erase i _)
  rest _ _ isMem := by
    rw [Kernel.detach_segment] at isMem
    exact Finset.mem_of_mem_erase isMem

end Effect

variable [DecidableEq ι]

/-- A process that knows a segment. -/
theorem step_effect (moved : step runs i kernel pc = some (kernel', pc'))
    (knows : pc.shmid? = some s) : Effect i s kernel kernel' pc pc' := by
  cases pc with
  | shmgetExcl | shmget | ended => cases knows
  | shmat created shmid =>
      obtain rfl : shmid = s := Option.some.inj knows
      simp only [step] at moved
      split at moved
      · cases moved
        cases created with
        | true => exact .of_attach .memset fun _ => .shmat
        | false => exact .of_attach .waitReady (by rintro ⟨⟩)
      · cases moved
        cases (runs i).role with
        | sender => exact .of_not_attached (.inl rfl) (by rintro ⟨⟩) (by rintro ⟨⟩)
        | receiver =>
            cases created with
            | true => exact .of_not_attached (.inr rfl) (by rintro ⟨⟩) (by rintro ⟨⟩)
            | false => exact .of_not_attached (.inl rfl) (by rintro ⟨⟩) (by rintro ⟨⟩)
  | memset shmid =>
      obtain rfl : shmid = s := Option.some.inj knows
      cases moved
      exact .of_storeReady (.semInit .mutex) fun notCreates => absurd .memset notCreates
  | semInit sem shmid =>
      obtain rfl : shmid = s := Option.some.inj knows
      simp only [step] at moved
      split at moved
      · cases moved
        exact .of_attached (attached_nextInit sem) fun _ => .semInit sem
      · cases moved
        exact .of_attached (attached_cleanup _ _) fun _ => .semInit sem
  | setReady shmid =>
      obtain rfl : shmid = s := Option.some.inj knows
      cases moved
      exact .of_storeReady (attached_setUpDone _ _) fun _ => ⟨rfl, not_creates_setUpDone _ _⟩
  | waitReady shmid =>
      obtain rfl : shmid = s := Option.some.inj knows
      simp only [step] at moved
      split at moved
      · cases moved
        exact .of_attached (attached_setUpDone _ _) fun later =>
          absurd later (not_creates_setUpDone _ _)
      · cases moved
        exact .of_attached .waitReady id
  | fopen created shmid =>
      obtain rfl : shmid = s := Option.some.inj knows
      simp only [step] at moved
      split at moved
      · cases moved
        exact .of_attached (.communicate created) (by rintro ⟨⟩)
      · cases moved
        exact .of_attached (attached_cleanup _ _) fun later =>
          absurd later (not_creates_cleanup _ _)
  | communicate created shmid =>
      obtain rfl : shmid = s := Option.some.inj knows
      simp only [step] at moved
      split at moved
      · split at moved
        · cases moved
          exact .of_attached (attached_cleanup _ _) fun later =>
            absurd later (not_creates_cleanup _ _)
        · cases moved
          exact .of_attached .exit (by rintro ⟨⟩)
      · cases moved
        exact .of_attached (.communicate created) id
  | shmdt remove shmid =>
      obtain rfl : shmid = s := Option.some.inj knows
      cases moved
      cases remove with
      | true => exact .of_detach (.inr rfl) (by rintro ⟨⟩)
      | false => exact .of_detach (.inl rfl) (by rintro ⟨⟩)
  | shmctl shmid =>
      obtain rfl : shmid = s := Option.some.inj knows
      cases moved
      exact .of_remove
  | exit shmid =>
      obtain rfl : shmid = s := Option.some.inj knows
      cases moved
      exact .of_detach (.inl rfl) (by rintro ⟨⟩)

/-- A process that knows none: it makes one, finds one, or goes on without. -/
theorem step_unknown (moved : step runs i kernel pc = some (kernel', pc'))
    (knows : pc.shmid? = none) :
    (pc = .shmgetExcl ∧ kernel.key = none ∧ kernel' = kernel.create ∧
      pc' = .shmat true kernel.next) ∨
      (∃ s, kernel.key = some s ∧ kernel' = kernel ∧ pc' = .shmat false s) ∨
      kernel' = kernel ∧ pc'.shmid? = none := by
  cases pc with
  | shmgetExcl =>
      cases free : kernel.key with
      | none =>
          simp only [step, free] at moved
          cases moved
          exact .inl ⟨rfl, rfl, rfl, rfl⟩
      | some _ =>
          simp only [step, free] at moved
          cases moved
          exact .inr (.inr ⟨rfl, rfl⟩)
  | shmget =>
      cases named : kernel.key with
      | none =>
          simp only [step, named] at moved
          cases moved
          exact .inr (.inr ⟨rfl, rfl⟩)
      | some s =>
          simp only [step, named] at moved
          cases moved
          exact .inr (.inl ⟨s, rfl, rfl, rfl⟩)
  | ended => cases moved
  | _ => cases knows

/-! ## The stages one after the other -/

section Stages

variable {mayPoll : Run → Prop} {stage : Stage ι} {creator : ι} {waiting : Prop}

omit [DecidableEq ι] in
theorem Builds.shmid? {run : Run} (builds : Builds run s pc) : pc.shmid? = some s := by
  rcases builds with ⟨creates, -⟩ | ⟨removes, -⟩
  · exact creates.shmid?
  · exact removes.shmid?

omit [DecidableEq ι] in
theorem Waits.not_creates (waits : Waits waiting s pc) : ¬pc.Creates s := by
  intro creates
  rcases waits creates.shmid? with rfl | ⟨rfl, -⟩
  · cases creates
  · cases creates

omit [DecidableEq ι] in
theorem Stage.OfKernel.of_sameAt (same : kernel.SameAt s kernel')
    (here : stage.OfKernel mayPoll runs kernel s) : stage.OfKernel mayPoll runs kernel' s := by
  cases stage with
  | unused =>
      constructor
      · exact Nat.not_lt.mp fun below => Nat.not_lt.mpr here.1 (same.next.mp below)
      · exact fun named => here.2 (same.key.mp named)
  | setUp creator =>
      obtain ⟨below, named, notReady, kept⟩ := here
      rw [← same.segment] at notReady kept
      exact ⟨same.next.mpr below, same.key.mpr named, notReady, kept⟩
  | ready =>
      constructor
      · exact same.next.mpr here.1
      · rw [same.segment]
        exact here.2
  | dropped creator =>
      obtain ⟨below, unnamed, notReady, fails, nobody⟩ := here
      rw [← same.segment] at notReady nobody
      exact ⟨same.next.mpr below, fun named => unnamed (same.key.mp named), notReady, fails,
        nobody⟩

omit [DecidableEq ι] in
/-- What the creator and the processes that wait for it do to the segment. -/
theorem Stage.OfKernel.modify {f : Segment ι → Segment ι}
    (here : (Stage.setUp creator).OfKernel mayPoll runs kernel s)
    (notReady : (f (kernel.segment s)).ready = false)
    (kept : (f (kernel.segment s)).removed = (kernel.segment s).removed) :
    (Stage.setUp creator).OfKernel mayPoll runs (kernel.modify s f) s := by
  obtain ⟨below, named, -, notRemoved⟩ := here
  refine ⟨below, named, ?_, ?_⟩
  · rw [Kernel.modify_segment]
    exact notReady
  · rw [Kernel.modify_segment, kept]
    exact notRemoved

theorem Stage.OfKernel.attach (here : (Stage.setUp creator).OfKernel mayPoll runs kernel s)
    (i : ι) : (Stage.setUp creator).OfKernel mayPoll runs (kernel.attach i s) s :=
  here.modify here.2.2.1 rfl

theorem Stage.OfKernel.detach (here : (Stage.setUp creator).OfKernel mayPoll runs kernel s)
    (i : ι) : (Stage.setUp creator).OfKernel mayPoll runs (kernel.detach i s) s :=
  here.modify here.2.2.1 rfl

omit [DecidableEq ι] in
theorem Stage.OfThread.of_unknown (unknown : pc.shmid? ≠ some s) (notCreator : stage ≠ .setUp i) :
    stage.OfThread mayPoll runs s i pc := by
  cases stage with
  | unused => exact unknown
  | setUp creator =>
      constructor
      · exact fun same => absurd (congrArg Stage.setUp same.symm) notCreator
      · exact fun _ knows => absurd knows unknown
  | ready => exact fun creates => unknown creates.shmid?
  | dropped creator => exact fun knows => absurd knows unknown

omit [DecidableEq ι] in
/-- The creator of a segment that is set up knows it. -/
theorem AtStage.notCreator (here : AtStage mayPoll runs config s stage)
    (unknown : (config.thread i).shmid? ≠ some s) : stage ≠ .setUp i := by
  rintro rfl
  exact unknown ((here.thread i).1 rfl).shmid?

theorem AtStage.after (kernel : stage.OfKernel mayPoll runs kernel' s)
    (moved : stage.OfThread mayPoll runs s i pc')
    (others : ∀ j, j ≠ i → stage.OfThread mayPoll runs s j (config.thread j)) :
    AtStage mayPoll runs (config.after i (kernel', pc')) s stage :=
  ⟨kernel, Config.forall_after (P := fun j pc => stage.OfThread mayPoll runs s j pc) moved others⟩

/-- A step that does not concern the segment. -/
theorem AtStage.elsewhere (here : AtStage mayPoll runs config s stage)
    (same : config.shared.SameAt s kernel') (before : (config.thread i).shmid? ≠ some s)
    (after : pc'.shmid? ≠ some s) :
    AtStage mayPoll runs (config.after i (kernel', pc')) s stage := by
  apply AtStage.after
  · exact here.kernel.of_sameAt same
  · exact Stage.OfThread.of_unknown after (here.notCreator before)
  · exact fun j _ => here.thread j

theorem AtStage.created (here : AtStage mayPoll runs config config.shared.next .unused)
    (initializes : (runs i).role = .sender → (runs i).Initializes) :
    AtStage mayPoll runs (config.after i (config.shared.create, .shmat true config.shared.next))
      config.shared.next (.setUp i) := by
  apply AtStage.after
  · refine ⟨Nat.lt_succ_self _, rfl, ?_, ?_⟩
    · rw [Kernel.create_segment]
      rfl
    · rw [Kernel.create_segment]
      rfl
  · exact ⟨fun _ => .inl ⟨.shmat, initializes⟩, fun ne => absurd rfl ne⟩
  · exact fun j ne => ⟨fun same => absurd same ne, fun _ knows => absurd knows (here.thread j)⟩

theorem AtStage.found (here : AtStage mayPoll runs config s stage)
    (named : config.shared.key = some s) (before : (config.thread i).shmid? ≠ some s) :
    AtStage mayPoll runs (config.after i (config.shared, .shmat false s)) s stage := by
  refine AtStage.after here.kernel ?_ fun j _ => here.thread j
  have notCreator := here.notCreator before
  cases stage with
  | unused => exact absurd named here.kernel.2
  | setUp creator =>
      constructor
      · exact fun same => absurd (congrArg Stage.setUp same.symm) notCreator
      · exact fun _ _ => .inl rfl
  | ready => rintro ⟨⟩
  | dropped creator => exact fun _ => .inl rfl

/-- `ready` stays set. -/
theorem AtStage.ready_step (here : AtStage mayPoll runs config s .ready)
    (effect : Effect i s config.shared kernel' (config.thread i) pc') :
    AtStage mayPoll runs (config.after i (kernel', pc')) s .ready := by
  have lasts := effect.ready here.kernel.2 (here.thread i)
  apply AtStage.after
  · exact ⟨effect.next ▸ here.kernel.1, lasts.1⟩
  · exact lasts.2
  · exact fun j _ => here.thread j

/-- One step of the creator: it goes on, or `ready` is set, or the segment is removed. -/
theorem Builds.step (builds : Builds (runs i) s pc)
    (here : (Stage.setUp i).OfKernel mayPoll runs kernel s)
    (moved : step runs i kernel pc = some (kernel', pc')) :
    ((Stage.setUp i).OfKernel mayPoll runs kernel' s ∧ Builds (runs i) s pc' ∧
        pc'.left < pc.left) ∨
      (kernel' = kernel.storeReady s true ∧ ¬pc'.Creates s) ∨
      (¬(runs i).Initializes ∧ pc = .shmctl s ∧ kernel' = kernel.remove s ∧ pc' = .ended) := by
  rcases builds with ⟨creates, initializes⟩ | ⟨removes, fails⟩
  · cases creates with
    | shmat =>
        have attachable : kernel.Attachable s := by
          intro removed
          rw [here.2.2.2] at removed
          cases removed
        left
        by_cases attaches : (runs i).shmat = true
        · simp only [step, attaches, attachable, and_self, if_true] at moved
          cases moved
          exact ⟨here.attach i, .inl ⟨.memset, initializes⟩, Nat.lt_succ_self 5⟩
        · have fails : ¬(runs i).Initializes := fun all => attaches all.1
          simp only [step, attaches, false_and, if_false, Bool.false_eq_true] at moved
          cases moved
          cases program : (runs i).role with
          | sender => exact absurd (initializes program) fails
          | receiver =>
              exact ⟨here, .inr ⟨.shmctl, fails⟩, Nat.succ_pos 5⟩
    | memset =>
        left
        cases moved
        exact ⟨here.modify rfl rfl, .inl ⟨.semInit .mutex, initializes⟩, Nat.lt_succ_self 4⟩
    | semInit sem =>
        left
        by_cases inits : (runs i).semInit sem = true
        · simp only [step, inits, if_true] at moved
          cases moved
          refine ⟨here, .inl ⟨?_, initializes⟩, ?_⟩
          · cases sem with
            | mutex => exact .semInit .empty
            | empty => exact .semInit .full
            | full => exact .setReady
          · exact Pc.left_nextInit sem
        · have fails : ¬(runs i).Initializes := fun all => inits (all.semInit sem)
          simp only [step, inits, if_false, Bool.false_eq_true] at moved
          cases moved
          cases program : (runs i).role with
          | sender => exact absurd (initializes program) fails
          | receiver =>
              exact ⟨here, .inr ⟨.shmdt, fails⟩, Pc.one_lt_left sem⟩
    | setReady =>
        right
        left
        cases moved
        exact ⟨rfl, not_creates_setUpDone _ _⟩
  · cases removes with
    | shmdt =>
        left
        cases moved
        exact ⟨here.detach i, .inr ⟨.shmctl, fails⟩, Nat.lt_succ_self 0⟩
    | shmctl =>
        right
        right
        cases moved
        exact ⟨fails, rfl, rfl, rfl⟩

/-- One step of another process that knows the segment: it attaches the segment, or gives
up, or polls. -/
theorem Waits.step (waits : Waits waiting s pc) (knows : pc.shmid? = some s)
    (notReady : (kernel.segment s).ready = false)
    (attaches : pc = .shmat false s → (runs i).shmat = true → kernel.Attachable s → waiting)
    (moved : step runs i kernel pc = some (kernel', pc')) :
    (kernel' = kernel ∨ kernel' = kernel.attach i s ∧ waiting) ∧ Waits waiting s pc' := by
  rcases waits knows with rfl | ⟨rfl, polls⟩
  · simp only [Startup.step] at moved
    split at moved
    · rename_i succeeds
      have polls := attaches rfl succeeds.1 succeeds.2
      cases moved
      exact ⟨.inr ⟨rfl, polls⟩, fun _ => .inr ⟨rfl, polls⟩⟩
    · rw [shmatFailed_false] at moved
      cases moved
      exact ⟨.inl rfl, fun later => absurd later (Option.some_ne_none s).symm⟩
  · simp only [Startup.step, notReady, Bool.false_eq_true, if_false] at moved
    cases moved
    exact ⟨.inl rfl, fun _ => .inr ⟨rfl, polls⟩⟩

/-- When the creator removes a segment that is not polled nobody has it attached. -/
theorem AtStage.nobody (here : AtStage mayPoll runs config s (.setUp i)) (known : Known config)
    (unpolled : ¬mayPoll (runs i)) (last : config.thread i = .shmctl s) :
    (config.shared.segment s).attached = ∅ := by
  apply Finset.eq_empty_of_forall_notMem
  intro j isMem
  have holds := known j s isMem
  by_cases same : j = i
  · rw [same, last] at holds
    cases holds
  · rcases (here.thread j).2 same holds.shmid? with about | ⟨-, polls⟩
    · rw [about] at holds
      cases holds
    · exact unpolled polls

/-- A step of the creator. -/
theorem AtStage.creator_step (here : AtStage mayPoll runs config s (.setUp i))
    (known : Known config)
    (moved : step runs i config.shared (config.thread i) = some (kernel', pc')) :
    ∃ stage, AtStage mayPoll runs (config.after i (kernel', pc')) s stage ∧
      (Stage.setUp i).Next stage := by
  rcases ((here.thread i).1 rfl).step here.kernel moved with
    ⟨kernel, builds, -⟩ | ⟨rfl, notCreates⟩ | ⟨fails, last, rfl, rfl⟩
  · refine ⟨.setUp i, AtStage.after kernel ?_ fun j _ => here.thread j, .same _⟩
    exact ⟨fun _ => builds, fun ne => absurd rfl ne⟩
  · refine ⟨.ready, AtStage.after ⟨here.kernel.1, ?_⟩ notCreates ?_, .finished i⟩
    · rw [Kernel.storeReady_segment]
    · exact fun j ne => ((here.thread j).2 ne).not_creates
  · refine ⟨.dropped i, AtStage.after ⟨here.kernel.1, ?_, ?_, fails, ?_⟩ ?_ ?_, .removed i⟩
    · simp [Kernel.remove, here.kernel.2.1]
    · rw [Kernel.remove_segment]
      exact here.kernel.2.2.1
    · by_cases polls : mayPoll (runs i)
      · exact .inl polls
      · rw [Kernel.remove_segment]
        exact .inr ⟨rfl, here.nobody known polls last⟩
    · exact fun knows => absurd knows (Option.some_ne_none s).symm
    · exact fun j ne => (here.thread j).2 ne

/-- A step of another process that knows a segment which is set up. -/
theorem AtStage.waiter_step (here : AtStage mayPoll runs config s (.setUp creator))
    (ne : i ≠ creator) (knows : (config.thread i).shmid? = some s)
    (attaches : config.thread i = .shmat false s → (runs i).shmat = true → mayPoll (runs creator))
    (moved : step runs i config.shared (config.thread i) = some (kernel', pc')) :
    AtStage mayPoll runs (config.after i (kernel', pc')) s (.setUp creator) := by
  obtain ⟨changes, waits⟩ := ((here.thread i).2 ne).step knows here.kernel.2.2.1
    (fun about succeeds _ => attaches about succeeds) moved
  apply AtStage.after
  · rcases changes with rfl | ⟨rfl, -⟩
    · exact here.kernel
    · exact here.kernel.attach i
  · exact ⟨fun same => absurd same ne, fun _ => waits⟩
  · exact fun j _ => here.thread j

/-- A segment that was removed while nobody had it attached cannot be attached. -/
theorem AtStage.dropped_step (here : AtStage mayPoll runs config s (.dropped creator))
    (knows : (config.thread i).shmid? = some s)
    (moved : step runs i config.shared (config.thread i) = some (kernel', pc')) :
    AtStage mayPoll runs (config.after i (kernel', pc')) s (.dropped creator) := by
  obtain ⟨below, unnamed, notReady, fails, nobody⟩ := here.kernel
  obtain ⟨changes, waits⟩ := (here.thread i).step knows notReady
    (fun _ _ attachable => nobody.resolve_right fun gone => attachable gone.1 gone.2) moved
  apply AtStage.after
  · rcases changes with rfl | ⟨rfl, polls⟩
    · exact here.kernel
    · refine ⟨below, unnamed, ?_, fails, .inl polls⟩
      rw [Kernel.attach_segment]
      exact notReady
  · exact waits
  · exact fun j _ => here.thread j

/-- Every step takes a segment from its stage to the next, or leaves it there. -/
theorem AtStage.step (here : AtStage mayPoll runs config s stage) (known : Known config)
    (creates : stage = .unused → config.thread i = .shmgetExcl → config.shared.key = none →
      (runs i).role = .sender → (runs i).Initializes)
    (attaches : ∀ creator, stage = .setUp creator → config.thread i = .shmat false s →
      (runs i).shmat = true → mayPoll (runs creator))
    (moved : step runs i config.shared (config.thread i) = some (kernel', pc')) :
    ∃ stage', AtStage mayPoll runs (config.after i (kernel', pc')) s stage' ∧
      stage.Next stage' := by
  cases knows : (config.thread i).shmid? with
  | none =>
      have before : (config.thread i).shmid? ≠ some s := by
        rw [knows]
        exact (Option.some_ne_none s).symm
      rcases step_unknown moved knows with
        ⟨first, free, rfl, rfl⟩ | ⟨t, named, rfl, rfl⟩ | ⟨rfl, after⟩
      · by_cases same : config.shared.next = s
        · subst same
          cases stage with
          | unused => exact ⟨.setUp i, here.created (creates rfl first free), .created i⟩
          | setUp _ | ready | dropped _ => exact absurd here.kernel.1 (Nat.lt_irrefl _)
        · have other : some config.shared.next ≠ some s := fun eq => same (Option.some.inj eq)
          exact ⟨stage, here.elsewhere (Kernel.sameAt_create free other) before other, .same _⟩
      · by_cases same : t = s
        · subst same
          exact ⟨stage, here.found named before, .same _⟩
        · have other : some t ≠ some s := fun eq => same (Option.some.inj eq)
          exact ⟨stage, here.elsewhere (.refl s _) before other, .same _⟩
      · refine ⟨stage, here.elsewhere (.refl s _) before ?_, .same _⟩
        rw [after]
        exact (Option.some_ne_none s).symm
  | some t =>
      have effect := step_effect moved knows
      by_cases same : t = s
      · subst same
        cases stage with
        | unused => exact absurd knows (here.thread i)
        | setUp creator =>
            by_cases builder : i = creator
            · subst builder
              exact here.creator_step known moved
            · exact ⟨.setUp creator,
                here.waiter_step builder knows (attaches creator rfl) moved, .same _⟩
        | ready => exact ⟨.ready, here.ready_step effect, .same _⟩
        | dropped creator => exact ⟨.dropped creator, here.dropped_step knows moved, .same _⟩
      · have other : some t ≠ some s := fun eq => same (Option.some.inj eq)
        refine ⟨stage, here.elsewhere (effect.others s other) (knows ▸ other) ?_, .same _⟩
        rcases effect.knows with ended | knows
        · rw [ended]
          exact (Option.some_ne_none s).symm
        · rw [knows]
          exact other

end Stages

/-! ## Runs -/

theorem Known.elsewhere (known : Known config) (same : config.shared.SameAt s kernel')
    (unknown : (config.thread i).shmid? ≠ some s) {j : ι}
    (isMem : j ∈ (kernel'.segment s).attached) :
    ((config.after i (kernel', pc')).thread j).Attached s := by
  rw [same.segment] at isMem
  have attached := known j s isMem
  have ne : j ≠ i := by
    rintro rfl
    exact unknown attached.shmid?
  rw [Config.after_of_ne ne]
  exact attached

theorem Known.step (known : Known config)
    (moved : step runs i config.shared (config.thread i) = some (kernel', pc')) :
    Known (config.after i (kernel', pc')) := by
  intro j s isMem
  cases knows : (config.thread i).shmid? with
  | none =>
      have unknown : (config.thread i).shmid? ≠ some s := by
        rw [knows]
        exact (Option.some_ne_none s).symm
      rcases step_unknown moved knows with ⟨-, free, rfl, rfl⟩ | ⟨t, -, rfl, rfl⟩ | ⟨rfl, -⟩
      · by_cases same : config.shared.next = s
        · subst same
          rw [Config.after_shared, Kernel.create_segment] at isMem
          exact absurd isMem (Finset.notMem_empty j)
        · have other : some config.shared.next ≠ some s := fun eq => same (Option.some.inj eq)
          exact known.elsewhere (Kernel.sameAt_create free other) unknown isMem
      · exact known.elsewhere (.refl s _) unknown isMem
      · exact known.elsewhere (.refl s _) unknown isMem
  | some t =>
      have effect := step_effect moved knows
      by_cases same : t = s
      · subst same
        by_cases mine : j = i
        · subst mine
          rw [Config.after_self]
          exact effect.own (known j t) isMem
        · rw [Config.after_of_ne mine]
          exact known j t (effect.rest j mine isMem)
      · have other : some t ≠ some s := fun eq => same (Option.some.inj eq)
        exact known.elsewhere (effect.others s other) (knows ▸ other) isMem

theorem Sound.step (sound : Sound runs config) (allowed : Allowed runs config i)
    (moved : step runs i config.shared (config.thread i) = some (kernel', pc')) :
    Sound runs (config.after i (kernel', pc')) := by
  constructor
  · exact sound.known.step moved
  · intro s
    obtain ⟨stage, here⟩ := sound.stage s
    have creates (first : config.thread i = .shmgetExcl) : config.shared.key = none →
        (runs i).role = .sender → (runs i).Initializes := by
      rw [Allowed, first] at allowed
      exact allowed
    have attaches (creator : ι) (isSetUp : stage = .setUp creator)
        (about : config.thread i = .shmat false s) (succeeds : (runs i).shmat = true) :
        (runs creator).Initializes := by
      subst isSetUp
      rw [Allowed, about] at allowed
      apply allowed succeeds here.kernel.2.2.1 creator
      exact ((here.thread creator).1 rfl).imp And.left And.left
    obtain ⟨stage', after, -⟩ := here.step sound.known (fun _ => creates) attaches moved
    exact ⟨stage', after⟩

theorem Sound.start (starts : (program runs).start config) : Sound runs config := by
  constructor
  · intro i s isMem
    rw [starts.1] at isMem
    exact absurd isMem (Finset.notMem_empty i)
  · intro s
    refine ⟨.unused, ⟨?_, ?_⟩, fun i => ?_⟩
    · rw [starts.1]
      exact Nat.zero_le s
    · rw [starts.1]
      exact (Option.some_ne_none s).symm
    · rw [starts.2 i]
      exact (Option.some_ne_none s).symm

theorem Sound.of_reachable
    (reachable : Reachable ((program runs).system.restrict (Allowed runs)) config) :
    Sound runs config := by
  apply reachable.invariant
  · exact fun _ starts => .start starts
  · rintro config i _ sound ⟨⟨⟨kernel', pc'⟩, moved, rfl⟩, allowed⟩
    exact sound.step allowed moved

end NckuOs.Ipc.Startup
