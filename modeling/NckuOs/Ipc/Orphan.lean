import NckuOs.Ipc.Stages
import NckuOs.Lib.Progress

/-!
# Segments that nobody is going to set up

A sender removes a segment that it made only from `cleanup` with `mailbox.flag` set, and
it sets the flag after the last `sem_init`; so a sender whose set-up fails leaves a
segment under the key whose `ready` nobody sets.  A receiver removes the segment when
its set-up fails, under the eyes of the processes that poll it.  Runs that keep clear of
both have neither.
-/

namespace NckuOs.Ipc.Startup

open NckuOs.Threads
open NckuOs.Transition

variable {ι : Type}

/-- The process has made its first call, and has not ended. -/
def Pc.Live (pc : Pc) : Prop :=
  pc ≠ .shmgetExcl ∧ pc ≠ .ended

/-- The process is in `while (!ready)`: in `main`, or in `send` or `receive`. -/
inductive Pc.Polls (s : Nat) : Pc → Prop
  | main : Polls s (.waitReady s)
  | communicate (created : Bool) : Polls s (.communicate created s)

variable [DecidableEq ι]

variable (runs : ι → Run) (config : Config ι (Kernel ι) Pc)

/-- Some live process is going to make `P` true. -/
def Expected (P : Kernel ι → Prop) : Prop :=
  ∃ i, (config.thread i).Live ∧
    BringsAbout (program runs).system config i fun config' => P config'.shared

/-- If the key names a segment whose `ready` is 0, a live process is going to set it, or
to remove the segment. -/
def NoOrphan : Prop :=
  ∀ s, config.shared.key = some s → (config.shared.segment s).ready = false →
    Expected runs config fun kernel => (kernel.segment s).ready = true ∨ kernel.key ≠ some s

/-- If a process polls a segment whose `ready` is 0, a live process is going to set
it. -/
def NoSpin : Prop :=
  ∀ i s, (config.thread i).Polls s → (config.shared.segment s).ready = false →
    Expected runs config fun kernel => (kernel.segment s).ready = true

variable {runs config} {config' : Config ι (Kernel ι) Pc} {i creator : ι} {pc : Pc} {s : Nat}
  {stage stage' : Stage ι}

/-! ## The creator is not blocked -/

theorem exists_step (ne : pc ≠ .ended) (kernel : Kernel ι) :
    ∃ next, step runs i kernel pc = some next := by
  cases pc with
  | ended => exact absurd rfl ne
  | shmgetExcl | shmget | shmat _ _ | semInit _ _ | waitReady _ | fopen _ _ =>
      simp only [step]
      split
      · exact ⟨_, rfl⟩
      · exact ⟨_, rfl⟩
  | communicate _ _ =>
      simp only [step]
      split
      · split
        · exact ⟨_, rfl⟩
        · exact ⟨_, rfl⟩
      · exact ⟨_, rfl⟩
  | memset _ | setReady _ | shmdt _ _ | shmctl _ | exit _ => exact ⟨_, rfl⟩

omit [DecidableEq ι] in
theorem Builds.live {run : Run} (builds : Builds run s pc) : pc.Live := by
  have knows := builds.shmid?
  constructor
  · rintro rfl
    cases knows
  · rintro rfl
    cases knows

/-! ## From the set-up on -/

omit [DecidableEq ι] in
theorem Stage.Next.trans (first : (Stage.setUp creator).Next stage)
    (second : stage.Next stage') : (Stage.setUp creator).Next stage' := by
  cases first with
  | same => exact second
  | finished =>
      cases second
      exact .finished creator
  | removed =>
      cases second
      exact .removed creator

/-- The set-up of segment `s` by `creator` is under way, or it has come to its end; who
polls the segment in the meantime does not matter. -/
structure From (runs : ι → Run) (creator : ι) (s : Nat) (config : Config ι (Kernel ι) Pc) :
    Prop where
  known : Known config
  stage : ∃ stage, AtStage (fun _ => True) runs config s stage ∧
    (Stage.setUp creator).Next stage

/-- A condition that holds as soon as the set-up is over, and not before. -/
structure Ends (runs : ι → Run) (creator : ι) (s : Nat) (P : Kernel ι → Prop) : Prop where
  notYet : ∀ kernel, (Stage.setUp creator).OfKernel (fun _ => True) runs kernel s → ¬P kernel
  later : ∀ kernel stage, stage.OfKernel (fun _ => True) runs kernel s →
    (Stage.setUp creator).Next stage → stage ≠ .setUp creator → P kernel

variable {P : Kernel ι → Prop}

theorem From.step (here : From runs creator s config)
    (moved : (program runs).system.step config i config') :
    Known config' ∧ ∃ stage stage', AtStage (fun _ => True) runs config s stage ∧
      (Stage.setUp creator).Next stage ∧ stage.Next stage' ∧
        AtStage (fun _ => True) runs config' s stage' := by
  obtain ⟨⟨kernel', pc'⟩, moved, rfl⟩ := moved
  obtain ⟨stage, atStage, next⟩ := here.stage
  have old : stage ≠ .unused := by
    rintro rfl
    cases next
  obtain ⟨stage', after, onward⟩ := atStage.step here.known (fun unused => absurd unused old)
    (fun _ _ _ _ => trivial) moved
  exact ⟨here.known.step moved, stage, stage', atStage, next, onward, after⟩

theorem From.keeps (here : From runs creator s config)
    (moved : (program runs).system.step config i config') : From runs creator s config' := by
  obtain ⟨known, stage, stage', -, next, onward, after⟩ := here.step moved
  exact ⟨known, stage', after, next.trans onward⟩

theorem Ends.lasts (ends : Ends runs creator s P) (here : From runs creator s config)
    (holds : P config.shared) (moved : (program runs).system.step config i config') :
    P config'.shared := by
  obtain ⟨-, stage, stage', atStage, next, onward, after⟩ := here.step moved
  apply ends.later _ stage' after.kernel (next.trans onward)
  rintro rfl
  cases onward with
  | same => exact ends.notYet _ atStage.kernel holds
  | created => cases next

omit [DecidableEq ι] in
theorem Ends.builds (ends : Ends runs creator s P) (here : From runs creator s config)
    (notYet : ¬P config.shared) :
    (Stage.setUp creator).OfKernel (fun _ => True) runs config.shared s ∧
      Builds (runs creator) s (config.thread creator) := by
  obtain ⟨stage, atStage, next⟩ := here.stage
  by_cases same : stage = .setUp creator
  · subst same
    exact ⟨atStage.kernel, (atStage.thread creator).1 rfl⟩
  · exact absurd (ends.later _ stage atStage.kernel next same) notYet

theorem Ends.own (ends : Ends runs creator s P) (here : From runs creator s config)
    (notYet : ¬P config.shared) (moved : (program runs).system.step config creator config') :
    P config'.shared ∨ (config'.thread creator).left < (config.thread creator).left := by
  obtain ⟨stage', after, next⟩ := (here.keeps moved).stage
  obtain ⟨⟨kernel', pc'⟩, moved, rfl⟩ := moved
  by_cases same : stage' = .setUp creator
  · subst same
    right
    rw [Config.after_self]
    obtain ⟨ofKernel, builds⟩ := ends.builds here notYet
    obtain ⟨-, -, notReady, kept⟩ := after.kernel
    rcases builds.step ofKernel moved with ⟨-, -, lower⟩ | ⟨rfl, -⟩ | ⟨-, -, rfl, -⟩
    · exact lower
    · rw [Config.after_shared, Kernel.storeReady_segment] at notReady
      cases notReady
    · rw [Config.after_shared, Kernel.remove_segment] at kept
      cases kept
  · left
    exact ends.later _ stage' after.kernel next same

theorem Ends.descends (ends : Ends runs creator s P) :
    Descends (program runs).system creator (fun config => P config.shared) (From runs creator s)
      fun config => (config.thread creator).left where
  keeps _ _ _ here moved := here.keeps moved
  lasts _ _ _ here holds moved := ends.lasts here holds moved
  enabled config here notYet := by
    obtain ⟨-, builds⟩ := ends.builds here notYet
    obtain ⟨next, moved⟩ := exists_step builds.live.2 config.shared
    exact ⟨config.after creator next, next, moved, rfl⟩
  own _ _ here notYet moved := ends.own here notYet moved
  others := by
    rintro config other _ - - ne ⟨next, -, rfl⟩
    exact .inr (congrArg Pc.left (Config.after_of_ne ne.symm)).le

theorem Ends.expected (ends : Ends runs creator s P) (sound : Sound runs config)
    (here : AtStage Run.Initializes runs config s (.setUp creator)) :
    Expected runs config P := by
  refine ⟨creator, ((here.thread creator).1 rfl).live, ?_⟩
  have atStage : AtStage (fun _ => True) runs config s (.setUp creator) := by
    refine ⟨here.kernel, fun i => ⟨(here.thread i).1, fun ne knows => ?_⟩⟩
    exact ((here.thread i).2 ne knows).imp_right fun polls => ⟨polls.1, trivial⟩
  exact ends.descends.bringsAbout ⟨sound.known, .setUp creator, atStage, .same _⟩

/-! ## What the runs leave behind -/

omit [DecidableEq ι] in
theorem ends_readyOrRemoved : Ends runs creator s fun kernel =>
    (kernel.segment s).ready = true ∨ kernel.key ≠ some s where
  notYet kernel here := by
    obtain ⟨-, named, notReady, -⟩ := here
    rintro (ready | unnamed)
    · rw [notReady] at ready
      cases ready
    · exact unnamed named
  later kernel stage here next ended := by
    cases next with
    | same => exact absurd rfl ended
    | finished => exact .inl here.2
    | removed => exact .inr here.2.1

omit [DecidableEq ι] in
theorem ends_ready (initializes : (runs creator).Initializes) :
    Ends runs creator s fun kernel => (kernel.segment s).ready = true where
  notYet kernel here := by
    rw [here.2.2.1]
    exact Bool.false_ne_true
  later kernel stage here next ended := by
    cases next with
    | same => exact absurd rfl ended
    | finished => exact here.2
    | removed => exact absurd initializes here.2.2.2.1

theorem Sound.noOrphan (sound : Sound runs config) : NoOrphan runs config := by
  intro s named notReady
  obtain ⟨stage, here⟩ := sound.stage s
  cases stage with
  | unused => exact absurd named here.kernel.2
  | setUp creator => exact ends_readyOrRemoved.expected sound here
  | ready =>
      have ready := here.kernel.2
      rw [notReady] at ready
      cases ready
  | dropped creator => exact absurd named here.kernel.2.1

omit [DecidableEq ι] in
theorem Pc.Polls.shmid? (polls : pc.Polls s) : pc.shmid? = some s := by
  cases polls <;> rfl

omit [DecidableEq ι] in
theorem Pc.Polls.not_builds {run : Run} (polls : pc.Polls s) : ¬Builds run s pc := by
  rintro (⟨creates, -⟩ | ⟨removes, -⟩)
  · cases creates <;> cases polls
  · cases removes <;> cases polls

omit [DecidableEq ι] in
theorem Pc.Polls.of_waits {mayPoll : Prop} (polls : pc.Polls s) (waits : Waits mayPoll s pc) :
    mayPoll := by
  rcases waits polls.shmid? with rfl | ⟨-, may⟩
  · cases polls
  · exact may

theorem Sound.noSpin (sound : Sound runs config) : NoSpin runs config := by
  intro i s polls notReady
  obtain ⟨stage, here⟩ := sound.stage s
  cases stage with
  | unused => exact absurd polls.shmid? (here.thread i)
  | setUp creator =>
      by_cases same : i = creator
      · exact absurd ((here.thread i).1 same) polls.not_builds
      · have initializes := polls.of_waits ((here.thread i).2 same)
        exact (ends_ready initializes).expected sound here
  | ready =>
      have ready := here.kernel.2
      rw [notReady] at ready
      cases ready
  | dropped creator => exact absurd (polls.of_waits (here.thread i)) here.kernel.2.2.2.1

/-- In any number of runs of which no sender makes a segment that it does not
initialise, and no process attaches a segment whose creator is going to remove it,
somebody is going to set `ready` or to remove the segment, and to set `ready` while
anybody polls it. -/
theorem ready_expected (runs : ι → Run) {config : Config ι (Kernel ι) Pc}
    (reachable : Reachable ((program runs).system.restrict (Allowed runs)) config) :
    NoOrphan runs config ∧ NoSpin runs config := by
  have sound := Sound.of_reachable reachable
  exact ⟨sound.noOrphan, sound.noSpin⟩

/-! ## One run, and two -/

/-- A run of which no call fails. -/
def Run.ok (role : Role) : Run where
  role := role
  shmat := true
  semInit _ := true
  fopen := true
  communicate := true

/-- Before the first call of any run. -/
def starting : Config ι (Kernel ι) Pc where
  shared := .initial
  thread _ := .shmgetExcl

theorem reachable_run {schedule : List ι}
    (ran : (program runs).run schedule starting = some config) :
    Reachable (program runs).system config :=
  ⟨_, Program.trace_run schedule (.start ⟨rfl, fun _ => rfl⟩) ran⟩

omit [DecidableEq ι] in
theorem allowed_of_initializes (initializes : ∀ j, (runs j).Initializes)
    (config : Config ι (Kernel ι) Pc) (i : ι) : Allowed runs config i := by
  unfold Allowed AllowedAt
  split
  · exact fun _ _ => initializes i
  · exact fun _ _ j _ => initializes j
  · trivial

/-- The sender has made the segment, and the receiver polls it. -/
theorem ready_expected_polled :
    ∃ config, (config.thread .receiver = .waitReady 0 ∧ config.shared.key = some 0 ∧
        (config.shared.segment 0).ready = false) ∧
      NoOrphan Run.ok config ∧ NoSpin Run.ok config := by
  have runs : ((program Run.ok).run [.sender, .receiver, .receiver, .receiver] starting).any
      (fun config => config.thread .receiver = .waitReady 0 ∧ config.shared.key = some 0 ∧
        (config.shared.segment 0).ready = false) = true := by
    decide +kernel
  rcases (Option.any_eq_true _ _).mp runs with ⟨config, ran, polled⟩
  have reachable : Reachable ((program Run.ok).system.restrict (Allowed Run.ok)) config :=
    (reachable_run ran).restrict (allowed_of_initializes fun _ => ⟨rfl, rfl, rfl, rfl⟩)
  exact ⟨config, of_decide_eq_true polled, ready_expected Run.ok reachable⟩

/-- The only run: a sender makes the segment and cannot attach it. -/
def unattached (_ : Unit) : Run :=
  { Run.ok .sender with shmat := false }

theorem not_ready_expected_unattached :
    ¬∀ config, Reachable (program unattached).system config →
      NoOrphan unattached config ∧ NoSpin unattached config := by
  intro always
  have runs : ((program unattached).run [(), ()] starting).any
      (fun config => config.thread () = .ended ∧ config.shared.key = some 0 ∧
        (config.shared.segment 0).ready = false) = true := by
    decide +kernel
  rcases (Option.any_eq_true _ _).mp runs with ⟨config, ran, left⟩
  obtain ⟨ended, named, notReady⟩ := of_decide_eq_true left
  obtain ⟨i, live, -⟩ := (always config (reachable_run ran)).1 0 named notReady
  exact live.2 ended

/-- A sender attaches a segment whose `sem_init` fails in the receiver that made it. -/
def uninitialized : Role → Run
  | .sender => .ok .sender
  | .receiver => { Run.ok .receiver with semInit := fun _ => false }

/-- The receiver removes the segment, and the sender polls it for ever. -/
theorem not_noSpin_uninitialized :
    ¬∀ config, Reachable (program uninitialized).system config →
      NoSpin uninitialized config := by
  intro always
  have runs : ((program uninitialized).run
      ([.receiver, .receiver, .sender, .sender, .sender] ++ List.replicate 4 .receiver)
      starting).any (fun config => config.thread .receiver = .ended ∧
        config.thread .sender = .waitReady 0 ∧ (config.shared.segment 0).ready = false) = true := by
    decide +kernel
  rcases (Option.any_eq_true _ _).mp runs with ⟨config, ran, left⟩
  obtain ⟨ended, polls, notReady⟩ := of_decide_eq_true left
  obtain ⟨i, live, brings⟩ :=
    always config (reachable_run ran) .sender 0 (polls ▸ .main) notReady
  cases i with
  | receiver => exact live.2 ended
  | sender =>
      refine not_bringsAbout_of_self ?_ ?_ brings
      · refine ⟨(config.shared, config.thread .sender), ?_, (Config.after_same _ _).symm⟩
        rw [polls]
        simp only [program, step, notReady, Bool.false_eq_true, if_false]
      · intro ready
        exact Bool.false_ne_true (notReady.symm.trans ready)

end NckuOs.Ipc.Startup
