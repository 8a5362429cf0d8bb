import NckuOs.ProcLog.Logging

/-!
# When the two threads exclude each other

Each thread has a flag of its own, so that the second one initialises the lock again,
also while the first one holds it.  In the runs in which this does not happen the lock
excludes, and a thread that finds the proc file empty reads back its own message.
-/

namespace NckuOs.ProcLog

open NckuOs.ByteMemory
open NckuOs.Decimal
open NckuOs.Threads
open NckuOs.Transition

variable {answer : Fin 2 → Answer}

/-- What a thread that finds the file empty should read back. -/
def ownText (answer : Fin 2 → Answer) (t : Fin 2) : List UInt8 :=
  message t ++ (answer t).current.tag

theorem message_noNul (t : Fin 2) : 0 ∉ message t := by
  revert t
  decide

theorem length_message (t : Fin 2) : (message t).length = 21 := by
  revert t
  decide

theorem length_ownText (answer : Fin 2 → Answer) (t : Fin 2) :
    (ownText answer t).length ≤ bufSize - 1 := by
  have tag := (answer t).current.length_tag_le
  rw [ownText, List.length_append, length_message]
  unfold bufSize
  omega

/-! ## The condition -/

/-- A step of the thread `t` does not initialise the lock while a thread is inside, and does
not write to the file when there is text in it that `t` would read back. -/
def Orderly (answer : Fin 2 → Answer) (config : Config (Fin 2) LogShared LogThread)
    (t : Fin 2) : Prop :=
  ((config.thread t).pc = .spinInit → (answer t).spinInit = 0 →
    ∀ u, ¬(config.thread u).Inside) ∧
  ((config.thread t).pc = .write → (config.thread t).locked = true → (answer t).opens = true →
    (answer t).stream = true → config.shared.mem 0 = 0)

/-! ## The invariant -/

/-- What a thread has done so far. -/
def LogThread.Sound (own : List UInt8) (thread : LogThread) : Prop :=
  match thread.pc with
  | .write => thread.wrote = false ∧ thread.readBack = none
  | .read => (thread.wrote = true → thread.locked = true) ∧ thread.readBack = none
  | .unlock => thread.wrote = true → ∀ text, thread.readBack = some text → text = own
  | .done => thread.wrote = true → ∀ text, thread.readBack = some text → text = own
  | _ => thread.locked = false ∧ thread.wrote = false ∧ thread.readBack = none

/-- The message is in the file and will be read. -/
def LogThread.Pending (thread : LogThread) : Prop :=
  thread.pc = .read ∧ thread.wrote = true

/-- Only one thread is inside, it holds the lock, and the file holds what it has written, if
it can read the file. -/
structure LogInv (answer : Fin 2 → Answer) (config : Config (Fin 2) LogShared LogThread) :
    Prop where
  sound : ∀ t, (config.thread t).Sound (ownText answer t)
  unique : ∀ t u, (config.thread t).Inside → (config.thread u).Inside → t = u
  held : ∀ t, (config.thread t).Inside → config.shared.held = true
  own : ∀ t, (answer t).stream = true → (config.thread t).Pending →
    Holds config.shared.mem (ownText answer t)

theorem LogThread.Sound.inside {own : List UInt8} {thread : LogThread}
    (sound : thread.Sound own) (pending : thread.Pending) : thread.Inside := by
  rcases pending with ⟨atRead, wrote⟩
  simp only [Sound, atRead] at sound
  exact ⟨sound.1 wrote, .inr (.inl atRead)⟩

theorem LogThread.Sound.back {own text : List UInt8} {thread : LogThread}
    (sound : thread.Sound own) (wrote : thread.wrote = true)
    (read : thread.readBack = some text) : text = own := by
  unfold Sound at sound
  split at sound
  · exact absurd wrote (by simp [sound.1])
  · exact absurd read (by simp [sound.2])
  · exact sound wrote text read
  · exact sound wrote text read
  · exact absurd wrote (by simp [sound.2.1])

namespace LogInv

variable {config : Config (Fin 2) LogShared LogThread} {t : Fin 2} {shared' : LogShared}
  {thread' : LogThread}

/-- What a step has to show about the thread that moves and about the others. -/
theorem after (inv : LogInv answer config) (sound : thread'.Sound (ownText answer t))
    (alone : thread'.Inside → ∀ u, u ≠ t → ¬(config.thread u).Inside)
    (held : thread'.Inside → shared'.held = true)
    (heldOthers : ∀ u, u ≠ t → (config.thread u).Inside → shared'.held = true)
    (own : (answer t).stream = true → thread'.Pending → Holds shared'.mem (ownText answer t))
    (ownOthers : ∀ u, u ≠ t → (answer u).stream = true → (config.thread u).Pending →
      Holds shared'.mem (ownText answer u)) :
    LogInv answer (config.after t (shared', thread')) where
  sound := Config.forall_after (P := fun u (thread : LogThread) => thread.Sound (ownText answer u))
    sound fun u _ => inv.sound u
  unique := by
    intro u v first second
    by_cases moved : u = t
    · by_cases movedToo : v = t
      · rw [moved, movedToo]
      · rw [Config.after_of_ne movedToo] at second
        rw [moved, Config.after_self] at first
        exact absurd second (alone first v movedToo)
    · rw [Config.after_of_ne moved] at first
      by_cases movedToo : v = t
      · rw [movedToo, Config.after_self] at second
        exact absurd first (alone second u moved)
      · rw [Config.after_of_ne movedToo] at second
        exact inv.unique u v first second
  held := Config.forall_after
    (P := fun _ (thread : LogThread) => thread.Inside → shared'.held = true) held heldOthers
  own := Config.forall_after
    (P := fun u (thread : LogThread) => (answer u).stream = true → thread.Pending →
      Holds shared'.mem (ownText answer u))
    own ownOthers

/-- A step that leaves the shared state alone and does not enter. -/
theorem quiet (inv : LogInv answer config) (sound : thread'.Sound (ownText answer t))
    (inside : thread'.Inside → (config.thread t).Inside) (notPending : ¬thread'.Pending) :
    LogInv answer (config.after t (config.shared, thread')) := by
  apply inv.after sound
  · intro entered u other insideToo
    exact other (inv.unique u t insideToo (inside entered))
  · intro entered
    exact inv.held t (inside entered)
  · intro u _ insideToo
    exact inv.held u insideToo
  · intro _ pending
    exact absurd pending notPending
  · intro u _ stream pending
    exact inv.own u stream pending

/-- A step of the thread that is inside: no other thread waits for its text. -/
theorem not_pending (inv : LogInv answer config) (inside : (config.thread t).Inside) (u : Fin 2)
    (other : u ≠ t) : ¬(config.thread u).Pending :=
  fun pending => other (inv.unique u t ((inv.sound u).inside pending) inside)

/-- Before the lock a thread is outside and has nothing to show. -/
theorem quiet_before (inv : LogInv answer config)
    (before : (config.thread t).locked = false ∧ (config.thread t).wrote = false ∧
      (config.thread t).readBack = none)
    (locked : thread'.locked = (config.thread t).locked)
    (wrote : thread'.wrote = (config.thread t).wrote)
    (readBack : thread'.readBack = (config.thread t).readBack) :
    LogInv answer (config.after t (config.shared, thread')) := by
  rw [before.1] at locked
  rw [before.2.1] at wrote
  rw [before.2.2] at readBack
  apply inv.quiet
  · unfold LogThread.Sound
    split
    · exact ⟨wrote, readBack⟩
    · exact ⟨fun yes => absurd yes (by simp [wrote]), readBack⟩
    · exact fun yes => absurd yes (by simp [wrote])
    · exact fun yes => absurd yes (by simp [wrote])
    · exact ⟨locked, wrote, readBack⟩
  · rintro ⟨yes, _⟩
    exact absurd yes (by simp [locked])
  · rintro ⟨_, yes⟩
    exact absurd yes (by simp [wrote])

/-- `pthread_spin_init` succeeds. -/
theorem step_spinInit (inv : LogInv answer config) (atInit : (config.thread t).pc = .spinInit)
    (nobody : ∀ u, ¬(config.thread u).Inside) :
    LogInv answer (config.after t
      (⟨false, config.shared.mem⟩, { config.thread t with pc := .setFlag })) := by
  have sound := inv.sound t
  simp only [LogThread.Sound, atInit] at sound
  apply inv.after
  · exact sound
  · rintro ⟨_, yes | yes | yes⟩ <;> cases yes
  · rintro ⟨_, yes | yes | yes⟩ <;> cases yes
  · exact fun u _ inside => absurd inside (nobody u)
  · rintro _ ⟨yes, _⟩
    cases yes
  · exact fun u _ _ pending => absurd ((inv.sound u).inside pending) (nobody u)

/-- `pthread_spin_lock` finds the lock free. -/
theorem step_spinLock (inv : LogInv answer config) (atLock : (config.thread t).pc = .spinLock)
    (free : config.shared.held = false) :
    LogInv answer (config.after t (⟨true, config.shared.mem⟩,
      { config.thread t with pc := .write, locked := true })) := by
  have nobody : ∀ u, ¬(config.thread u).Inside := by
    intro u inside
    have held := inv.held u inside
    rw [free] at held
    cases held
  have sound := inv.sound t
  simp only [LogThread.Sound, atLock] at sound
  apply inv.after
  · exact sound.2
  · exact fun _ u _ => nobody u
  · exact fun _ => rfl
  · exact fun _ _ _ => rfl
  · rintro _ ⟨yes, _⟩
    cases yes
  · exact fun u _ _ pending => absurd ((inv.sound u).inside pending) (nobody u)

/-- The message is written. -/
theorem step_write (inv : LogInv answer config) (atWrite : (config.thread t).pc = .write)
    (locked : (config.thread t).locked = true)
    (empty : (answer t).stream = true → config.shared.mem 0 = 0) :
    let written := flush (answer t).current (message t).length config.shared.mem (message t)
    LogInv answer (config.after t (⟨config.shared.held, written.2⟩,
      { config.thread t with pc := .read, wrote := written.1 })) := by
  intro written
  have inside : (config.thread t).Inside := ⟨locked, .inl atWrite⟩
  have sound := inv.sound t
  simp only [LogThread.Sound, atWrite] at sound
  apply inv.after
  · exact ⟨fun _ => locked, sound.2⟩
  · intro _ u other insideToo
    exact other (inv.unique u t insideToo inside)
  · exact fun _ => inv.held t inside
  · exact fun u _ => inv.held u
  · intro stream _
    have holds : Holds config.shared.mem [] := by
      rw [Holds, List.take_nil, bufSize, cstr, if_pos (empty stream)]
    have some : message t ≠ [] := by
      intro isNil
      have length := length_message t
      rw [isNil] at length
      cases length
    have fits : (message t).length ≤ room [] := by
      rw [length_message]
      decide
    rcases flush_fits (answer t).current holds (message_noNul t) some fits 20 with
      ⟨mem', wrote, held⟩
    have result : written = (true, mem') := by
      rw [← wrote]
      simp only [written, length_message]
    rw [result]
    exact held
  · exact fun u other _ pending => absurd pending (inv.not_pending inside u other)

/-- The file is read. -/
theorem step_read (inv : LogInv answer config) (atRead : (config.thread t).pc = .read)
    (locked : (config.thread t).locked = true) (stream : (answer t).stream = true) :
    let read := readLoop (bufferOf (List.replicate (answer t).streamBuffer 0))
      (answer t).streamBuffer 2 config.shared.mem 0
    LogInv answer (config.after t (⟨config.shared.held, read.2⟩,
      { config.thread t with pc := .unlock, readBack := read.1 })) := by
  intro read
  have inside : (config.thread t).Inside := ⟨locked, .inr (.inl atRead)⟩
  apply inv.after
  · intro wrote text isText
    have printed := readLoop_text (inv.own t stream ⟨atRead, wrote⟩) isText
    rw [printed, List.take_of_length_le (length_ownText answer t)]
  · intro _ u other insideToo
    exact other (inv.unique u t insideToo inside)
  · exact fun _ => inv.held t inside
  · exact fun u _ => inv.held u
  · rintro _ ⟨yes, _⟩
    cases yes
  · exact fun u other _ pending => absurd pending (inv.not_pending inside u other)

/-- `pthread_spin_unlock`. -/
theorem step_unlock (inv : LogInv answer config) (atUnlock : (config.thread t).pc = .unlock)
    (locked : (config.thread t).locked = true) :
    LogInv answer (config.after t
      (⟨false, config.shared.mem⟩, { config.thread t with pc := .done })) := by
  have inside : (config.thread t).Inside := ⟨locked, .inr (.inr atUnlock)⟩
  have sound := inv.sound t
  simp only [LogThread.Sound, atUnlock] at sound
  apply inv.after
  · exact sound
  · rintro ⟨_, yes | yes | yes⟩ <;> cases yes
  · rintro ⟨_, yes | yes | yes⟩ <;> cases yes
  · exact fun u other insideToo => absurd (inv.unique u t insideToo inside) other
  · rintro _ ⟨yes, _⟩
    cases yes
  · exact fun u other _ pending => absurd pending (inv.not_pending inside u other)

/-- Every step that meets the condition. -/
theorem step (inv : LogInv answer config) (orderly : Orderly answer config t)
    {next : LogShared × LogThread}
    (moved : logStep answer t config.shared (config.thread t) = some next) :
    LogInv answer (config.after t next) := by
  have sound := inv.sound t
  rcases orderly with ⟨quietInit, emptyFile⟩
  cases atPc : (config.thread t).pc with
  | testFlag =>
      simp only [logStep, atPc, Option.some.injEq] at moved
      simp only [LogThread.Sound, atPc] at sound
      rw [← moved]
      exact inv.quiet_before sound rfl rfl rfl
  | spinInit =>
      simp only [LogThread.Sound, atPc] at sound
      by_cases works : (answer t).spinInit = 0
      · simp only [logStep, atPc, if_pos works, Option.some.injEq] at moved
        rw [← moved]
        exact inv.step_spinInit atPc (quietInit atPc works)
      · simp only [logStep, atPc, if_neg works, Option.some.injEq] at moved
        rw [← moved]
        exact inv.quiet_before sound rfl rfl rfl
  | setFlag =>
      simp only [logStep, atPc, Option.some.injEq] at moved
      simp only [LogThread.Sound, atPc] at sound
      rw [← moved]
      exact inv.quiet_before sound rfl rfl rfl
  | testLock =>
      simp only [logStep, atPc, Option.some.injEq] at moved
      simp only [LogThread.Sound, atPc] at sound
      rw [← moved]
      exact inv.quiet_before sound rfl rfl rfl
  | spinLock =>
      simp only [LogThread.Sound, atPc] at sound
      by_cases works : (answer t).spinLock = 0
      · cases held : config.shared.held with
        | true => simp [logStep, atPc, works, held] at moved
        | false =>
            simp only [logStep, atPc, if_pos works, held, Bool.false_eq_true, if_false,
              Option.some.injEq] at moved
            rw [← moved]
            exact inv.step_spinLock atPc held
      · simp only [logStep, atPc, if_neg works, Option.some.injEq] at moved
        rw [← moved]
        exact inv.quiet_before sound rfl rfl rfl
  | write =>
      cases writes : (config.thread t).locked && (answer t).opens with
      | true =>
          simp only [logStep, atPc, writes, if_true, Option.some.injEq] at moved
          rw [Bool.and_eq_true] at writes
          rw [← moved]
          exact inv.step_write atPc writes.1 (emptyFile atPc writes.1 writes.2)
      | false =>
          simp only [logStep, atPc, writes, Bool.false_eq_true, if_false,
            Option.some.injEq] at moved
          simp only [LogThread.Sound, atPc] at sound
          rw [← moved]
          apply inv.quiet
          · exact ⟨fun wrote => absurd wrote (by simp [sound.1]), sound.2⟩
          · exact fun inside => ⟨inside.1, .inl atPc⟩
          · exact fun pending => absurd pending.2 (by simp [sound.1])
  | read =>
      cases reads : (config.thread t).locked && (answer t).stream with
      | true =>
          simp only [logStep, atPc, reads, if_true, Option.some.injEq] at moved
          rw [Bool.and_eq_true] at reads
          rw [← moved]
          exact inv.step_read atPc reads.1 reads.2
      | false =>
          simp only [logStep, atPc, reads, Bool.false_eq_true, if_false, Option.some.injEq] at moved
          simp only [LogThread.Sound, atPc] at sound
          rw [← moved]
          apply inv.quiet
          · exact fun _ text read => absurd read (by simp [sound.2])
          · exact fun inside => ⟨inside.1, .inr (.inl atPc)⟩
          · rintro ⟨yes, _⟩
            cases yes
  | unlock =>
      cases locked : (config.thread t).locked with
      | true =>
          simp only [logStep, atPc, locked, if_true, Option.some.injEq] at moved
          rw [← moved, ← locked]
          exact inv.step_unlock atPc locked
      | false =>
          simp only [logStep, atPc, locked, Bool.false_eq_true, if_false,
            Option.some.injEq] at moved
          simp only [LogThread.Sound, atPc] at sound
          rw [← moved]
          apply inv.quiet
          · exact sound
          · rintro ⟨_, yes | yes | yes⟩ <;> cases yes
          · rintro ⟨yes, _⟩
            cases yes
  | done =>
      simp only [logStep, atPc] at moved
      cases moved

end LogInv

/-- In the runs whose steps meet the condition the two threads are never inside
together, and a thread that has written its message and come to the end of the file has
read back its message and its tag. -/
theorem orderly_runs_exclude {config : Config (Fin 2) LogShared LogThread}
    (reachable : Reachable ((logProgram answer).system.restrict (Orderly answer)) config) :
    (∀ t u, (config.thread t).Inside → (config.thread u).Inside → t = u) ∧
      ∀ t text, (config.thread t).wrote = true → (config.thread t).readBack = some text →
        text = message t ++ (answer t).current.tag := by
  have inv : LogInv answer config := by
    apply reachable.invariant
    · intro start threads
      have notInside : ∀ t, ¬(start.thread t).Inside := by
        intro t inside
        rw [threads t] at inside
        exact absurd inside.1 (by decide)
      refine ⟨?_, ?_, ?_, ?_⟩
      · intro t
        rw [threads t]
        exact ⟨rfl, rfl, rfl⟩
      · exact fun t u inside => absurd inside (notInside t)
      · exact fun t inside => absurd inside (notInside t)
      · intro t _ pending
        rw [threads t] at pending
        cases pending.1
    · rintro config t _ inv ⟨⟨next, moved, rfl⟩, orderly⟩
      exact inv.step orderly moved
  exact ⟨inv.unique, fun t text wrote read => (inv.sound t).back wrote read⟩

instance (answer : Fin 2 → Answer) (config : Config (Fin 2) LogShared LogThread) (t : Fin 2) :
    Decidable (Orderly answer config t) :=
  inferInstanceAs (Decidable (_ ∧ _))

/-- Every call succeeds; the threads 8 and 9 of process 7. -/
def allWorks (t : Fin 2) : Answer :=
  ⟨0, 0, true, true, 1024, ⟨7, if t = 0 then 8 else 9, 0⟩⟩

def bothStart : Config (Fin 2) LogShared LogThread :=
  ⟨⟨false, fun _ => 0⟩, fun _ => .start⟩

/-- One thread after the other. -/
def oneByOne : Config (Fin 2) LogShared LogThread :=
  ((logProgram allWorks).runIf (Orderly allWorks) (List.replicate 8 0 ++ List.replicate 7 1)
    bothStart).getD bothStart

theorem orderly_runs_exclude_oneByOne :
    (oneByOne.thread 1).readBack = some (message 1 ++ Task.tag ⟨7, 9, 0⟩) := by
  have started : Reachable ((logProgram allWorks).system.restrict (Orderly allWorks)) bothStart :=
    .start fun _ => rfl
  have runs : ((logProgram allWorks).runIf (Orderly allWorks)
      (List.replicate 8 0 ++ List.replicate 7 1) bothStart).isSome := by decide +kernel
  have reachable :
      Reachable ((logProgram allWorks).system.restrict (Orderly allWorks)) oneByOne := by
    rcases Option.isSome_iff_exists.mp runs with ⟨config, ends⟩
    rw [oneByOne, ends]
    exact Program.reachable_runIf _ started ends
  have wrote : (oneByOne.thread 1).wrote = true := by decide +kernel
  have read : (oneByOne.thread 1).readBack.isSome := by decide +kernel
  rcases Option.isSome_iff_exists.mp read with ⟨text, isText⟩
  rw [isText, (orderly_runs_exclude reachable).2 1 text wrote isText]
  rfl

/-- Thread 1 initialises the lock while thread 0 holds it; both write, and thread 0
reads. -/
def collision : List (Fin 2) :=
  List.replicate 5 0 ++ List.replicate 5 1 ++ [0, 1, 0]

def collided : Config (Fin 2) LogShared LogThread :=
  ((logProgram allWorks).run collision bothStart).getD bothStart

/-- Both threads are inside, and the first one has read back both messages. -/
theorem second_init_lets_both_in :
    Reachable (logProgram allWorks).system collided ∧
      (collided.thread 0).Inside ∧ (collided.thread 1).Inside ∧
      (collided.thread 0).wrote = true ∧
      (collided.thread 0).readBack =
        some (message 0 ++ Task.tag ⟨7, 8, 0⟩ ++ (message 1 ++ Task.tag ⟨7, 9, 0⟩)) := by
  have started : Trace (logProgram allWorks).system [] bothStart := .start fun _ => rfl
  have runs : ((logProgram allWorks).run collision bothStart).isSome := by decide +kernel
  refine ⟨?_, by decide +kernel, by decide +kernel, by decide +kernel, by decide +kernel⟩
  rcases Option.isSome_iff_exists.mp runs with ⟨config, ends⟩
  rw [collided, ends]
  exact ⟨_, Program.trace_run collision started ends⟩

end NckuOs.ProcLog
