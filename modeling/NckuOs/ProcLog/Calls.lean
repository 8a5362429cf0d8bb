import NckuOs.Lib.Atomic
import NckuOs.ProcLog.Overlap

/-!
# Calls one at a time

`mywrite` and `myread` are what the accesses of a call amount to when no other call comes
between them.
-/

namespace NckuOs.ProcLog

open NckuOs.ByteMemory
open NckuOs.Osfs (Errno UserBuf copyFromUser copyToUser)
open NckuOs.Threads
open NckuOs.Transition

/-- Between two calls. -/
def Caller.Idle (caller : Caller) : Prop :=
  caller.pc = .scan 0 ∧ caller.delivered = []

/-- A whole call: the memory behind it and what it returns. -/
def KernelCall.perform (call : KernelCall) (mem : Mem) : Mem × Returned :=
  match call with
  | .write current ubuf ubufferLen offset =>
      let done := mywrite current mem ubuf ubufferLen
      (done.2, ⟨call, done.1, [], offset⟩)
  | .read ubuf bufferLen offset =>
      let done := myread mem ubuf bufferLen offset
      (done.mem, ⟨call, done.result, done.delivered, done.offset⟩)

/-- The thread when a call is behind it. -/
def Caller.behind (caller : Caller) (returned : Returned) : Caller :=
  ⟨caller.calls.tail, .scan 0, [], caller.returned ++ [returned]⟩

/-! ## Strings -/

theorem strnlen_le (mem : Mem) : strnlen mem ≤ bufSize :=
  length_cstr_le mem 0 bufSize

theorem ne_zero_of_lt_strnlen {mem : Mem} {k : Nat} (inside : k < strnlen mem) : mem k ≠ 0 := by
  intro nul
  have ends : strnlen mem ≤ k := length_cstr_le_of_nul bufSize (by rw [Nat.zero_add]; exact nul)
  omega

theorem nul_at_strnlen {mem : Mem} (short : strnlen mem < bufSize) : mem (strnlen mem) = 0 := by
  have nul := (cstr_bytes (p := 0) short).2
  rw [Nat.zero_add] at nul
  exact nul

theorem poke_eq_store (mem : Mem) (a : Nat) (bytes : Nat → UInt8) :
    poke mem a (bytes 0) = store mem a 1 bytes := by
  apply store_congr
  intro i below
  rw [Nat.lt_one_iff.mp below]

/-- One byte and then the others. -/
theorem store_poke (mem : Mem) (a n : Nat) (bytes : Nat → UInt8) :
    store (poke mem a (bytes 0)) (a + 1) n (fun i => bytes (i + 1)) =
      store mem a (n + 1) bytes := by
  rw [poke_eq_store, Nat.add_comm n 1, ← store_store_adjacent]
  simp only [Nat.add_comm 1]

/-- What `vsnprintf` stores is a prefix of the text and a NUL. -/
theorem poke_store_eq_scnprintf {mem : Mem} {p size : Nat} (some : size ≠ 0)
    (text : List UInt8) :
    poke (store mem p (min text.length size) fun i => text.getD i 0)
      (p + min text.length (size - 1)) 0 = (scnprintf mem p size text).2 := by
  have isStore : (scnprintf mem p size text).2 =
      store mem p (min text.length (size - 1) + 1) fun i =>
        if i < min text.length (size - 1) then text.getD i 0 else 0 := by
    rw [scnprintf, if_neg some]
  rw [isStore]
  funext a
  by_cases atEnd : a = p + min text.length (size - 1)
  · subst atEnd
    rw [poke_self, store_of_mem (by omega) (by omega)]
    rw [if_neg (by omega)]
  · rw [poke_of_ne _ atEnd]
    by_cases inText : p ≤ a ∧ a < p + min text.length (size - 1)
    · rw [store_of_mem inText.1 (by omega), store_of_mem inText.1 (by omega), if_pos (by omega)]
    · rw [store_of_not_mem (by omega), store_of_not_mem (by omega)]

/-! ## The accesses of one call -/

section Accesses

variable {ι : Type} {mem₀ : Mem} {programs : ι → List KernelCall} {t : ι} {mem : Mem}
  {caller : Caller} {call : KernelCall} {rest : List KernelCall} {last : Mem × Caller}
  {current : Task} {ubuf : UserBuf} {len offset bufferLen copyLen dataLen k : Nat}

theorem Caller.idle_ret (caller : Caller) (call : KernelCall) (result : Except Errno Nat)
    (offset : Nat) : (caller.ret call result offset).Idle :=
  ⟨rfl, rfl⟩

theorem Caller.goto_pc {pc : KernelPc} (isPc : caller.pc = pc) : caller.goto pc = caller := by
  subst isPc
  rfl

/-- A step to a place inside the call. -/
theorem completes_more {mem' : Mem} {caller' : Caller}
    (stepped : caller.step mem = some (mem', caller')) (inside : caller'.pc ≠ .scan 0)
    (completes : Completes (overlapping mem₀ programs) Caller.Idle t (mem', caller') last) :
    Completes (overlapping mem₀ programs) Caller.Idle t (mem, caller) last :=
  .more stepped (fun idle => inside idle.1) completes

/-- `strnlen`. -/
theorem completes_scan (calls : caller.calls = call :: rest)
    (isPc : caller.pc = .scan k) (before : k ≤ strnlen mem)
    (completes : Completes (overlapping mem₀ programs) Caller.Idle t
      (mem, caller.goto (.scan (strnlen mem))) last) :
    Completes (overlapping mem₀ programs) Caller.Idle t (mem, caller) last := by
  induction left : strnlen mem - k generalizing caller k with
  | zero =>
      have atEnd : k = strnlen mem := by omega
      rw [← atEnd, Caller.goto_pc isPc] at completes
      exact completes
  | succ n ih =>
      have inside : k < strnlen mem := by omega
      have stepped : caller.step mem = some (mem, caller.goto (.scan (k + 1))) := by
        have goes : k < bufSize ∧ mem k ≠ 0 :=
          ⟨Nat.lt_of_lt_of_le inside (strnlen_le mem), ne_zero_of_lt_strnlen inside⟩
        simp only [Caller.step, calls, isPc, if_pos goes]
      refine completes_more stepped (by rintro ⟨⟩) ?_
      exact ih calls rfl inside completes (by omega)

/-- `copy_from_user`. -/
theorem completes_copy (calls : caller.calls = .write current ubuf len offset :: rest)
    (isPc : caller.pc = .copy bufferLen copyLen k) (before : k ≤ copyLen)
    (completes : Completes (overlapping mem₀ programs) Caller.Idle t
      (store mem (bufferLen + k) (copyLen - k) fun i =>
          if i + k < ubuf.copied 0 copyLen then ubuf.byte (i + k) else 0,
        caller.goto (.copy bufferLen copyLen copyLen)) last) :
    Completes (overlapping mem₀ programs) Caller.Idle t (mem, caller) last := by
  induction left : copyLen - k generalizing mem caller k with
  | zero =>
      have atEnd : k = copyLen := by omega
      rw [left, store_zero, ← atEnd] at completes
      rw [← atEnd] at isPc
      rw [Caller.goto_pc isPc] at completes
      exact completes
  | succ n ih =>
      have inside : k < copyLen := by omega
      refine completes_more (by simp only [Caller.step, calls, isPc, if_pos inside]; rfl)
        (by rintro ⟨⟩) ?_
      refine ih calls rfl inside ?_ (by omega)
      have isNext : copyLen - (k + 1) = n := by omega
      have bytes := store_poke mem (bufferLen + k) n fun i =>
        if i + k < ubuf.copied 0 copyLen then ubuf.byte (i + k) else 0
      simp only [Nat.zero_add, Nat.add_right_comm _ 1 k] at bytes
      rw [left, ← bytes] at completes
      rw [isNext]
      exact completes

/-- `scnprintf`. -/
theorem completes_print (calls : caller.calls = .write current ubuf len offset :: rest)
    (isPc : caller.pc = .print bufferLen copyLen k)
    (before : k ≤ min current.tag.length (bufSize - bufferLen)) :
    Completes (overlapping mem₀ programs) Caller.Idle t (mem, caller)
      (poke (store mem (bufferLen + k) (min current.tag.length (bufSize - bufferLen) - k) fun i =>
          current.tag.getD (i + k) 0)
        (bufferLen + min current.tag.length (bufSize - bufferLen - 1)) 0,
      caller.ret (.write current ubuf len offset) (.ok copyLen) offset) := by
  induction left : min current.tag.length (bufSize - bufferLen) - k generalizing mem caller k with
  | zero =>
      have atEnd : ¬k < min current.tag.length (bufSize - bufferLen) := by omega
      rw [store_zero]
      apply Completes.last
      · simp only [overlapping, Caller.step, calls, isPc, if_neg atEnd]
      · exact caller.idle_ret _ _ _
  | succ n ih =>
      have inside : k < min current.tag.length (bufSize - bufferLen) := by omega
      refine completes_more (by simp only [Caller.step, calls, isPc, if_pos inside]; rfl)
        (by rintro ⟨⟩) ?_
      have bytes := store_poke mem (bufferLen + k) n fun i => current.tag.getD (i + k) 0
      simp only [Nat.zero_add, Nat.add_right_comm _ 1 k] at bytes
      rw [← bytes]
      apply ih (k := k + 1)
      · exact calls
      · rfl
      · exact inside
      · omega

/-- `copy_to_user`. -/
theorem completes_deliver (calls : caller.calls = .read ubuf len offset :: rest)
    (isPc : caller.pc = .deliver dataLen k) (before : k ≤ ubuf.copied 0 dataLen)
    (completes : ∀ caller' : Caller, caller'.calls = caller.calls →
      caller'.pc = .deliver dataLen (ubuf.copied 0 dataLen) →
      caller'.delivered =
        caller.delivered ++ (List.range' k (ubuf.copied 0 dataLen - k)).map mem →
      caller'.returned = caller.returned →
      Completes (overlapping mem₀ programs) Caller.Idle t (mem, caller') last) :
    Completes (overlapping mem₀ programs) Caller.Idle t (mem, caller) last := by
  induction left : ubuf.copied 0 dataLen - k generalizing caller k with
  | zero =>
      have atEnd : ubuf.copied 0 dataLen = k := by omega
      apply completes caller rfl (atEnd ▸ isPc)
      · rw [left, List.range'_zero, List.map_nil, List.append_nil]
      · rfl
  | succ n ih =>
      have inside : k < ubuf.copied 0 dataLen := by omega
      refine completes_more (by simp only [Caller.step, calls, isPc, if_pos inside]; rfl)
        (by rintro ⟨⟩) ?_
      have isNext : ubuf.copied 0 dataLen - (k + 1) = n := by omega
      refine ih rfl rfl inside ?_ isNext
      intro caller' sameCalls atEnd delivered sameReturned
      apply completes caller' (sameCalls.trans calls.symm) atEnd
      · rw [delivered, isNext, left, List.range'_succ, List.map_cons, List.append_assoc,
          List.singleton_append]
      · exact sameReturned

/-- `memset`. -/
theorem completes_clear (calls : caller.calls = .read ubuf len offset :: rest)
    (isPc : caller.pc = .clear dataLen k) (before : k ≤ bufSize) :
    Completes (overlapping mem₀ programs) Caller.Idle t (mem, caller)
      (store mem k (bufSize - k) fun _ => 0,
        caller.ret (.read ubuf len offset) (.ok dataLen) dataLen) := by
  induction left : bufSize - k generalizing mem caller k with
  | zero =>
      have atEnd : ¬k < bufSize := by omega
      rw [store_zero]
      apply Completes.last
      · simp only [overlapping, Caller.step, calls, isPc, if_neg atEnd]
      · exact caller.idle_ret _ _ _
  | succ n ih =>
      have inside : k < bufSize := by omega
      refine completes_more (by simp only [Caller.step, calls, isPc, if_pos inside]; rfl)
        (by rintro ⟨⟩) ?_
      rw [← store_poke mem k n fun _ => 0]
      apply ih (k := k + 1)
      · exact calls
      · rfl
      · exact inside
      · omega

theorem step_end (calls : caller.calls = call :: rest)
    (isPc : caller.pc = .scan (strnlen mem)) :
    caller.step mem = some (mem, caller.checked call (strnlen mem)) := by
  have atEnd : ¬(strnlen mem < bufSize ∧ mem (strnlen mem) ≠ 0) := by
    rintro ⟨short, other⟩
    exact other (nul_at_strnlen short)
  simp only [Caller.step, calls, isPc, if_neg atEnd]

/-- `Mywrite` behind `copy_from_user`. -/
theorem completes_tag (calls : caller.calls = .write current ubuf len offset :: rest)
    (isPc : caller.pc = .terminate bufferLen copyLen) (inside : bufferLen < bufSize) :
    Completes (overlapping mem₀ programs) Caller.Idle t (mem, caller)
      ((scnprintf (store mem bufferLen 1 fun _ => 0) bufferLen (bufSize - bufferLen)
          current.tag).2,
        caller.ret (.write current ubuf len offset) (.ok copyLen) offset) := by
  refine completes_more (by simp only [Caller.step, calls, isPc]; rfl) (by rintro ⟨⟩) ?_
  rw [← poke_store_eq_scnprintf (by omega)]
  exact completes_print (k := 0) calls rfl (Nat.zero_le _)

theorem step_fault (calls : caller.calls = .write current ubuf len offset :: rest)
    (isPc : caller.pc = .copy bufferLen copyLen copyLen)
    (short : ubuf.copied 0 copyLen < copyLen) :
    caller.step mem =
      some (mem, caller.ret (.write current ubuf len offset) (.error .EFAULT) offset) := by
  simp only [Caller.step, calls, isPc, if_neg (Nat.lt_irrefl _), if_pos short]

theorem step_copied (calls : caller.calls = .write current ubuf len offset :: rest)
    (isPc : caller.pc = .copy bufferLen copyLen copyLen)
    (long : ¬ubuf.copied 0 copyLen < copyLen) :
    caller.step mem = some (mem, caller.goto (.terminate (bufferLen + copyLen) copyLen)) := by
  simp only [Caller.step, calls, isPc, if_neg (Nat.lt_irrefl _), if_neg long]

/-- `copy_from_user` that faults. -/
theorem completes_fault (calls : caller.calls = .write current ubuf len offset :: rest)
    (isPc : caller.pc = .copy bufferLen copyLen 0)
    (faults : (copyFromUser mem bufferLen ubuf 0 copyLen).1 ≠ 0) :
    Completes (overlapping mem₀ programs) Caller.Idle t (mem, caller)
      ((copyFromUser mem bufferLen ubuf 0 copyLen).2,
        caller.ret (.write current ubuf len offset) (.error .EFAULT) offset) := by
  have short : ubuf.copied 0 copyLen < copyLen := Nat.lt_of_sub_ne_zero faults
  apply completes_copy calls isPc (Nat.zero_le _)
  simp only [copyFromUser, Nat.zero_add, Nat.add_zero, Nat.sub_zero]
  have returns : (caller.goto (.copy bufferLen copyLen copyLen)).ret
      (.write current ubuf len offset) (.error .EFAULT) offset =
        caller.ret (.write current ubuf len offset) (.error .EFAULT) offset := rfl
  rw [← returns]
  apply Completes.last
  · exact step_fault calls rfl short
  · exact caller.idle_ret _ _ _

/-- `copy_from_user` that does not fault, and the rest of `Mywrite`. -/
theorem completes_copied (calls : caller.calls = .write current ubuf len offset :: rest)
    (isPc : caller.pc = .copy bufferLen copyLen 0) (inside : bufferLen + copyLen < bufSize)
    (all : ¬(copyFromUser mem bufferLen ubuf 0 copyLen).1 ≠ 0) :
    Completes (overlapping mem₀ programs) Caller.Idle t (mem, caller)
      ((scnprintf
          (store (copyFromUser mem bufferLen ubuf 0 copyLen).2 (bufferLen + copyLen) 1 fun _ => 0)
          (bufferLen + copyLen) (bufSize - (bufferLen + copyLen)) current.tag).2,
        caller.ret (.write current ubuf len offset) (.ok copyLen) offset) := by
  have long : ¬ubuf.copied 0 copyLen < copyLen := fun short =>
    all (Nat.sub_ne_zero_of_lt short)
  apply completes_copy calls isPc (Nat.zero_le _)
  simp only [copyFromUser, Nat.zero_add, Nat.add_zero, Nat.sub_zero]
  refine completes_more (step_copied calls rfl long) (by rintro ⟨⟩) ?_
  apply completes_tag
  · exact calls
  · rfl
  · exact inside

/-- `Mywrite` behind `strnlen`. -/
theorem completes_write (calls : caller.calls = .write current ubuf len offset :: rest)
    (isPc : caller.pc = .scan (strnlen mem)) :
    Completes (overlapping mem₀ programs) Caller.Idle t (mem, caller)
      ((mywrite current mem ubuf len).2,
        caller.ret (.write current ubuf len offset) (mywrite current mem ubuf len).1 offset) := by
  have stepped := step_end calls isPc
  simp only [Caller.checked] at stepped
  simp only [mywrite]
  split at stepped
  next full =>
    rw [if_pos full]
    exact .last stepped (caller.idle_ret _ _ _)
  next short =>
    rw [if_neg short]
    split at stepped
    next nothing =>
      rw [if_pos nothing]
      exact .last stepped (caller.idle_ret _ _ _)
    next some =>
      rw [if_neg some]
      refine completes_more stepped (by rintro ⟨⟩) ?_
      by_cases faults : (copyFromUser mem (strnlen mem) ubuf 0
          (min len (bufSize - strnlen mem - 1))).1 ≠ 0
      · rw [if_pos faults]
        exact completes_fault calls rfl faults
      · rw [if_neg faults]
        exact completes_copied calls rfl (by omega) faults

/-- Behind a call that has delivered some bytes. -/
theorem ret_eq_behind {caller' : Caller} (sameCalls : caller'.calls = caller.calls)
    (sameReturned : caller'.returned = caller.returned) (call : KernelCall)
    (result : Except Errno Nat) (offset : Nat) :
    caller'.ret call result offset =
      caller.behind ⟨call, result, caller'.delivered, offset⟩ := by
  rw [Caller.ret, Caller.behind, sameCalls, sameReturned]

/-- `copy_to_user` in a `Myread`, and what comes behind it. -/
theorem completes_delivered (calls : caller.calls = .read ubuf len offset :: rest)
    (isPc : caller.pc = .deliver dataLen 0) (none : caller.delivered = []) :
    Completes (overlapping mem₀ programs) Caller.Idle t (mem, caller)
      (if (copyToUser mem 0 ubuf 0 dataLen).1 ≠ 0 then
        (mem, caller.behind
          ⟨.read ubuf len offset, .error .EFAULT, (copyToUser mem 0 ubuf 0 dataLen).2, offset⟩)
      else
        (store mem 0 bufSize fun _ => 0, caller.behind
          ⟨.read ubuf len offset, .ok dataLen, (copyToUser mem 0 ubuf 0 dataLen).2, dataLen⟩)) := by
  apply completes_deliver calls isPc (Nat.zero_le _)
  intro caller' sameCalls isPc' delivered sameReturned
  have isCopied : (copyToUser mem 0 ubuf 0 dataLen).2 = caller'.delivered := by
    rw [delivered, none, List.nil_append, Nat.sub_zero, ← List.range_eq_range']
    simp only [copyToUser, Nat.zero_add]
  have calls' := sameCalls.trans calls
  rw [isCopied, ← ret_eq_behind sameCalls sameReturned, ← ret_eq_behind sameCalls sameReturned]
  split
  next faults =>
    have short : ubuf.copied 0 dataLen < dataLen := Nat.lt_of_sub_ne_zero faults
    apply Completes.last
    · simp only [overlapping, Caller.step, calls', isPc', if_neg (Nat.lt_irrefl _), if_pos short]
    · exact caller'.idle_ret _ _ _
  next all =>
    have long : ¬ubuf.copied 0 dataLen < dataLen := fun short =>
      all (Nat.sub_ne_zero_of_lt short)
    refine completes_more (by
      simp only [Caller.step, calls', isPc', if_neg (Nat.lt_irrefl _), if_neg long]
      rfl) (by rintro ⟨⟩) ?_
    exact completes_clear (k := 0) calls' rfl (Nat.zero_le _)

/-- `Myread` behind `strnlen`. -/
theorem completes_read (calls : caller.calls = .read ubuf len offset :: rest)
    (isPc : caller.pc = .scan (strnlen mem)) (none : caller.delivered = []) :
    Completes (overlapping mem₀ programs) Caller.Idle t (mem, caller)
      ((myread mem ubuf len offset).mem, caller.behind
        ⟨.read ubuf len offset, (myread mem ubuf len offset).result,
          (myread mem ubuf len offset).delivered, (myread mem ubuf len offset).offset⟩) := by
  have stepped := step_end calls isPc
  simp only [Caller.checked] at stepped
  simp only [myread]
  split at stepped
  next behind =>
    simp only [if_pos behind, ← none]
    exact .last stepped (caller.idle_ret _ _ _)
  next first =>
    split at stepped
    next small =>
      simp only [if_neg first, if_pos small, ← none]
      exact .last stepped (caller.idle_ret _ _ _)
    next large =>
      simp only [if_neg first, if_neg large]
      refine completes_more stepped (by rintro ⟨⟩) ?_
      have further : Completes (overlapping mem₀ programs) Caller.Idle t
          (mem, caller.goto (.deliver (strnlen mem) 0)) _ :=
        completes_delivered calls rfl none
      split
      next faults =>
        rw [if_pos faults] at further
        exact further
      next all =>
        rw [if_neg all] at further
        exact further

/-- The accesses of a call that nobody disturbs are the call. -/
theorem completes_perform (calls : caller.calls = call :: rest) (idle : caller.Idle) :
    Completes (overlapping mem₀ programs) Caller.Idle t (mem, caller)
      ((call.perform mem).1, caller.behind (call.perform mem).2) := by
  rcases idle with ⟨isPc, none⟩
  apply completes_scan calls isPc (Nat.zero_le _)
  cases call with
  | write current ubuf len offset =>
      have written : Completes (overlapping mem₀ programs) Caller.Idle t
          (mem, caller.goto (.scan (strnlen mem))) _ := completes_write calls rfl
      rw [ret_eq_behind rfl rfl] at written
      have delivered : (caller.goto (.scan (strnlen mem))).delivered = [] := none
      rw [delivered] at written
      exact written
  | read ubuf len offset => exact completes_read calls rfl none

end Accesses

/-- The callers with whole calls for steps. -/
def callwise [DecidableEq ι] (mem₀ : Mem) (programs : ι → List KernelCall) :
    System (Config ι Mem Caller) ι where
  init config := config.shared = mem₀ ∧ ∀ t, config.thread t = .start (programs t)
  step config t config' := ∃ call rest, (config.thread t).calls = call :: rest ∧
    config' = config.after t
      ((call.perform config.shared).1, (config.thread t).behind (call.perform config.shared).2)

/-! ## Runs -/

section Runs

variable {ι : Type} [DecidableEq ι] {mem₀ : Mem} {programs : ι → List KernelCall}
  {config config' : Config ι Mem Caller} {t : ι}

omit [DecidableEq ι] in
theorem calls_of_completes {state last : Mem × Caller}
    (completes : Completes (overlapping mem₀ programs) Caller.Idle t state last) :
    ∃ call rest, state.2.calls = call :: rest := by
  have moves : ∃ next, state.2.step state.1 = some next := by
    cases completes with
    | last stepped _ => exact ⟨_, stepped⟩
    | more stepped _ _ => exact ⟨_, stepped⟩
  rcases moves with ⟨next, stepped⟩
  cases calls : state.2.calls with
  | nil =>
      rw [Caller.step, calls] at stepped
      cases stepped
  | cons call rest => exact ⟨call, rest, rfl⟩

/-- Between calls, an operation is a call. -/
theorem atomic_step_iff (idle : (config.thread t).Idle) :
    ((overlapping mem₀ programs).atomic Caller.Idle).step config t config' ↔
      (callwise mem₀ programs).step config t config' := by
  constructor
  · rintro ⟨next, completes, rfl⟩
    rcases calls_of_completes completes with ⟨call, rest, calls⟩
    exact ⟨call, rest, calls, by rw [completes.unique (completes_perform calls idle)]⟩
  · rintro ⟨call, rest, calls, rfl⟩
    exact ⟨_, completes_perform calls idle, rfl⟩

omit [DecidableEq ι] in
theorem idle_of_start (config : Config ι Mem Caller)
    (start : (overlapping mem₀ programs).start config) (t : ι) : (config.thread t).Idle := by
  rw [start.2 t]
  exact ⟨rfl, rfl⟩

/-- Whole calls begin and end between calls. -/
theorem idle_of_callwise (reachable : Reachable (callwise mem₀ programs) config) (t : ι) :
    (config.thread t).Idle := by
  revert t
  apply reachable.invariant (P := fun config => ∀ t, (config.thread t).Idle)
  · exact fun config start t => idle_of_start config start t
  · rintro config t _ idle ⟨call, rest, _, rfl⟩
    exact Config.forall_after (P := fun _ thread => Caller.Idle thread) ⟨rfl, rfl⟩
      fun j _ => idle j

theorem reachable_callwise_iff_atomic :
    Reachable (callwise mem₀ programs) config ↔
      Reachable ((overlapping mem₀ programs).atomic Caller.Idle) config := by
  constructor
  · rintro ⟨events, trace⟩
    induction trace with
    | start initial => exact .start initial
    | snoc earlier stepped ih =>
        exact ih.snoc ((atomic_step_iff (idle_of_callwise ⟨_, earlier⟩ _)).mpr stepped)
  · rintro ⟨events, trace⟩
    induction trace with
    | start initial => exact .start initial
    | snoc _ stepped ih => exact ih.snoc ((atomic_step_iff (idle_of_callwise ih _)).mp stepped)

/-- Between calls that do not overlap, `buf`, what has been returned and what has been
delivered are what `mywrite` and `myread` give, call after call. -/
theorem calls_one_at_a_time (mem₀ : Mem) (programs : ι → List KernelCall)
    (config : Config ι Mem Caller) :
    Reachable (callwise mem₀ programs) config ↔
      Reachable ((overlapping mem₀ programs).system.restrict (Alone Caller.Idle)) config ∧
        ∀ t, (config.thread t).Idle := by
  rw [reachable_callwise_iff_atomic]
  exact reachable_atomic_iff fun config start t => idle_of_start config start t

end Runs

end NckuOs.ProcLog
