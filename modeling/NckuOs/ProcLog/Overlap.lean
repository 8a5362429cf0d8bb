import NckuOs.Lib.Threads
import NckuOs.ProcLog.Log

/-!
# Calls that overlap

Nothing in `My_Kernel.c` keeps two calls apart.  Here `Mywrite` and `Myread` go byte by
byte, with any number of callers at once.
-/

namespace NckuOs.ProcLog

open NckuOs.ByteMemory
open NckuOs.Osfs (Errno UserBuf)
open NckuOs.Threads
open NckuOs.Transition

/-- The arguments of a call; `offset` is what the pointer of that name points to. -/
inductive KernelCall
  | write (current : Task) (ubuf : UserBuf) (ubufferLen offset : Nat)
  | read (ubuf : UserBuf) (bufferLen offset : Nat)

/-- Where a call is: in `strnlen`, `copy_from_user`, the assignment behind it or `scnprintf`;
in `copy_to_user` or `memset`.  `k` bytes are done. -/
inductive KernelPc
  | scan (k : Nat)
  | copy (bufferLen copyLen k : Nat)
  | terminate (bufferLen copyLen : Nat)
  | print (bufferLen copyLen k : Nat)
  | deliver (dataLen k : Nat)
  | clear (dataLen k : Nat)

/-- What a call has returned and delivered. -/
structure Returned where
  call : KernelCall
  result : Except Errno Nat
  delivered : List UInt8
  offset : Nat

/-- A thread with the calls that it still has to make. -/
structure Caller where
  calls : List KernelCall
  pc : KernelPc
  delivered : List UInt8
  returned : List Returned

namespace KernelCall

def offset : KernelCall → Nat
  | write _ _ _ offset => offset
  | read _ _ offset => offset

/-- The length of the user's buffer. -/
def length : KernelCall → Nat
  | write _ _ ubufferLen _ => ubufferLen
  | read _ bufferLen _ => bufferLen

/-- What a call brings into the buffer. -/
def bytes : KernelCall → List UInt8
  | write current ubuf ubufferLen _ => payload ubuf ubufferLen ++ current.tag
  | read .. => []

def IsRead : KernelCall → Prop
  | write .. => False
  | read .. => True

end KernelCall

/-- Write one byte. -/
def poke (mem : Mem) (a : Nat) (byte : UInt8) : Mem :=
  store mem a 1 fun _ => byte

namespace Caller

/-- Before the first of some calls. -/
def start (calls : List KernelCall) : Caller :=
  ⟨calls, .scan 0, [], []⟩

def goto (caller : Caller) (pc : KernelPc) : Caller :=
  { caller with pc := pc }

/-- `return`. -/
def ret (caller : Caller) (call : KernelCall) (result : Except Errno Nat) (offset : Nat) :
    Caller :=
  ⟨caller.calls.tail, .scan 0, [], caller.returned ++ [⟨call, result, caller.delivered, offset⟩]⟩

/-- Behind `strnlen`: the checks. -/
def checked (caller : Caller) (call : KernelCall) (length : Nat) : Caller :=
  match call with
  | .write _ _ ubufferLen offset =>
      if length ≥ bufSize then caller.ret call (.error .ENOSPC) offset
      else
        let copyLen := min ubufferLen (bufSize - length - 1)
        if copyLen = 0 then caller.ret call (.error .ENOSPC) offset
        else caller.goto (.copy length copyLen 0)
  | .read _ bufferLen offset =>
      if offset > 0 then caller.ret call (.ok 0) offset
      else if bufferLen < length then caller.ret call (.error .EINVAL) offset
      else caller.goto (.deliver length 0)

/-- One access to the buffer, or one step without.  `scnprintf` stores the characters for
which there is room, the last place included, and then the NUL. -/
def step (caller : Caller) (mem : Mem) : Option (Mem × Caller) :=
  match caller.calls with
  | [] => none
  | call :: _ =>
      match caller.pc, call with
      | .scan k, _ =>
          if k < bufSize ∧ mem k ≠ 0 then some (mem, caller.goto (.scan (k + 1)))
          else some (mem, caller.checked call k)
      | .copy bufferLen copyLen k, .write _ ubuf _ offset =>
          if k < copyLen then
            some (poke mem (bufferLen + k) (if k < ubuf.copied 0 copyLen then ubuf.byte k else 0),
              caller.goto (.copy bufferLen copyLen (k + 1)))
          else if ubuf.copied 0 copyLen < copyLen then
            some (mem, caller.ret call (.error .EFAULT) offset)
          else some (mem, caller.goto (.terminate (bufferLen + copyLen) copyLen))
      | .terminate bufferLen copyLen, .write .. =>
          some (poke mem bufferLen 0, caller.goto (.print bufferLen copyLen 0))
      | .print bufferLen copyLen k, .write current _ _ offset =>
          if k < min current.tag.length (bufSize - bufferLen) then
            some (poke mem (bufferLen + k) (current.tag.getD k 0),
              caller.goto (.print bufferLen copyLen (k + 1)))
          else some (poke mem (bufferLen + min current.tag.length (bufSize - bufferLen - 1)) 0,
            caller.ret call (.ok copyLen) offset)
      | .deliver dataLen k, .read ubuf _ offset =>
          if k < ubuf.copied 0 dataLen then
            some (mem, { caller with
              pc := .deliver dataLen (k + 1), delivered := caller.delivered ++ [mem k] })
          else if ubuf.copied 0 dataLen < dataLen then
            some (mem, caller.ret call (.error .EFAULT) offset)
          else some (mem, caller.goto (.clear dataLen 0))
      | .clear dataLen k, .read .. =>
          if k < bufSize then some (poke mem k 0, caller.goto (.clear dataLen (k + 1)))
          else some (mem, caller.ret call (.ok dataLen) dataLen)
      | _, _ => none

end Caller

variable {ι : Type} [DecidableEq ι]

/-- Any number of callers over one kernel memory. -/
def overlapping (mem₀ : Mem) (programs : ι → List KernelCall) : Program ι Mem Caller where
  start config := config.shared = mem₀ ∧ ∀ t, config.thread t = .start (programs t)
  step _ mem caller := caller.step mem

/-! ## What one step does -/

/-- What holds of a call at its place. -/
def KernelPc.Ok (call : KernelCall) (delivered : List UInt8) : KernelPc → Prop
  | .scan k => k ≤ bufSize ∧ delivered = []
  | .copy bufferLen copyLen k => ¬call.IsRead ∧ bufferLen + copyLen < bufSize ∧
      copyLen ≤ call.length ∧ k ≤ copyLen ∧ delivered = []
  | .terminate bufferLen copyLen => ¬call.IsRead ∧ bufferLen < bufSize ∧
      copyLen ≤ bufferLen ∧ copyLen ≤ call.length ∧ delivered = []
  | .print bufferLen copyLen k => bufferLen + k ≤ bufSize ∧ bufferLen < bufSize ∧
      copyLen ≤ bufferLen ∧ copyLen ≤ call.length ∧ delivered = [] ∧
      ∃ current ubuf ubufferLen offset, call = .write current ubuf ubufferLen offset ∧
        k ≤ current.tag.length
  | .deliver dataLen k => call.IsRead ∧ dataLen ≤ bufSize ∧ dataLen ≤ call.length ∧
      k ≤ dataLen ∧ delivered.length = k
  | .clear dataLen _ => call.IsRead ∧ dataLen ≤ bufSize ∧ dataLen ≤ call.length ∧
      delivered.length = dataLen

/-- No call returns or delivers more than the user's buffer or `buf` can hold. -/
structure Returned.Bounded (returned : Returned) : Prop where
  delivered : returned.delivered.length ≤ min returned.call.length bufSize
  result : ∀ n, returned.result = .ok n → n ≤ min returned.call.length bufSize ∧
    (returned.call.IsRead → returned.delivered.length = n)

/-- In `scnprintf`, with a character in the last place of the buffer. -/
def Caller.Overhangs (caller : Caller) : Prop :=
  ∃ bufferLen copyLen k, caller.pc = .print bufferLen copyLen k ∧ bufferLen + k = bufSize

/-- A byte of the present call, or the NUL. -/
def Caller.Writes (caller : Caller) (byte : UInt8) : Prop :=
  byte = 0 ∨ ∃ call ∈ caller.calls, byte ∈ call.bytes

/-- A thread in a run of its calls; what it delivers is `Supplied` by someone. -/
structure Caller.Ok (program : List KernelCall) (Supplied : UInt8 → Prop) (caller : Caller) :
    Prop where
  calls : caller.returned.map Returned.call ++ caller.calls = program
  place : ∀ call ∈ caller.calls.head?, caller.pc.Ok call caller.delivered
  supplied : ∀ byte ∈ caller.delivered, Supplied byte
  returned : ∀ returned ∈ caller.returned,
    returned.Bounded ∧ ∀ byte ∈ returned.delivered, Supplied byte

/-- What a step does to the buffer: at most one byte inside it, and the last one is not left
other than NUL. -/
structure Caller.Effect (caller : Caller) (mem mem' : Mem) (caller' : Caller) : Prop where
  stores : mem' = mem ∨ ∃ a byte, a < bufSize ∧ mem' = poke mem a byte ∧ caller.Writes byte ∧
    (a + 1 = bufSize → byte ≠ 0 → caller'.Overhangs)
  closes : caller.Overhangs → caller'.Overhangs ∨ mem' (bufSize - 1) = 0

variable {program rest : List KernelCall} {Supplied : UInt8 → Prop} {caller caller' : Caller}
  {call : KernelCall} {mem mem' : Mem} {pc : KernelPc}

theorem poke_self (mem : Mem) (a : Nat) (byte : UInt8) : poke mem a byte a = byte :=
  store_of_mem (Nat.le_refl a) (Nat.lt_succ_self a)

theorem poke_of_ne (mem : Mem) {a a' : Nat} (other : a' ≠ a) (byte : UInt8) :
    poke mem a byte a' = mem a' :=
  store_of_not_mem (by omega)

namespace Caller

theorem Ok.start (program : List KernelCall) : (start program).Ok program Supplied where
  calls := rfl
  place _ _ := ⟨Nat.zero_le _, rfl⟩
  supplied _ isMem := absurd isMem List.not_mem_nil
  returned _ isMem := absurd isMem List.not_mem_nil

theorem Ok.goto (ok : caller.Ok program Supplied) (calls : caller.calls = call :: rest)
    (place : pc.Ok call caller.delivered) : (caller.goto pc).Ok program Supplied where
  calls := ok.calls
  place other isHead := by
    have same : caller.calls.head? = some other := isHead
    rw [calls] at same
    cases same
    exact place
  supplied := ok.supplied
  returned := ok.returned

theorem Ok.ret (ok : caller.Ok program Supplied) (calls : caller.calls = call :: rest)
    {result : Except Errno Nat} {offset : Nat}
    (bounded : Returned.Bounded ⟨call, result, caller.delivered, offset⟩) :
    (caller.ret call result offset).Ok program Supplied where
  calls := by
    have before := ok.calls
    rw [calls] at before
    simp only [Caller.ret, calls, List.tail_cons, List.map_append, List.append_assoc]
    exact before
  place _ _ := ⟨Nat.zero_le _, rfl⟩
  supplied _ isMem := absurd isMem List.not_mem_nil
  returned returned isMem := by
    rcases List.mem_append.mp isMem with earlier | last
    · exact ok.returned returned earlier
    · cases List.mem_singleton.mp last
      exact ⟨bounded, ok.supplied⟩

/-- A step that leaves the memory alone. -/
theorem Effect.refl (quiet : ¬caller.Overhangs) : caller.Effect mem mem caller' where
  stores := .inl rfl
  closes overhangs := absurd overhangs quiet

/-- A store in front of the last place, or of a NUL. -/
theorem Effect.poke {a : Nat} {byte : UInt8} (quiet : ¬caller.Overhangs) (inside : a < bufSize)
    (writes : caller.Writes byte) (early : a + 1 = bufSize → byte = 0) :
    caller.Effect mem (poke mem a byte) caller' where
  stores := .inr ⟨a, byte, inside, rfl, writes, fun last other => absurd (early last) other⟩
  closes overhangs := absurd overhangs quiet

theorem not_overhangs (pc : ∀ bufferLen copyLen k, caller.pc ≠ .print bufferLen copyLen k) :
    ¬caller.Overhangs := by
  rintro ⟨bufferLen, copyLen, k, isPrint, _⟩
  exact pc bufferLen copyLen k isPrint

end Caller

/-- An error with nothing delivered. -/
theorem bounded_error (call : KernelCall) (e : Errno) (offset : Nat) :
    Returned.Bounded ⟨call, .error e, [], offset⟩ where
  delivered := Nat.zero_le _
  result _ isOk := by cases isOk

/-- The checks behind `strnlen`. -/
theorem Caller.Ok.checked (ok : caller.Ok program Supplied) (calls : caller.calls = call :: rest)
    {k : Nat} (few : k ≤ bufSize) (none : caller.delivered = []) :
    (caller.checked call k).Ok program Supplied := by
  cases call with
  | write current ubuf ubufferLen offset =>
      unfold Caller.checked
      dsimp only
      split
      next => exact ok.ret calls (none ▸ bounded_error _ _ _)
      next =>
        split
        next => exact ok.ret calls (none ▸ bounded_error _ _ _)
        next =>
          apply ok.goto calls
          refine ⟨id, ?_, Nat.min_le_left _ _, Nat.zero_le _, none⟩
          omega
  | read ubuf bufferLen offset =>
      unfold Caller.checked
      dsimp only
      split
      next =>
        apply ok.ret calls
        rw [none]
        constructor
        · exact Nat.zero_le _
        · rintro n ⟨⟩
          exact ⟨Nat.zero_le _, fun _ => rfl⟩
      next =>
        split
        next => exact ok.ret calls (none ▸ bounded_error _ _ _)
        next enough =>
          apply ok.goto calls
          refine ⟨trivial, few, Nat.le_of_not_lt enough, Nat.zero_le _, ?_⟩
          rw [none]
          rfl

/-! ### One lemma for each place -/

section Places

variable {bufferLen copyLen dataLen k : Nat}

theorem Caller.not_overhangs_of (isPc : caller.pc = pc)
    (other : ∀ bufferLen copyLen k, pc ≠ .print bufferLen copyLen k) : ¬caller.Overhangs := by
  apply Caller.not_overhangs
  intro bufferLen copyLen k isPrint
  exact other bufferLen copyLen k (isPc.symm.trans isPrint)

theorem step_scan (ok : caller.Ok program Supplied) (calls : caller.calls = call :: rest)
    (isPc : caller.pc = .scan k) (stepped : caller.step mem = some (mem', caller')) :
    caller'.Ok program Supplied ∧ caller.Effect mem mem' caller' := by
  have quiet : ¬caller.Overhangs := Caller.not_overhangs_of isPc fun _ _ _ h => by cases h
  have place := ok.place call (by rw [calls]; rfl)
  rw [isPc] at place
  rcases place with ⟨few, none⟩
  simp only [Caller.step, calls, isPc] at stepped
  split at stepped
  next more =>
    cases stepped
    exact ⟨ok.goto calls ⟨more.1, none⟩, .refl quiet⟩
  next =>
    cases stepped
    exact ⟨ok.checked calls few none, .refl quiet⟩

theorem step_copy (ok : caller.Ok program Supplied) (calls : caller.calls = call :: rest)
    (isPc : caller.pc = .copy bufferLen copyLen k)
    (stepped : caller.step mem = some (mem', caller')) :
    caller'.Ok program Supplied ∧ caller.Effect mem mem' caller' := by
  have quiet : ¬caller.Overhangs := Caller.not_overhangs_of isPc fun _ _ _ h => by cases h
  have place := ok.place call (by rw [calls]; rfl)
  rw [isPc] at place
  rcases place with ⟨isWrite, inside, within, done, none⟩
  cases call with
  | read => exact absurd trivial isWrite
  | write current ubuf ubufferLen offset =>
      simp only [Caller.step, calls, isPc] at stepped
      split at stepped
      next more =>
        cases stepped
        constructor
        · exact ok.goto calls ⟨isWrite, inside, within, more, none⟩
        · apply Caller.Effect.poke quiet (by omega)
          · split
            next =>
              right
              refine ⟨_, by rw [calls]; exact List.mem_cons_self, List.mem_append_left _ ?_⟩
              exact List.mem_map.mpr ⟨k, List.mem_range.mpr (by
                exact Nat.lt_of_lt_of_le more within), rfl⟩
            next => exact .inl rfl
          · omega
      next =>
        split at stepped
        next =>
          cases stepped
          exact ⟨ok.ret calls (none ▸ bounded_error _ _ _), .refl quiet⟩
        next =>
          cases stepped
          refine ⟨ok.goto calls ⟨isWrite, by omega, by omega, within, none⟩, .refl quiet⟩

theorem step_terminate (ok : caller.Ok program Supplied) (calls : caller.calls = call :: rest)
    (isPc : caller.pc = .terminate bufferLen copyLen)
    (stepped : caller.step mem = some (mem', caller')) :
    caller'.Ok program Supplied ∧ caller.Effect mem mem' caller' := by
  have quiet : ¬caller.Overhangs := Caller.not_overhangs_of isPc fun _ _ _ h => by cases h
  have place := ok.place call (by rw [calls]; rfl)
  rw [isPc] at place
  rcases place with ⟨isWrite, inside, fewer, within, none⟩
  cases call with
  | read => exact absurd trivial isWrite
  | write current ubuf ubufferLen offset =>
      simp only [Caller.step, calls, isPc] at stepped
      cases stepped
      constructor
      · apply ok.goto calls
        exact ⟨by omega, inside, fewer, within, none, _, _, _, _, rfl, Nat.zero_le _⟩
      · exact .poke quiet inside (.inl rfl) fun _ => rfl

/-- `scnprintf` may fill the last place, but it does not return before that is NUL again. -/
theorem step_print (ok : caller.Ok program Supplied) (calls : caller.calls = call :: rest)
    (isPc : caller.pc = .print bufferLen copyLen k)
    (stepped : caller.step mem = some (mem', caller')) :
    caller'.Ok program Supplied ∧ caller.Effect mem mem' caller' := by
  have place := ok.place call (by rw [calls]; rfl)
  rw [isPc] at place
  rcases place with ⟨upTo, inside, fewer, within, none, current, ubuf, ubufferLen, offset, rfl,
    stored⟩
  simp only [Caller.step, calls, isPc] at stepped
  split at stepped
  next more =>
    cases stepped
    have inTag : k < current.tag.length := Nat.lt_of_lt_of_le more (Nat.min_le_left _ _)
    have fits : bufferLen + k < bufSize := by omega
    have stays : ∀ last : bufferLen + k + 1 = bufSize,
        (caller.goto (.print bufferLen copyLen (k + 1))).Overhangs :=
      fun last => ⟨bufferLen, copyLen, k + 1, rfl, last⟩
    constructor
    · apply ok.goto calls
      exact ⟨fits, inside, fewer, within, none, _, _, _, _, rfl, inTag⟩
    · refine ⟨.inr ⟨_, _, fits, rfl, .inr ?_, fun last _ => stays last⟩, ?_⟩
      · refine ⟨_, by rw [calls]; exact List.mem_cons_self, List.mem_append_right _ ?_⟩
        rw [List.getD_eq_getElem _ _ inTag]
        exact List.getElem_mem inTag
      · rintro ⟨bufferLen', copyLen', k', isPrint, full⟩
        rw [isPc] at isPrint
        cases isPrint
        omega
  next =>
    cases stepped
    constructor
    · apply ok.ret calls
      rw [none]
      constructor
      · exact Nat.zero_le _
      · rintro n ⟨⟩
        exact ⟨Nat.le_min.mpr ⟨within, by omega⟩, False.elim⟩
    · refine ⟨.inr ⟨_, 0, by omega, rfl, .inl rfl, fun _ other => absurd rfl other⟩, ?_⟩
      rintro ⟨bufferLen', copyLen', k', isPrint, full⟩
      rw [isPc] at isPrint
      cases isPrint
      have last : bufferLen + min current.tag.length (bufSize - bufferLen - 1) = bufSize - 1 := by
        omega
      right
      rw [last]
      exact poke_self _ _ _

theorem step_deliver (ok : caller.Ok program Supplied) (calls : caller.calls = call :: rest)
    (isPc : caller.pc = .deliver dataLen k) (bytes : ∀ a < bufSize, Supplied (mem a))
    (stepped : caller.step mem = some (mem', caller')) :
    caller'.Ok program Supplied ∧ caller.Effect mem mem' caller' := by
  have quiet : ¬caller.Overhangs := Caller.not_overhangs_of isPc fun _ _ _ h => by cases h
  have place := ok.place call (by rw [calls]; rfl)
  rw [isPc] at place
  rcases place with ⟨isRead, inside, within, done, length⟩
  cases call with
  | write => exact isRead.elim
  | read ubuf userLen offset =>
      have few := ubuf.copied_le 0 dataLen
      simp only [Caller.step, calls, isPc] at stepped
      split at stepped
      next more =>
        cases stepped
        refine ⟨⟨calls ▸ ok.calls, ?_, ?_, ok.returned⟩, .refl quiet⟩
        · rintro _ ⟨rfl⟩
          refine ⟨isRead, inside, within, by omega, ?_⟩
          rw [List.length_append, length]
          rfl
        · intro byte isMem
          rcases List.mem_append.mp isMem with earlier | last
          · exact ok.supplied byte earlier
          · cases List.mem_singleton.mp last
            exact bytes k (by omega)
      next =>
        have bound : caller.delivered.length ≤ min userLen bufSize := by
          rw [length]
          exact done.trans (Nat.le_min.mpr ⟨within, inside⟩)
        split at stepped
        next =>
          cases stepped
          exact ⟨ok.ret calls ⟨bound, fun _ isOk => by cases isOk⟩, .refl quiet⟩
        next =>
          cases stepped
          exact ⟨ok.goto calls ⟨isRead, inside, within, by omega⟩, .refl quiet⟩

theorem step_clear (ok : caller.Ok program Supplied) (calls : caller.calls = call :: rest)
    (isPc : caller.pc = .clear dataLen k)
    (stepped : caller.step mem = some (mem', caller')) :
    caller'.Ok program Supplied ∧ caller.Effect mem mem' caller' := by
  have quiet : ¬caller.Overhangs := Caller.not_overhangs_of isPc fun _ _ _ h => by cases h
  have place := ok.place call (by rw [calls]; rfl)
  rw [isPc] at place
  rcases place with ⟨isRead, inside, within, length⟩
  have room : dataLen ≤ min call.length bufSize := Nat.le_min.mpr ⟨within, inside⟩
  cases call with
  | write => exact isRead.elim
  | read ubuf userLen offset =>
      simp only [Caller.step, calls, isPc] at stepped
      split at stepped
      next more =>
        cases stepped
        exact ⟨ok.goto calls ⟨isRead, inside, within, length⟩,
          .poke quiet more (.inl rfl) fun _ => rfl⟩
      next =>
        cases stepped
        refine ⟨ok.ret calls ⟨length.trans_le room, ?_⟩, .refl quiet⟩
        rintro n ⟨⟩
        exact ⟨room, fun _ => length⟩

/-- What a step of a call does to the buffer and to the thread. -/
theorem step_effect (ok : caller.Ok program Supplied) (bytes : ∀ a < bufSize, Supplied (mem a))
    (stepped : caller.step mem = some (mem', caller')) :
    caller'.Ok program Supplied ∧ caller.Effect mem mem' caller' := by
  cases calls : caller.calls with
  | nil =>
      rw [Caller.step, calls] at stepped
      cases stepped
  | cons call rest =>
      cases isPc : caller.pc with
      | scan k => exact step_scan ok calls isPc stepped
      | copy bufferLen copyLen k => exact step_copy ok calls isPc stepped
      | terminate bufferLen copyLen => exact step_terminate ok calls isPc stepped
      | print bufferLen copyLen k => exact step_print ok calls isPc stepped
      | deliver dataLen k => exact step_deliver ok calls isPc bytes stepped
      | clear dataLen k => exact step_clear ok calls isPc stepped

end Places

/-! ## Every run -/

/-- NUL, or a byte that some call brings. -/
def FromCalls (programs : ι → List KernelCall) (byte : UInt8) : Prop :=
  byte = 0 ∨ ∃ t, ∃ call ∈ programs t, byte ∈ call.bytes

/-- What survives calls in each other's midst. -/
structure Survives (mem₀ : Mem) (programs : ι → List KernelCall) (config : Config ι Mem Caller) :
    Prop where
  outside : ∀ a, bufSize ≤ a → config.shared a = mem₀ a
  bytes : ∀ a < bufSize, FromCalls programs (config.shared a)
  closes : config.shared (bufSize - 1) ≠ 0 → ∃ t, (config.thread t).Overhangs
  callers : ∀ t, (config.thread t).Ok (programs t) (FromCalls programs)

section Runs

variable {mem₀ : Mem} {programs : ι → List KernelCall} {config : Config ι Mem Caller} {t : ι}

theorem Survives.after (survives : Survives mem₀ programs config)
    (ok : caller'.Ok (programs t) (FromCalls programs))
    (effect : (config.thread t).Effect config.shared mem' caller') :
    Survives mem₀ programs (config.after t (mem', caller')) where
  outside a beyond := by
    change mem' a = mem₀ a
    rcases effect.stores with rfl | ⟨a', byte, inside, rfl, _⟩
    · exact survives.outside a beyond
    · rw [poke_of_ne _ (by omega)]
      exact survives.outside a beyond
  bytes a inside := by
    change FromCalls programs (mem' a)
    rcases effect.stores with rfl | ⟨a', byte, _, rfl, writes, _⟩
    · exact survives.bytes a inside
    · by_cases same : a = a'
      · subst same
        rw [poke_self]
        rcases writes with nul | ⟨call, isMem, ofCall⟩
        · exact .inl nul
        · have inProgram : call ∈ programs t := by
            rw [← (survives.callers t).calls]
            exact List.mem_append_right _ isMem
          exact .inr ⟨t, call, inProgram, ofCall⟩
      · rw [poke_of_ne _ same]
        exact survives.bytes a inside
  closes isFull := by
    change mem' (bufSize - 1) ≠ 0 at isFull
    have before : config.shared (bufSize - 1) ≠ 0 →
        ∃ t', ((config.after t (mem', caller')).thread t').Overhangs := by
      intro wasFull
      rcases survives.closes wasFull with ⟨t', overhangs⟩
      by_cases same : t' = t
      · subst same
        rcases effect.closes overhangs with still | closed
        · exact ⟨t', by rw [Config.after_self]; exact still⟩
        · exact absurd closed isFull
      · exact ⟨t', by rw [Config.after_of_ne same]; exact overhangs⟩
    rcases effect.stores with rfl | ⟨a, byte, inside, rfl, _, last⟩
    · exact before isFull
    · by_cases isLast : bufSize - 1 = a
      · rw [isLast, poke_self] at isFull
        exact ⟨t, by rw [Config.after_self]; exact last (by omega) isFull⟩
      · rw [poke_of_ne _ isLast] at isFull
        exact before isFull
  callers := Config.forall_after ok fun t' _ => survives.callers t'

/-- It holds in every interleaving of the callers' accesses. -/
theorem survives (zero : ∀ a < bufSize, mem₀ a = 0)
    (reachable : Reachable (overlapping mem₀ programs).system config) :
    Survives mem₀ programs config := by
  apply reachable.invariant (P := Survives mem₀ programs)
  · rintro config ⟨shared, thread⟩
    constructor
    · exact fun a _ => congrFun shared a
    · intro a inside
      rw [shared]
      exact .inl (zero a inside)
    · intro isFull
      rw [shared, zero _ (by decide)] at isFull
      exact absurd rfl isFull
    · intro t
      rw [thread t]
      exact .start _
  · rintro config t _ survives ⟨⟨mem', caller'⟩, stepped, rfl⟩
    rcases step_effect (survives.callers t) survives.bytes stepped with ⟨ok, effect⟩
    exact survives.after ok effect

omit [DecidableEq ι] in
theorem Survives.strnlen_lt (survives : Survives mem₀ programs config)
    (quiet : ∀ t, ¬(config.thread t).Overhangs) : strnlen config.shared < bufSize := by
  have nul : config.shared (bufSize - 1) = 0 := by
    by_contra isFull
    rcases survives.closes isFull with ⟨t, overhangs⟩
    exact quiet t overhangs
  have ends : (cstr config.shared 0 bufSize).length ≤ bufSize - 1 :=
    length_cstr_le_of_nul bufSize (by rw [Nat.zero_add]; exact nul)
  exact Nat.lt_of_le_of_lt ends (by decide)

/-- However calls overlap: nothing outside `buf` is written, `buf` ends in NUL but for a
`scnprintf` at its end, and every call that returns, in the order of its thread, has
delivered no more than there is room for, of bytes that some call brought. -/
theorem overlapping_calls_safe (zero : ∀ a < bufSize, mem₀ a = 0)
    (reachable : Reachable (overlapping mem₀ programs).system config) :
    (∀ a, bufSize ≤ a → config.shared a = mem₀ a) ∧
      (∀ a < bufSize, FromCalls programs (config.shared a)) ∧
      ((∀ t, ¬(config.thread t).Overhangs) → strnlen config.shared < bufSize) ∧
      ∀ t, (config.thread t).returned.map Returned.call ++ (config.thread t).calls =
          programs t ∧
        ∀ returned ∈ (config.thread t).returned, returned.Bounded ∧
          ∀ byte ∈ returned.delivered, FromCalls programs byte := by
  have kept := survives zero reachable
  refine ⟨kept.outside, kept.bytes, kept.strnlen_lt, fun t => ?_⟩
  exact ⟨(kept.callers t).calls, (kept.callers t).returned⟩

end Runs

/-- Two writers of a byte each. -/
def twoWriters (t : Fin 2) : List KernelCall :=
  [.write ⟨1, 1, 0⟩ ⟨fun _ => if t = 0 then 65 else 66, fun _ => 1⟩ 1 0]

/-- Both find the buffer empty; the second then writes over the first. -/
def bothAtOnce : List (Fin 2) :=
  [0, 1] ++ List.replicate 28 0 ++ List.replicate 28 1

def twoWritersStart : Config (Fin 2) Mem Caller :=
  ⟨fun _ => 0, fun t => .start (twoWriters t)⟩

theorem bothAtOnce_ends :
    ((overlapping (fun _ => 0) twoWriters).run bothAtOnce twoWritersStart).any (fun config =>
      (config.thread 0).calls.isEmpty && (config.thread 1).calls.isEmpty &&
        decide (config.shared 0 = 66 ∧ strnlen config.shared = 25)) = true := by
  decide +kernel

/-- Of two calls at once one may be lost, but the buffer stays a string. -/
theorem overlapping_calls_safe_twoWriters :
    ∃ config, Reachable (overlapping (fun _ => 0) twoWriters).system config ∧
      (config.thread 0).returned.map Returned.call = twoWriters 0 ∧
      (config.thread 1).returned.map Returned.call = twoWriters 1 ∧
      config.shared 0 = 66 ∧ strnlen config.shared = 25 := by
  rcases (Option.any_eq_true _ _).mp bothAtOnce_ends with ⟨config, ends, isEnd⟩
  simp only [Bool.and_eq_true, List.isEmpty_iff, decide_eq_true_eq] at isEnd
  rcases isEnd with ⟨⟨first, second⟩, byte, length⟩
  have started : Trace (overlapping (fun _ => 0) twoWriters).system [] twoWritersStart :=
    .start ⟨rfl, fun _ => rfl⟩
  have reachable : Reachable (overlapping (fun _ => 0) twoWriters).system config :=
    ⟨_, Program.trace_run bothAtOnce started ends⟩
  have safe := (overlapping_calls_safe (fun _ _ => rfl) reachable).2.2.2
  have firstCalls := (safe 0).1
  have secondCalls := (safe 1).1
  rw [first, List.append_nil] at firstCalls
  rw [second, List.append_nil] at secondCalls
  exact ⟨config, reachable, firstCalls, secondCalls, byte, length⟩

end NckuOs.ProcLog
