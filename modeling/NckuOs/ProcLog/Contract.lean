import NckuOs.ProcLog.Log

/-!
# Histories of the proc file

Calls of `Mywrite` and `Myread` one after another, from the loading of the module on.
-/

namespace NckuOs.ProcLog

open NckuOs.ByteMemory
open NckuOs.Transition
open NckuOs.Osfs (Errno UserBuf)

/-- A call with what it has returned.  A read starts at offset 0. -/
inductive Event
  | wrote (current : Task) (ubuf : UserBuf) (len : Nat) (result : Except Errno Nat)
  | didRead (ubuf : UserBuf) (len : Nat) (result : Except Errno Nat) (delivered : List UInt8)

/-- One call after another, with user memory that does not fault and payloads without
NUL.  The kernel's memory behind the buffer is `outside`. -/
def system (outside : Mem) : System Mem Event where
  init mem := (∀ a < bufSize, mem a = 0) ∧ ∀ a, bufSize ≤ a → mem a = outside a
  step mem event mem' :=
    match event with
    | .wrote current ubuf len result =>
        ubuf.Valid len ∧ 0 ∉ payload ubuf len ∧ mywrite current mem ubuf len = (result, mem')
    | .didRead ubuf len result delivered =>
        ubuf.Valid len ∧ ∃ offset, myread mem ubuf len 0 = ⟨result, delivered, offset, mem'⟩

/-! ## The log of a history -/

/-- Every write since the last successful read, with its tag. -/
def everyWrite : List Event → List UInt8 :=
  List.foldl (fun log event =>
    match event with
    | .wrote current ubuf len _ => log ++ payload ubuf len ++ current.tag
    | .didRead _ _ (.ok _) _ => []
    | .didRead _ _ (.error _) _ => log) []

/-- One call in the log.  A write without payload leaves no tag. -/
def record (log : List UInt8) : Event → List UInt8
  | .wrote current ubuf len _ =>
      if len = 0 then log else log ++ payload ubuf len ++ current.tag
  | .didRead _ _ (.ok _) _ => []
  | .didRead _ _ (.error _) _ => log

/-- The writes with a payload since the last successful read. -/
def logOf (events : List Event) : List UInt8 :=
  events.foldl record []

/-- What a call returns, by the log before it. -/
def Answers (log : List UInt8) : Event → Prop
  | .wrote _ _ len result =>
      result = if kept log len = 0 then .error .ENOSPC else .ok (kept log len)
  | .didRead _ len result delivered =>
      if len < (log.take (bufSize - 1)).length then result = .error .EINVAL ∧ delivered = []
      else result = .ok (log.take (bufSize - 1)).length ∧ delivered = log.take (bufSize - 1)

/-- One call: what it returns, the log afterwards, and no byte outside the buffer. -/
theorem step_log {outside mem mem' : Mem} {log : List UInt8} {event : Event}
    (holds : Holds mem log) (step : (system outside).step mem event mem') :
    Answers log event ∧ Holds mem' (record log event) ∧ ∀ a, bufSize ≤ a → mem' a = mem a := by
  cases event with
  | wrote current ubuf len result =>
      rcases step with ⟨valid, noNul, returned⟩
      by_cases keeps : kept log len = 0
      · rw [mywrite_none holds keeps] at returned
        rcases Prod.mk.inj returned with ⟨rfl, rfl⟩
        refine ⟨(if_pos keeps).symm, ?_, fun _ _ => rfl⟩
        by_cases empty : len = 0
        · simpa only [record, if_pos empty] using holds
        · have full : room log = 0 := by
            unfold kept at keeps
            omega
          rw [record, if_neg empty, List.append_assoc]
          exact holds.of_full full
      · have payloadSome : ¬len = 0 := by
          rintro rfl
          exact keeps (Nat.zero_min _)
        rcases mywrite_holds current holds valid noNul keeps with
          ⟨after, wrote, held, same⟩
        rw [wrote] at returned
        rcases Prod.mk.inj returned with ⟨rfl, rfl⟩
        refine ⟨(if_neg keeps).symm, ?_, same⟩
        rw [record, if_neg payloadSome]
        exact held
  | didRead ubuf len result delivered =>
      rcases step with ⟨valid, offset, returned⟩
      have text : (log.take (bufSize - 1)).length = strnlen mem := by
        rw [strnlen, holds]
      by_cases small : len < strnlen mem
      · rw [myread_small small] at returned
        injection returned with isError isEmpty _ isSame
        subst isError isEmpty isSame
        refine ⟨?_, holds, fun _ _ => rfl⟩
        rw [Answers, text, if_pos small]
        exact ⟨rfl, rfl⟩
      · rw [myread_large holds.strnlen_lt valid (Nat.le_of_not_lt small)] at returned
        injection returned with isOk isText _ isCleared
        subst isOk isText isCleared
        refine ⟨?_, ?_, ?_⟩
        · rw [Answers, text, if_neg small]
          exact ⟨rfl, holds⟩
        · apply holds_nil
          intro a below
          exact store_of_mem (Nat.zero_le a) (by omega)
        · intro a outside
          exact store_of_not_mem (by omega)

/-- In every history the buffer is a string that holds the first `BUFSIZE - 1` bytes of
the log, nothing outside it has changed, and the next call answers by the log. -/
theorem log_contract {outside mem : Mem} {events : List Event}
    (history : Trace (system outside) events mem) :
    cstr mem 0 bufSize = (logOf events).take (bufSize - 1) ∧
      (∃ len < bufSize, mem len = 0) ∧
      (∀ a, bufSize ≤ a → mem a = outside a) ∧
      ∀ event mem', (system outside).step mem event mem' → Answers (logOf events) event := by
  have invariant : Holds mem (logOf events) ∧ ∀ a, bufSize ≤ a → mem a = outside a := by
    induction history with
    | start initial =>
        rcases initial with ⟨zero, same⟩
        exact ⟨holds_nil zero, same⟩
    | snoc _ step ih =>
        rcases ih with ⟨holds, same⟩
        rcases step_log holds step with ⟨_, held, unchanged⟩
        constructor
        · rw [logOf, List.foldl_append]
          exact held
        · intro a outside
          rw [unchanged a outside, same a outside]
  rcases invariant with ⟨holds, same⟩
  refine ⟨holds, ⟨strnlen mem, holds.strnlen_lt, holds.nul_at_end⟩, same, ?_⟩
  intro event mem' step
  exact (step_log holds step).1

/-- A user buffer of equal characters. -/
def letters (c : UInt8) : UserBuf :=
  ⟨fun _ => c, fun _ => 2000⟩

theorem letters_valid {c : UInt8} {len : Nat} (small : len ≤ 2000) : (letters c).Valid len := by
  intro off n within
  dsimp only [letters]
  omega

set_option maxRecDepth 8000 in
/-- A write of 1030 `A` is truncated, and leaves no room for its tag; a read delivers what is
there and empties the buffer for the next write. -/
theorem log_contract_truncated :
    let current : Task := ⟨7, 8, 0⟩
    let first := mywrite current (fun _ => 0) (letters 65) 1030
    let second := myread first.2 (letters 0) 2000 0
    let third := mywrite current second.mem (letters 66) 1
    cstr first.2 0 bufSize = List.replicate 1023 65 ∧
      second.delivered = List.replicate 1023 65 ∧
      cstr third.2 0 bufSize = [66] ++ current.tag := by
  intro current first second third
  have isThird : mywrite current second.mem (letters 66) 1 = third := rfl
  clear_value third
  have isSecond : myread first.2 (letters 0) 2000 0 = second := rfl
  clear_value second
  have isFirst : mywrite current (fun _ => 0) (letters 65) 1030 = first := rfl
  clear_value first
  have start : Trace (system fun _ => 0) [] fun _ => 0 := .start ⟨fun _ _ => rfl, fun _ _ => rfl⟩
  have writeStep : (system fun _ => 0).step (fun _ => 0)
      (.wrote current (letters 65) 1030 first.1) first.2 :=
    ⟨letters_valid (by decide), by decide +kernel, isFirst⟩
  have readStep : (system fun _ => 0).step first.2
      (.didRead (letters 0) 2000 second.result second.delivered) second.mem :=
    ⟨letters_valid (by decide), second.offset, isSecond⟩
  have againStep : (system fun _ => 0).step second.mem
      (.wrote current (letters 66) 1 third.1) third.2 :=
    ⟨letters_valid (by decide), by decide +kernel, isThird⟩
  rcases log_contract (start.snoc writeStep) with ⟨text, _, _, answers⟩
  have log : (logOf ([] ++ [.wrote current (letters 65) 1030 first.1])).take (bufSize - 1) =
      List.replicate 1023 65 := by
    change ([] ++ payload (letters 65) 1030 ++ current.tag).take (bufSize - 1) = _
    decide +kernel
  have read := answers _ _ readStep
  rw [Answers, log, List.length_replicate, if_neg (by decide)] at read
  refine ⟨text.trans log, read.2, ?_⟩
  have emptied := (log_contract (((start.snoc writeStep).snoc readStep).snoc againStep)).1
  rw [emptied, read.1]
  change ([] ++ payload (letters 66) 1 ++ current.tag).take (bufSize - 1) = _
  decide +kernel

/-- A write without payload leaves no tag in the empty buffer. -/
theorem empty_write_leaves_no_tag :
    Trace (system fun _ => 0)
      [.wrote ⟨7, 8, 0⟩ ⟨fun _ => 65, fun _ => 1⟩ 0 (.error .ENOSPC)] (fun _ => 0) ∧
    cstr (fun _ => 0) 0 bufSize ≠
      (everyWrite [.wrote ⟨7, 8, 0⟩ ⟨fun _ => 65, fun _ => 1⟩ 0 (.error .ENOSPC)]).take
        (bufSize - 1) := by
  have start : Trace (system fun _ => 0) [] fun _ => 0 := .start ⟨fun _ _ => rfl, fun _ _ => rfl⟩
  have empty : Holds (fun _ => 0) [] := holds_nil fun _ _ => rfl
  have valid : UserBuf.Valid ⟨fun _ => 65, fun _ => 1⟩ 0 := by
    intro off n within
    dsimp only
    omega
  constructor
  · have step : (system fun _ => 0).step (fun _ => 0)
        (.wrote ⟨7, 8, 0⟩ ⟨fun _ => 65, fun _ => 1⟩ 0 (.error .ENOSPC)) fun _ => 0 :=
      ⟨valid, by decide, mywrite_none empty (by decide)⟩
    exact start.snoc step
  · rw [empty]
    decide

end NckuOs.ProcLog
