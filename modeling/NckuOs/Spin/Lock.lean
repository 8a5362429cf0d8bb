import Mathlib.Data.BitVec
import NckuOs.Lib.Threads

/-!
# The spin lock of `1_2.c`, instruction by instruction

Every thread runs `thread()`: a loop around `spin_lock`, `a = a + 1` and
`spin_unlock`.  A step is one instruction of the two assembly blocks, one access to
`a`, or the test of the loop.  Memory is sequentially consistent, and `xchg` with
memory is one step.
-/

namespace NckuOs.Spin

open NckuOs.Threads
open NckuOs.Transition

/-- A 32-bit register or variable. -/
abbrev Word := BitVec 32

/-- `LOCK`. -/
def LOCK : Word := 0

/-- `UNLOCK`. -/
def UNLOCK : Word := 1

/-- `lock` and `a`. -/
structure Shared where
  lock : Word
  a : Word
  deriving DecidableEq, Repr

/-- The next instruction of a thread. -/
inductive Pc
  | loopTest
  | movLock
  | xchgLock
  | subLock
  | js
  | readA
  | writeA
  | movUnlock
  | xchgUnlock
  | done
  deriving DecidableEq, Repr

/-- A thread: the loop variable, the register and the sign flag. -/
structure Thread where
  pc : Pc
  i : Nat
  eax : Word
  sf : Bool
  deriving DecidableEq, Repr

/-- The next instruction of a thread that runs the loop `count` times. -/
def threadStep (count : Nat) (shared : Shared) (t : Thread) : Option (Shared × Thread) :=
  match t.pc with
  | .loopTest => some (shared, { t with pc := if t.i < count then .movLock else .done })
  | .movLock => some (shared, { t with pc := .xchgLock, eax := 0 })
  | .xchgLock => some ({ shared with lock := t.eax }, { t with pc := .subLock, eax := shared.lock })
  | .subLock => some (shared, { t with pc := .js, eax := t.eax - 1, sf := (t.eax - 1).msb })
  | .js => some (shared, { t with pc := if t.sf then .movLock else .readA })
  | .readA => some (shared, { t with pc := .writeA, eax := shared.a })
  | .writeA => some ({ shared with a := t.eax + 1 }, { t with pc := .movUnlock })
  | .movUnlock => some (shared, { t with pc := .xchgUnlock, eax := 1 })
  | .xchgUnlock =>
      some
        ({ shared with lock := t.eax },
          { t with pc := .loopTest, eax := shared.lock, i := t.i + 1 })
  | .done => none

variable {ι : Type}

/-- The threads and how often each of them runs the loop.  Registers start with
any value. -/
def spinProgram (counts : ι → Nat) : Program ι Shared Thread where
  start config := config.shared = ⟨UNLOCK, 0⟩ ∧
    ∀ j, (config.thread j).pc = .loopTest ∧ (config.thread j).i = 0
  step j := threadStep (counts j)

/-- The configurations that some interleaving leads to. -/
abbrev SpinReachable [DecidableEq ι] (counts : ι → Nat) (config : Config ι Shared Thread) : Prop :=
  Reachable (spinProgram counts).system config

namespace Thread

/-- Between the end of `spin_lock` and the start of the `xchg` of `spin_unlock`. -/
def Critical (t : Thread) : Prop :=
  t.pc = .readA ∨ t.pc = .writeA ∨ t.pc = .movUnlock ∨ t.pc = .xchgUnlock

/-- From the `xchg` that returned `UNLOCK` to the one of `spin_unlock`. -/
def Holds (t : Thread) : Prop :=
  (t.pc = .subLock ∧ t.eax = UNLOCK) ∨ (t.pc = .js ∧ t.eax = UNLOCK - 1) ∨ t.Critical

instance (t : Thread) : Decidable t.Critical :=
  inferInstanceAs (Decidable (_ ∨ _))

instance (t : Thread) : Decidable t.Holds :=
  inferInstanceAs (Decidable (_ ∨ _))

/-- How often the thread has written `a`. -/
def increments (t : Thread) : Nat :=
  if t.pc = .movUnlock ∨ t.pc = .xchgUnlock then t.i + 1 else t.i

end Thread

end NckuOs.Spin
