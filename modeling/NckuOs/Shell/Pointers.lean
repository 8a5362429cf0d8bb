import NckuOs.Lib.InPlace
import NckuOs.Shell.History

/-!
# The command structures in memory

`split_line` writes nodes, arrays and a `struct cmd` into blocks of their own, and its
arguments point into the buffer that `strtok` cuts up.  `shell` walks the list when it runs a
line and when it frees it.
-/

namespace NckuOs.Shell

open NckuOs.Blocks (Heap)

/-- A `char *`: a block, and a place in it. -/
structure CharPtr where
  block : Nat
  place : Nat

/-- `struct cmd_node` as it stands in memory. -/
structure NodeObject where
  args : Nat
  length : Nat
  inFile : Option CharPtr
  outFile : Option CharPtr
  inFd : Nat
  outFd : Nat
  next : Option Nat

/-- What a block holds when it does not hold characters. -/
inductive Object
  | cmd (head : Option Nat) (pipeNum : Nat)
  | node (node : NodeObject)
  | args (slots : List (Option CharPtr))

/-- The blocks of characters and the others. -/
structure Memory where
  heap : Heap
  objects : Nat → Option Object

/-- A string to which a pointer points. -/
def stringOf (heap : Heap) (pointer : CharPtr) : Option Str :=
  (heap pointer.block).bind fun bytes => InPlace.stringAt bytes pointer.place

namespace Memory

/-- A block that `malloc` may give. -/
def Unused (memory : Memory) (block : Nat) : Prop :=
  memory.heap block = none ∧ memory.objects block = none

/-- Write an object. -/
def put (memory : Memory) (block : Nat) (object : Object) : Memory :=
  { memory with objects := Function.update memory.objects block (some object) }

/-- `malloc` of a block for an object, and its first assignments. -/
def malloc (memory : Memory) (block : Nat) (object : Object) : Option Memory :=
  if (memory.heap block).isNone ∧ (memory.objects block).isNone then
    some (memory.put block object)
  else none

/-- `free` of an object; what is not allocated must not be freed. -/
def freeObject (memory : Memory) (block : Nat) : Option Memory :=
  (memory.objects block).map fun _ =>
    { memory with objects := Function.update memory.objects block none }

/-- `free` of a block of characters. -/
def freeChars (memory : Memory) (block : Nat) : Option Memory :=
  (memory.heap block).map fun _ => { memory with heap := memory.heap.free block }

/-- Follow a `struct cmd *`. -/
def cmd? (memory : Memory) (block : Nat) : Option (Option Nat × Nat) :=
  match memory.objects block with
  | some (.cmd head pipeNum) => some (head, pipeNum)
  | _ => none

/-- Follow a `struct cmd_node *`. -/
def node? (memory : Memory) (block : Nat) : Option NodeObject :=
  match memory.objects block with
  | some (.node node) => some node
  | _ => none

/-- Follow a `char **`. -/
def args? (memory : Memory) (block : Nat) : Option (List (Option CharPtr)) :=
  match memory.objects block with
  | some (.args slots) => some slots
  | _ => none

/-- Change a node. -/
def modify (memory : Memory) (block : Nat) (change : NodeObject → NodeObject) : Option Memory :=
  (memory.node? block).map fun node => memory.put block (.node (change node))

/-- `strtok(NULL, " ")` with the static pointer in block `line`. -/
def strtok (memory : Memory) (line saved : Nat) : Option (Memory × Option Nat × Nat) := do
  let bytes ← memory.heap line
  let (bytes, token, saved) ← InPlace.strtok space bytes saved
  some ({ memory with heap := Function.update memory.heap line (some bytes) }, token, saved)

/-- A node and its array of arguments, all `NULL`, in the next two blocks of `malloc`. -/
def newNode (memory : Memory) (supply : Nat → Nat) (taken : Nat) : Option Memory := do
  let memory ← memory.malloc (supply taken) (.node ⟨supply (taken + 1), 0, none, none, 0, 1, none⟩)
  memory.malloc (supply (taken + 1)) (.args (List.replicate argsLength none))

end Memory

/-! ## `split_line` -/

/-- The variables of the loop of `split_line`: how many blocks `malloc` has given, `temp`, the
static pointer of `strtok`, and `token`. -/
structure Splitting where
  memory : Memory
  taken : Nat
  temp : Nat
  saved : Nat
  token : Option Nat

namespace Splitting

/-- `token = strtok(NULL, " ")`. -/
def advance (state : Splitting) (line : Nat) : Option Splitting :=
  (state.memory.strtok line state.saved).map fun (memory, token, saved) =>
    { state with memory := memory, token := token, saved := saved }

/-- The branch of `|`. -/
def pipe (state : Splitting) (supply : Nat → Nat) : Option Splitting := do
  let memory ← state.memory.newNode supply state.taken
  let memory ← memory.modify state.temp fun node => { node with next := some (supply state.taken) }
  some { state with memory := memory, taken := state.taken + 2, temp := supply state.taken }

/-- The branch of `<`. -/
def inFile (state : Splitting) (line : Nat) : Option Splitting := do
  let state ← state.advance line
  let memory ← state.memory.modify state.temp fun node =>
    { node with inFile := state.token.map (CharPtr.mk line) }
  some { state with memory := memory }

/-- The branch of `>`. -/
def outFile (state : Splitting) (line : Nat) : Option Splitting := do
  let state ← state.advance line
  let memory ← state.memory.modify state.temp fun node =>
    { node with outFile := state.token.map (CharPtr.mk line) }
  some { state with memory := memory }

/-- `temp->args[temp->length] = token; temp->length++`. -/
def pushArg (state : Splitting) (token : CharPtr) : Option Splitting := do
  let node ← state.memory.node? state.temp
  let slots ← state.memory.args? node.args
  if node.length < slots.length then do
    let memory := state.memory.put node.args (.args (slots.set node.length (some token)))
    let memory ← memory.modify state.temp fun node => { node with length := node.length + 1 }
    some { state with memory := memory }
  else none

/-- `new_cmd->pipe_num++`. -/
def count (state : Splitting) (cmd : Nat) : Option Splitting := do
  let (head, pipeNum) ← state.memory.cmd? cmd
  some { state with memory := state.memory.put cmd (.cmd head (pipeNum + 1)) }

/-- The branches of the loop, for the first character of a token. -/
def branch (state : Splitting) (supply : Nat → Nat) (line token : Nat) (first : UInt8) :
    Option Splitting :=
  if first = bar then state.pipe supply
  else if first = less then state.inFile line
  else if first = greater then state.outFile line
  else state.pushArg ⟨line, token⟩

/-- The body of the loop, for a token. -/
def round (state : Splitting) (supply : Nat → Nat) (line token : Nat) : Option Splitting := do
  let bytes ← state.memory.heap line
  let first ← bytes[token]?
  let state ← state.branch supply line token first
  let state ← state.advance line
  state.count (supply 0)

end Splitting

/-- The loop of `split_line`, for at most `fuel` tokens. -/
def splitRounds (supply : Nat → Nat) (line : Nat) : Nat → Splitting → Option Splitting
  | 0, _ => none
  | fuel + 1, state =>
      match state.token with
      | none => some state
      | some token => (state.round supply line token).bind (splitRounds supply line fuel)

/-- `split_line` on the string in block `line`, with the blocks that `malloc` gives.  Every token
takes a character. -/
def splitIn (supply : Nat → Nat) (line : Nat) (memory : Memory) : Option (Memory × Nat) := do
  let bytes ← memory.heap line
  let memory ← memory.malloc (supply 0) (.cmd (some (supply 1)) 0)
  let memory ← memory.newNode supply 1
  let (memory, token, saved) ← memory.strtok line 0
  let state ← splitRounds supply line (bytes.length + 1) ⟨memory, 3, supply 1, saved, token⟩
  some (state.memory, supply 0)

/-! ## `fork_cmd_node` and the end of the loop of `shell` -/

/-- What `fork_cmd_node` writes on its way along the list: the ends of the pipes, `pipe` by
`pipe`. -/
def forkIn (fds : Nat → Nat × Nat) : Nat → Nat → Option Nat → Memory → Option Memory
  | 0, _, _, _ => none
  | _ + 1, _, none, memory => some memory
  | fuel + 1, k, some p, memory => do
      let node ← memory.node? p
      match node.next with
      | none => some memory
      | some next => do
          let memory ← memory.modify p fun node => { node with outFd := (fds k).2 }
          let memory ← memory.modify next fun node => { node with inFd := (fds k).1 }
          forkIn fds fuel (k + 1) (some next) memory

/-- `while (cmd->head)`: take the first node off the list and free it. -/
def freeNodes (cmd : Nat) : Nat → Memory → Option Memory
  | 0, _ => none
  | fuel + 1, memory => do
      let (head, pipeNum) ← memory.cmd? cmd
      match head with
      | none => some memory
      | some p => do
          let node ← memory.node? p
          let memory := memory.put cmd (.cmd node.next pipeNum)
          let memory ← memory.freeObject node.args
          let memory ← memory.freeObject p
          freeNodes cmd fuel memory

/-- The end of the loop of `shell`. -/
def freeLine (fuel cmd buffer : Nat) (memory : Memory) : Option Memory := do
  let memory ← freeNodes cmd fuel memory
  let memory ← memory.freeObject cmd
  memory.freeChars buffer

end NckuOs.Shell
