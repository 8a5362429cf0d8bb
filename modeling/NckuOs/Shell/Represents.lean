import Mathlib.Data.List.Forall2
import NckuOs.Shell.Pointers

/-!
# `split_line` builds the nodes of the line

The blocks hold the nodes that `splitLine` gives, linked in their order, and every argument
points to its token in the buffer.
-/

namespace NckuOs.Shell

open NckuOs.Blocks (Heap)
open NckuOs.Blocks.Heap (SameBut)
open NckuOs.InPlace (Call Held)
open NckuOs.Words (words)

/-- The block of a node, and that of its array. -/
def nodeBlock (supply : Nat → Nat) (i : Nat) : Nat :=
  supply (2 * i + 1)

@[inherit_doc nodeBlock]
def argsBlock (supply : Nat → Nat) (i : Nat) : Nat :=
  supply (2 * i + 2)

/-- An object stands for the `i`-th node when its pointers show what the node says. -/
structure Stands (supply : Nat → Nat) (Shows : CharPtr → Str → Prop) (i : Nat)
    (object : NodeObject) (node : CmdNode) : Prop where
  args : object.args = argsBlock supply i
  length : object.length = node.length
  inFile : Option.Rel Shows object.inFile node.inFile
  outFile : Option.Rel Shows object.outFile node.outFile
  inFd : object.inFd = node.inFd
  outFd : object.outFd = node.outFd
  next : object.next = node.next.map (nodeBlock supply)

/-- The `i`-th node in memory, with its array. -/
def NodeAt (supply : Nat → Nat) (Shows : CharPtr → Str → Prop) (objects : Nat → Option Object)
    (i : Nat) (node : CmdNode) : Prop :=
  ∃ object slots,
    objects (nodeBlock supply i) = some (.node object) ∧ Stands supply Shows i object node ∧
    objects (argsBlock supply i) = some (.args slots) ∧
    List.Forall₂ (Option.Rel Shows) slots node.args

/-- The objects of a line, in the blocks that `malloc` has given for them, and nothing else that
is new. -/
structure Built (supply : Nat → Nat) (before : Nat → Option Object)
    (Shows : CharPtr → Str → Prop) (objects : Nat → Option Object) (nodes : List CmdNode)
    (pipeNum : Nat) : Prop where
  cmd : objects (supply 0) = some (.cmd (some (nodeBlock supply 0)) pipeNum)
  each : ∀ i node, nodes[i]? = some node → NodeAt supply Shows objects i node
  others : ∀ block, (∀ i ≤ 2 * nodes.length, block ≠ supply i) → objects block = before block

/-- A pointer to a word in the buffer. -/
def ShowsIn (line : Nat) (front text : List UInt8) (pointer : CharPtr) (word : Str) : Prop :=
  pointer.block = line ∧ Held front text pointer.place word

/-- What `malloc` gives has not been given before, and is not in use. -/
structure Fresh (supply : Nat → Nat) (memory : Memory) : Prop where
  injective : Function.Injective supply
  unused : ∀ i, memory.Unused (supply i)

/-- The loop of `split_line`, with `front` behind it and `text` in front of it. -/
structure LoopAt (supply : Nat → Nat) (line : Nat) (before : Memory) (tail front text : List UInt8)
    (state : Splitting) (parse : Parse) : Prop where
  content : state.memory.heap line = some (front ++ (text ++ 0 :: tail))
  noNul : 0 ∉ text
  saved : state.saved = front.length
  chars : SameBut line before.heap state.memory.heap
  built : Built supply before.objects (ShowsIn line front text) state.memory.objects parse.nodes
    parse.pipeNum
  taken : state.taken = 2 * parse.nodes.length + 1
  temp : state.temp = nodeBlock supply parse.temp
  inside : parse.temp < parse.nodes.length

/-! ## Objects -/

section Objects

variable {supply : Nat → Nat} {before objects objects' : Nat → Option Object}
  {Shows Shows' : CharPtr → Str → Prop} {nodes : List CmdNode} {pipeNum i : Nat} {node : CmdNode}

theorem rel_mono (more : ∀ pointer word, Shows pointer word → Shows' pointer word)
    {pointer : Option CharPtr} {word : Option Str} (shown : Option.Rel Shows pointer word) :
    Option.Rel Shows' pointer word := by
  cases shown with
  | some one => exact .some (more _ _ one)
  | none => exact .none

theorem NodeAt.mono (more : ∀ pointer word, Shows pointer word → Shows' pointer word)
    (nodeAt : NodeAt supply Shows objects i node) : NodeAt supply Shows' objects i node := by
  rcases nodeAt with ⟨object, slots, isNode, stands, isArgs, args⟩
  refine ⟨object, slots, isNode, ?_, isArgs, args.imp fun _ _ shown => rel_mono more shown⟩
  exact ⟨stands.args, stands.length, rel_mono more stands.inFile, rel_mono more stands.outFile,
    stands.inFd, stands.outFd, stands.next⟩

theorem NodeAt.congr (sameNode : objects' (nodeBlock supply i) = objects (nodeBlock supply i))
    (sameArgs : objects' (argsBlock supply i) = objects (argsBlock supply i))
    (nodeAt : NodeAt supply Shows objects i node) : NodeAt supply Shows objects' i node := by
  rcases nodeAt with ⟨object, slots, isNode, stands, isArgs, args⟩
  exact ⟨object, slots, sameNode.trans isNode, stands, sameArgs.trans isArgs, args⟩

theorem Built.mono (more : ∀ pointer word, Shows pointer word → Shows' pointer word)
    (built : Built supply before Shows objects nodes pipeNum) :
    Built supply before Shows' objects nodes pipeNum where
  cmd := built.cmd
  each i node at_ := (built.each i node at_).mono more
  others := built.others

/-- Other blocks are other places of the supply. -/
theorem update_supply (injective : Function.Injective supply) {j k : Nat} (other : j ≠ k)
    (object : Option Object) : Function.update objects (supply k) object (supply j) =
      objects (supply j) :=
  Function.update_of_ne (fun same => other (injective same)) _ _

/-- `pipe_num++`. -/
theorem Built.count (injective : Function.Injective supply)
    (built : Built supply before Shows objects nodes pipeNum) :
    Built supply before Shows (Function.update objects (supply 0)
      (some (.cmd (some (nodeBlock supply 0)) (pipeNum + 1)))) nodes (pipeNum + 1) where
  cmd := Function.update_self ..
  each i node at_ := by
    apply (built.each i node at_).congr
    · exact update_supply injective (by omega) _
    · exact update_supply injective (by omega) _
  others block apart := by
    rw [Function.update_of_ne (apart 0 (Nat.zero_le _))]
    exact built.others block apart

theorem supply_ne (injective : Function.Injective supply) {j k : Nat} (other : j ≠ k) :
    supply j ≠ supply k :=
  fun same => other (injective same)

/-- One node is changed. -/
theorem Built.change (injective : Function.Injective supply)
    (built : Built supply before Shows objects nodes pipeNum) (at_ : nodes[i]? = some node)
    (same : ∀ block, block ≠ nodeBlock supply i → block ≠ argsBlock supply i →
      objects' block = objects block)
    (change : CmdNode → CmdNode) (nodeAt : NodeAt supply Shows objects' i (change node)) :
    Built supply before Shows objects' (nodes.modify i change) pipeNum where
  cmd := (same _ (supply_ne injective (by omega)) (supply_ne injective (by omega))).trans built.cmd
  each j other at' := by
    rw [List.getElem?_modify] at at'
    by_cases isOwn : i = j
    · subst isOwn
      rw [at_] at at'
      simp only [Option.map_eq_map, Option.map_some, if_true] at at'
      cases at'
      exact nodeAt
    · simp only [if_neg isOwn, Option.map_eq_map, Option.map_id'] at at'
      apply (built.each j other at').congr
      · exact same _ (supply_ne injective (by omega)) (supply_ne injective (by omega))
      · exact same _ (supply_ne injective (by omega)) (supply_ne injective (by omega))
  others block apart := by
    rw [List.length_modify] at apart
    have inside : i < nodes.length := (List.getElem?_eq_some_iff.mp at_).1
    rw [same block (apart _ (by omega)) (apart _ (by omega))]
    exact built.others block apart

theorem put_self (memory : Memory) (block : Nat) (object : Object) :
    (memory.put block object).objects block = some object :=
  Function.update_self ..

theorem put_of_ne {memory : Memory} {block other : Nat} (ne : other ≠ block) {object : Object} :
    (memory.put block object).objects other = memory.objects other :=
  Function.update_of_ne ne _ _

theorem node?_put_of_ne {memory : Memory} {block other : Nat} (ne : other ≠ block)
    (object : Object) : (memory.put block object).node? other = memory.node? other := by
  simp only [Memory.node?, put_of_ne ne]

theorem modify_of_node {memory : Memory} {block : Nat} {object : NodeObject}
    (isNode : memory.node? block = some object) (change : NodeObject → NodeObject) :
    memory.modify block change = some (memory.put block (.node (change object))) := by
  rw [Memory.modify, isNode, Option.map_some]

theorem node?_of_objects {memory : Memory} {block : Nat} {object : NodeObject}
    (isNode : memory.objects block = some (.node object)) : memory.node? block = some object := by
  rw [Memory.node?, isNode]

/-- A change of a node's fields. -/
theorem Built.modify (injective : Function.Injective supply) (heap : Heap)
    (built : Built supply before Shows objects nodes pipeNum) (at_ : nodes[i]? = some node)
    (change : NodeObject → NodeObject) (change' : CmdNode → CmdNode)
    (stands : ∀ object, Stands supply Shows i object node →
      Stands supply Shows i (change object) (change' node))
    (args : (change' node).args = node.args) :
    ∃ objects', Memory.modify ⟨heap, objects⟩ (nodeBlock supply i) change =
        some ⟨heap, objects'⟩ ∧
      Built supply before Shows objects' (nodes.modify i change') pipeNum := by
  rcases built.each i node at_ with ⟨object, slots, isNode, stood, isArgs, shown⟩
  have isObject : Memory.node? ⟨heap, objects⟩ (nodeBlock supply i) = some object :=
    node?_of_objects isNode
  have done := modify_of_node isObject change
  refine ⟨_, done, built.change injective at_ ?_ change' ?_⟩
  · exact fun block notNode _ => Function.update_of_ne notNode _ _
  · refine ⟨change object, slots, Function.update_self .., stands object stood, ?_, args ▸ shown⟩
    rw [← isArgs]
    exact update_supply injective (by omega) _

/-- A further node. -/
theorem Built.append (injective : Function.Injective supply)
    (built : Built supply before Shows objects nodes pipeNum)
    (same : ∀ block, block ≠ nodeBlock supply nodes.length → block ≠ argsBlock supply nodes.length →
      objects' block = objects block)
    (nodeAt : NodeAt supply Shows objects' nodes.length node) :
    Built supply before Shows objects' (nodes ++ [node]) pipeNum where
  cmd := (same _ (supply_ne injective (by omega)) (supply_ne injective (by omega))).trans built.cmd
  each j other at' := by
    by_cases earlier : j < nodes.length
    · rw [List.getElem?_append_left earlier] at at'
      apply (built.each j other at').congr
      · exact same _ (supply_ne injective (by omega)) (supply_ne injective (by omega))
      · exact same _ (supply_ne injective (by omega)) (supply_ne injective (by omega))
    · have isLast : j = nodes.length := by
        have inside := (List.getElem?_eq_some_iff.mp at').1
        rw [List.length_append, List.length_singleton] at inside
        omega
      subst isLast
      rw [List.getElem?_append_right (Nat.le_refl _), Nat.sub_self] at at'
      cases at'
      exact nodeAt
  others block apart := by
    rw [List.length_append, List.length_singleton] at apart
    rw [same block (apart _ (by omega)) (apart _ (by omega))]
    exact built.others block fun k small => apart k (by omega)

end Objects

/-! ## `strtok` -/

theorem cutWords_gap (gap : Nat) (rest : List UInt8) :
    cutWords false (List.replicate gap space ++ rest) =
      List.replicate gap space ++ cutWords false rest := by
  induction gap with
  | zero => rfl
  | succ gap ih =>
      rw [List.replicate_succ, List.cons_append, cutWords, if_neg (by decide), if_pos rfl, ih]
      rfl

theorem cutWords_word {word : Str} (noSpace : space ∉ word) (noNul : 0 ∉ word)
    (nonempty : word ≠ []) (inWord : Bool) (rest : List UInt8) :
    cutWords inWord (word ++ rest) = word ++ cutWords true rest := by
  induction word generalizing inWord with
  | nil => exact absurd rfl nonempty
  | cons c word ih =>
      have notNul : ¬c = 0 := by
        rintro rfl
        exact noNul List.mem_cons_self
      have notSpace : ¬c = space := by
        rintro rfl
        exact noSpace List.mem_cons_self
      rw [List.cons_append, cutWords, if_neg notNul, if_neg notSpace, List.cons_append]
      by_cases isLast : word = []
      · subst isLast
        rfl
      · rw [ih (fun isMem => noSpace (List.mem_cons_of_mem c isMem))
          (fun isMem => noNul (List.mem_cons_of_mem c isMem)) isLast]

/-- The calls of `strtok` cut up the buffer as `cutWords` does. -/
theorem cutWords_call {front text front' text' : List UInt8} {token : Option Nat}
    (call : Call space front text front' text' token) (tail : List UInt8) :
    front' ++ cutWords false (text' ++ 0 :: tail) =
      front ++ cutWords false (text ++ 0 :: tail) := by
  cases call with
  | nothing gap => rw [cutWords_gap, List.nil_append, List.append_assoc]
  | last gap nonempty noDelim noNul =>
      simp only [List.append_assoc, List.nil_append]
      rw [cutWords_gap, cutWords_word noDelim noNul nonempty]
      simp only [cutWords, if_true]
  | cons gap nonempty noDelim noNul _ =>
      have ends (rest : List UInt8) : cutWords true (space :: rest) = 0 :: cutWords false rest :=
        rfl
      simp only [List.append_assoc, List.cons_append, List.nil_append]
      rw [cutWords_gap, cutWords_word noDelim noNul nonempty, ends]

/-- The token that the loop has in hand, and those that are left. -/
def Current (front text : List UInt8) (token : Option Nat) (tokens : List Str) : Prop :=
  (token = none ∧ tokens = [] ∧ text = []) ∨
    ∃ place word, token = some place ∧ tokens = word :: words space text ∧ word ≠ [] ∧
      Held front text place word

section Loop

variable {supply : Nat → Nat} {line : Nat} {before : Memory} {tail front text : List UInt8}
  {state : Splitting} {parse : Parse}

/-- `strtok` goes on to the next token. -/
theorem LoopAt.advance (loop : LoopAt supply line before tail front text state parse) :
    ∃ front' text' state', state.advance line = some state' ∧
      LoopAt supply line before tail front' text' state' parse ∧
      (∀ place word, Held front text place word → Held front' text' place word) ∧
      Current front' text' state'.token (words space text) ∧
      front' ++ cutWords false (text' ++ 0 :: tail) =
        front ++ cutWords false (text ++ 0 :: tail) := by
  rcases InPlace.exists_call space front loop.noNul with ⟨front', text', token, call⟩
  rcases call.words loop.noNul with ⟨noNul, found⟩
  have called := InPlace.strtok_call (by decide) call tail
  have advanced : state.advance line = some ⟨⟨Function.update state.memory.heap line
      (some (front' ++ (text' ++ 0 :: tail))), state.memory.objects⟩, state.taken, state.temp,
      front'.length, token⟩ := by
    simp only [Splitting.advance, Memory.strtok, loop.content, loop.saved, Option.bind_eq_bind,
      Option.bind_some, called, Option.map_some]
  refine ⟨front', text', _, advanced, ?_, fun _ _ held => held.call call, ?_,
    cutWords_call call tail⟩
  · constructor
    · exact Function.update_self ..
    · exact noNul
    · rfl
    · intro other ne
      exact (Function.update_of_ne ne _ _).trans (loop.chars other ne)
    · exact loop.built.mono fun _ _ shown => ⟨shown.1, shown.2.call call⟩
    · exact loop.taken
    · exact loop.temp
    · exact loop.inside
  · rcases found with ⟨none, nothing, ends⟩ | ⟨place, word, isToken, isWord, nonempty, held⟩
    · exact .inl ⟨none, nothing, ends⟩
    · exact .inr ⟨place, word, isToken, isWord, nonempty, held⟩

theorem LoopAt.at_temp (loop : LoopAt supply line before tail front text state parse) :
    ∃ node, parse.nodes[parse.temp]? = some node :=
  ⟨_, List.getElem?_eq_getElem loop.inside⟩

/-- The objects change, and the buffer does not. -/
theorem LoopAt.with_objects (loop : LoopAt supply line before tail front text state parse)
    {objects : Nat → Option Object} {parse' : Parse}
    (built : Built supply before.objects (ShowsIn line front text) objects parse'.nodes
      parse'.pipeNum) {taken temp : Nat} (isTaken : taken = 2 * parse'.nodes.length + 1)
    (isTemp : temp = nodeBlock supply parse'.temp) (inside : parse'.temp < parse'.nodes.length) :
    LoopAt supply line before tail front text
      ⟨⟨state.memory.heap, objects⟩, taken, temp, state.saved, state.token⟩ parse' :=
  ⟨loop.content, loop.noNul, loop.saved, loop.chars, built, isTaken, isTemp, inside⟩

/-- `pipe_num++`. -/
theorem LoopAt.count (injective : Function.Injective supply)
    (loop : LoopAt supply line before tail front text state parse) :
    ∃ state', state.count (supply 0) = some state' ∧ state'.token = state.token ∧
      LoopAt supply line before tail front text state' parse.count := by
  have counted : state.count (supply 0) = some ⟨⟨state.memory.heap,
      Function.update state.memory.objects (supply 0)
        (some (.cmd (some (nodeBlock supply 0)) (parse.pipeNum + 1)))⟩,
      state.taken, state.temp, state.saved, state.token⟩ := by
    simp only [Splitting.count, Memory.cmd?, loop.built.cmd, Option.bind_eq_bind,
      Option.bind_some, Memory.put]
  refine ⟨_, counted, rfl, ?_⟩
  exact loop.with_objects (loop.built.count injective) loop.taken loop.temp loop.inside

/-- A change of the fields of the node `temp`. -/
theorem LoopAt.modify (injective : Function.Injective supply)
    (loop : LoopAt supply line before tail front text state parse)
    (change : NodeObject → NodeObject) (change' : CmdNode → CmdNode)
    (stands : ∀ object node, Stands supply (ShowsIn line front text) parse.temp object node →
      Stands supply (ShowsIn line front text) parse.temp (change object) (change' node))
    (args : ∀ node, (change' node).args = node.args) :
    ∃ memory, state.memory.modify state.temp change = some memory ∧
      LoopAt supply line before tail front text { state with memory := memory }
        (parse.update change') := by
  rcases loop.at_temp with ⟨node, at_⟩
  rcases loop.built.modify injective state.memory.heap at_ change change'
    (fun object => stands object node) (args node) with ⟨objects, done, built⟩
  rw [← loop.temp] at done
  refine ⟨_, done, loop.with_objects built ?_ loop.temp ?_⟩
  · rw [Parse.update, List.length_modify]
    exact loop.taken
  · rw [Parse.update, List.length_modify]
    exact loop.inside

/-- What `malloc` has not given yet is still unused. -/
theorem LoopAt.unused (fresh : Fresh supply before) (apart : ∀ i, supply i ≠ line)
    (loop : LoopAt supply line before tail front text state parse) {j : Nat}
    (later : 2 * parse.nodes.length < j) : state.memory.Unused (supply j) := by
  constructor
  · rw [loop.chars _ (apart j)]
    exact (fresh.unused j).1
  · rw [loop.built.others]
    · exact (fresh.unused j).2
    · exact fun i small => supply_ne fresh.injective (by omega)

/-- The objects with a fresh node. -/
def withNode (supply : Nat → Nat) (i : Nat) (objects : Nat → Option Object) :
    Nat → Option Object :=
  Function.update (Function.update objects (nodeBlock supply i)
      (some (.node ⟨argsBlock supply i, 0, none, none, 0, 1, none⟩)))
    (argsBlock supply i) (some (.args (List.replicate argsLength none)))

theorem malloc_of_unused {memory : Memory} {block : Nat} (unused : memory.Unused block)
    (object : Object) : memory.malloc block object = some (memory.put block object) := by
  rw [Memory.malloc, unused.1, unused.2]
  rfl

theorem unused_put {memory : Memory} {block other : Nat} (ne : other ≠ block)
    (unused : memory.Unused other) (object : Object) : (memory.put block object).Unused other :=
  ⟨unused.1, (Function.update_of_ne ne _ _).trans unused.2⟩

theorem newNode_of_unused {memory : Memory} {i : Nat} (injective : Function.Injective supply)
    (node : memory.Unused (nodeBlock supply i)) (args : memory.Unused (argsBlock supply i)) :
    memory.newNode supply (2 * i + 1) = some ⟨memory.heap, withNode supply i memory.objects⟩ := by
  have other : argsBlock supply i ≠ nodeBlock supply i := supply_ne injective (by omega)
  rw [Memory.newNode]
  change (memory.malloc (nodeBlock supply i) _).bind (fun memory =>
    memory.malloc (argsBlock supply i) _) = _
  rw [malloc_of_unused node, Option.bind_some, malloc_of_unused (unused_put other args _)]
  rfl

theorem nodeAt_withNode {Shows : CharPtr → Str → Prop} {i : Nat}
    (injective : Function.Injective supply) (objects : Nat → Option Object) :
    NodeAt supply Shows (withNode supply i objects) i .fresh := by
  refine ⟨⟨argsBlock supply i, 0, none, none, 0, 1, none⟩, List.replicate argsLength none, ?_,
    ⟨rfl, rfl, .none, .none, rfl, rfl, rfl⟩, Function.update_self .., ?_⟩
  · have other : nodeBlock supply i ≠ argsBlock supply i := supply_ne injective (by omega)
    rw [withNode, Function.update_of_ne other, Function.update_self]
  · rw [List.forall₂_iff_get]
    simp [CmdNode.fresh]

theorem modify_append_of_lt {α : Type} {front : List α} {i : Nat} (inside : i < front.length)
    (change : α → α) (behind : List α) :
    (front ++ behind).modify i change = front.modify i change ++ behind := by
  induction front generalizing i with
  | nil => cases inside
  | cons first front ih =>
      cases i with
      | zero => rfl
      | succ i =>
          rw [List.cons_append, List.modify_succ_cons, List.modify_succ_cons, List.cons_append,
            ih (Nat.lt_of_succ_lt_succ inside)]

/-- A `|`: the new node is linked behind the old one. -/
theorem LoopAt.pipe (fresh : Fresh supply before) (apart : ∀ i, supply i ≠ line)
    (loop : LoopAt supply line before tail front text state parse) :
    ∃ state', state.pipe supply = some state' ∧ 
      LoopAt supply line before tail front text state' parse.pipe := by
  rcases loop.at_temp with ⟨node, at_⟩
  have made : state.memory.newNode supply state.taken =
      some ⟨state.memory.heap, withNode supply parse.nodes.length state.memory.objects⟩ := by
    rw [loop.taken]
    exact newNode_of_unused fresh.injective (loop.unused fresh apart (by omega))
      (loop.unused fresh apart (by omega))
  have appended : Built supply before.objects (ShowsIn line front text)
      (withNode supply parse.nodes.length state.memory.objects) (parse.nodes ++ [CmdNode.fresh])
      parse.pipeNum := by
    apply loop.built.append fresh.injective
    · intro block notNode notArgs
      rw [withNode, Function.update_of_ne notArgs, Function.update_of_ne notNode]
    · exact nodeAt_withNode fresh.injective _
  have stillAt : (parse.nodes ++ [CmdNode.fresh])[parse.temp]? = some node := by
    rw [List.getElem?_append_left loop.inside]
    exact at_
  rcases appended.modify fresh.injective state.memory.heap stillAt
      (fun object => { object with next := some (nodeBlock supply parse.nodes.length) })
      (fun node => { node with next := some parse.nodes.length })
      (fun object stands => ⟨stands.args, stands.length, stands.inFile, stands.outFile,
        stands.inFd, stands.outFd, rfl⟩) rfl with ⟨objects, linked, built⟩
  have piped : state.pipe supply = some ⟨⟨state.memory.heap, objects⟩, state.taken + 2,
      nodeBlock supply parse.nodes.length, state.saved, state.token⟩ := by
    rw [← loop.temp] at linked
    have isNext : supply state.taken = nodeBlock supply parse.nodes.length := by
      rw [loop.taken, nodeBlock]
    simp only [Splitting.pipe, made, Option.bind_eq_bind, Option.bind_some, isNext, linked]
  refine ⟨_, piped, ?_⟩
  have isPipe : parse.pipe.nodes = (parse.nodes ++ [CmdNode.fresh]).modify parse.temp
      fun node => { node with next := some parse.nodes.length } := by
    rw [modify_append_of_lt loop.inside]
    rfl
  apply loop.with_objects
  · rw [isPipe]
    exact built
  · rw [isPipe, List.length_modify, List.length_append, List.length_singleton, loop.taken]
    omega
  · rfl
  · rw [isPipe, List.length_modify, List.length_append, List.length_singleton]
    exact Nat.lt_succ_self _

/-- `<` or `>`: the next token, or `NULL`, is the file. -/
theorem LoopAt.file (injective : Function.Injective supply)
    (loop : LoopAt supply line before tail front text state parse)
    (set : Option CharPtr → NodeObject → NodeObject) (set' : Option Str → CmdNode → CmdNode)
    (stands : ∀ Shows i pointer file object node, Option.Rel Shows pointer file →
      Stands supply Shows i object node →
        Stands supply Shows i (set pointer object) (set' file node))
    (args : ∀ file node, (set' file node).args = node.args) :
    ∃ front' text' state' memory, state.advance line = some state' ∧
      state'.memory.modify state'.temp (set (state'.token.map (CharPtr.mk line))) = some memory ∧
      LoopAt supply line before tail front' text' { state' with memory := memory }
        (parse.update (set' (words space text).head?)) ∧
      words space text' = (words space text).tail ∧
      front' ++ cutWords false (text' ++ 0 :: tail) =
        front ++ cutWords false (text ++ 0 :: tail) := by
  rcases loop.advance with ⟨front', text', state', advanced, loop', _, current, cut⟩
  have token : Option.Rel (ShowsIn line front' text') (state'.token.map (CharPtr.mk line))
      (words space text).head? ∧ words space text' = (words space text).tail := by
    rcases current with ⟨none, nothing, rfl⟩ | ⟨place, word, isToken, isWord, _, held⟩
    · rw [none, nothing]
      exact ⟨.none, rfl⟩
    · rw [isToken, isWord]
      exact ⟨.some ⟨rfl, held⟩, rfl⟩
  rcases loop'.modify injective (set (state'.token.map (CharPtr.mk line)))
    (set' (words space text).head?)
    (fun object node => stands _ _ _ _ object node token.1) (args _) with
    ⟨memory, changed, changedLoop⟩
  exact ⟨front', text', state', memory, advanced, changed, changedLoop, token.2, cut⟩

theorem forall₂_set {α β : Type} {R : α → β → Prop} {as : List α} {bs : List β}
    (related : List.Forall₂ R as bs) (k : Nat) {a : α} {b : β} (new : R a b) :
    List.Forall₂ R (as.set k a) (bs.set k b) := by
  induction related generalizing k with
  | nil => exact .nil
  | cons first rest ih =>
      cases k with
      | zero => exact .cons new rest
      | succ k => exact .cons first (ih k)

/-- An argument is stored where the model stores it, or behind the array. -/
theorem LoopAt.pushArg (injective : Function.Injective supply)
    (loop : LoopAt supply line before tail front text state parse) {place : Nat} {word : Str}
    (held : Held front text place word) :
    Option.Rel (fun state' parse' => LoopAt supply line before tail front text state' parse')
      (state.pushArg ⟨line, place⟩) (parse.pushArg word) := by
  rcases loop.at_temp with ⟨node, at_⟩
  rcases loop.built.each _ _ at_ with ⟨object, slots, isNode, stands, isArgs, shown⟩
  have isObject : state.memory.node? state.temp = some object := by
    rw [Memory.node?, loop.temp, isNode]
  have isSlots : state.memory.args? object.args = some slots := by
    rw [Memory.args?, stands.args, isArgs]
  rw [Splitting.pushArg, Parse.pushArg, isObject, at_]
  simp only [Option.bind_eq_bind, Option.bind_some, isSlots, stands.length, shown.length_eq]
  split
  next room =>
    have other : nodeBlock supply parse.temp ≠ argsBlock supply parse.temp :=
      supply_ne injective (by omega)
    have isOther : (state.memory.put object.args (.args (slots.set node.length
        (some ⟨line, place⟩)))).node? state.temp = some object := by
      rw [node?_put_of_ne, isObject]
      rw [loop.temp, stands.args]
      exact other
    rw [modify_of_node isOther, stands.args, loop.temp]
    refine .some (loop.with_objects ?_ ?_ rfl ?_)
    · apply loop.built.change injective at_
      · exact fun block notNode notArgs => (put_of_ne notNode).trans (put_of_ne notArgs)
      · refine ⟨_, slots.set node.length (some ⟨line, place⟩), put_self .., ⟨rfl, ?_,
          stands.inFile, stands.outFile, stands.inFd, stands.outFd, stands.next⟩, ?_, ?_⟩
        · exact congrArg (· + 1) stands.length
        · exact (put_of_ne other.symm).trans (put_self _ _ _)
        · exact forall₂_set shown _ (.some ⟨rfl, held⟩)
    · rw [Parse.update, List.length_modify]
      exact loop.taken
    · rw [Parse.update, List.length_modify]
      exact loop.inside
  next => exact .none

/-! ## The loop -/

/-- A round of the loop of the model: the state behind it, and the tokens that are left. -/
def Parse.round (parse : Parse) (token : Str) (rest : List Str) : Option (Parse × List Str) :=
  if token.head? = some bar then some (parse.pipe.count, rest)
  else if token.head? = some less then
    some ((parse.update fun node => { node with inFile := rest.head? }).count, rest.tail)
  else if token.head? = some greater then
    some ((parse.update fun node => { node with outFile := rest.head? }).count, rest.tail)
  else (parse.pushArg token).map fun parse => (parse.count, rest)

theorem splitLoop_cons (token : Str) (rest : List Str) (parse : Parse) :
    splitLoop (token :: rest) parse =
      (parse.round token rest).bind fun next => splitLoop next.2 next.1 := by
  rw [splitLoop.eq_def, Parse.round]
  dsimp only
  split
  next => rfl
  next =>
    split
    next =>
      cases rest with
      | nil => simp [splitLoop]
      | cons file rest => rfl
    next =>
      split
      next =>
        cases rest with
        | nil => simp [splitLoop]
        | cons file rest => rfl
      next => cases parse.pushArg token <;> rfl

theorem length_of_round {token : Str} {rest : List Str} {next : Parse × List Str}
    (done : parse.round token rest = some next) : next.2.length ≤ rest.length := by
  unfold Parse.round at done
  split at done
  next =>
    cases done
    exact Nat.le_refl _
  next =>
    split at done
    next =>
      cases done
      exact (List.tail_sublist rest).length_le
    next =>
      split at done
      next =>
        cases done
        exact (List.tail_sublist rest).length_le
      next =>
        rcases Option.map_eq_some_iff.mp done with ⟨_, _, rfl⟩
        exact Nat.le_refl _

/-- The end of a round: the next token, and `pipe_num++`. -/
theorem LoopAt.finish (injective : Function.Injective supply)
    (loop : LoopAt supply line before tail front text state parse) :
    ∃ front' text' state', ((state.advance line).bind fun state => state.count (supply 0)) =
        some state' ∧
      LoopAt supply line before tail front' text' state' parse.count ∧
      Current front' text' state'.token (words space text) ∧
      front' ++ cutWords false (text' ++ 0 :: tail) =
        front ++ cutWords false (text ++ 0 :: tail) := by
  rcases loop.advance with ⟨front', text', advanced, done, loop', _, current, cut⟩
  rcases loop'.count injective with ⟨state', counted, token, loop''⟩
  refine ⟨front', text', state', ?_, loop'', token ▸ current, cut⟩
  rw [done, Option.bind_some, counted]

/-- What is behind a round of the loop, when the round has a result. -/
def Behind (supply : Nat → Nat) (line : Nat) (before : Memory) (tail front text : List UInt8)
    (state : Splitting) (next : Parse × List Str) : Prop :=
  ∃ front' text', LoopAt supply line before tail front' text' state next.1 ∧
    Current front' text' state.token next.2 ∧
    front' ++ cutWords false (text' ++ 0 :: tail) = front ++ cutWords false (text ++ 0 :: tail)

theorem round_rel (fresh : Fresh supply before) (apart : ∀ i, supply i ≠ line)
    (loop : LoopAt supply line before tail front text state parse) {place : Nat} {word : Str}
    (held : Held front text place word) (nonempty : word ≠ []) :
    Option.Rel (Behind supply line before tail front text) (state.round supply line place)
      (parse.round word (words space text)) := by
  rcases List.exists_cons_of_ne_nil nonempty with ⟨c, more, isWord⟩
  have first : (front ++ (text ++ 0 :: tail))[place]? = some c := by
    rw [held.first nonempty, isWord]
    rfl
  simp only [Splitting.round, Splitting.branch, loop.content, first, Option.bind_eq_bind,
    Option.bind_some, Parse.round, isWord, List.head?_cons, Option.some.injEq]
  split
  next =>
    rcases loop.pipe fresh apart with ⟨piped, done, loop'⟩
    rcases loop'.finish fresh.injective with ⟨front', text', state', finished, rest⟩
    rw [done, Option.bind_some, finished]
    exact .some ⟨front', text', rest⟩
  next =>
    split
    next =>
      rcases loop.file fresh.injective (fun file node => { node with inFile := file })
        (fun file node => { node with inFile := file })
        (fun _ _ _ _ _ _ shown stands => ⟨stands.args, stands.length, shown, stands.outFile,
          stands.inFd, stands.outFd, stands.next⟩) (fun _ _ => rfl) with
        ⟨front₁, text₁, state₁, memory, advanced, changed, loop', left, cut⟩
      rcases loop'.finish fresh.injective with ⟨front', text', state', finished, rest⟩
      simp only [Splitting.inFile, advanced, changed, Option.bind_eq_bind, Option.bind_some,
        finished]
      exact .some ⟨front', text', rest.1, left ▸ rest.2.1, rest.2.2.trans cut⟩
    next =>
      split
      next =>
        rcases loop.file fresh.injective (fun file node => { node with outFile := file })
          (fun file node => { node with outFile := file })
          (fun _ _ _ _ _ _ shown stands => ⟨stands.args, stands.length, stands.inFile, shown,
            stands.inFd, stands.outFd, stands.next⟩) (fun _ _ => rfl) with
          ⟨front₁, text₁, state₁, memory, advanced, changed, loop', left, cut⟩
        rcases loop'.finish fresh.injective with ⟨front', text', state', finished, rest⟩
        simp only [Splitting.outFile, advanced, changed, Option.bind_eq_bind, Option.bind_some,
          finished]
        exact .some ⟨front', text', rest.1, left ▸ rest.2.1, rest.2.2.trans cut⟩
      next =>
        have pushed := loop.pushArg fresh.injective held
        rw [isWord] at pushed
        generalize state.pushArg ⟨line, place⟩ = stored at pushed ⊢
        generalize parse.pushArg (c :: more) = stored' at pushed ⊢
        cases pushed with
        | none => exact .none
        | some loop' =>
            rcases loop'.finish fresh.injective with ⟨front', text', state', finished, rest⟩
            rw [Option.bind_some, finished]
            exact .some ⟨front', text', rest⟩

/-- The loop over pointers comes to an end where that of the model does, and with the same
nodes. -/
theorem splitRounds_rel (fresh : Fresh supply before) (apart : ∀ i, supply i ≠ line)
    {tokens : List Str} {fuel : Nat}
    (loop : LoopAt supply line before tail front text state parse)
    (current : Current front text state.token tokens) (enough : tokens.length < fuel) :
    Option.Rel (fun state' parse' => ∃ front',
        LoopAt supply line before tail front' [] state' parse' ∧
          front' ++ 0 :: tail = front ++ cutWords false (text ++ 0 :: tail))
      (splitRounds supply line fuel state) (splitLoop tokens parse) := by
  induction fuel generalizing front text state parse tokens with
  | zero => exact absurd enough (Nat.not_lt_zero _)
  | succ fuel ih =>
      rw [splitRounds]
      rcases current with ⟨none, rfl, rfl⟩ | ⟨place, word, isToken, rfl, nonempty, held⟩
      · rw [none]
        exact .some ⟨front, loop, rfl⟩
      · have round := round_rel fresh apart loop held nonempty
        have shorter : ∀ next, parse.round word (words space text) = some next →
            next.2.length ≤ (words space text).length := fun _ done => length_of_round done
        simp only [isToken, splitLoop_cons]
        generalize state.round supply line place = done at round ⊢
        generalize parse.round word (words space text) = done' at round shorter ⊢
        cases round with
        | none => exact .none
        | @some state' next behind =>
            rcases behind with ⟨front', text', loop', current', cut⟩
            have small := shorter next rfl
            rw [List.length_cons] at enough
            have further := ih loop' current' (by omega)
            rw [Option.bind_some, Option.bind_some, ← cut]
            exact further

end Loop

/-! ## `split_line` -/

/-- What `split_line` has done: the blocks hold the nodes, every pointer shows its word in the
buffer, and `strtok` has cut up the buffer.  All else is as it was. -/
structure SplitInto (supply : Nat → Nat) (line : Nat) (before after : Memory) (cmd : Cmd) :
    Prop where
  chars : SameBut line before.heap after.heap
  buffer : after.heap line = (before.heap line).map (cutWords false)
  head : cmd.head = 0
  built : Built supply before.objects
    (fun pointer word => pointer.block = line ∧ stringOf after.heap pointer = some word)
    after.objects cmd.nodes cmd.pipeNum

theorem SplitInto.shows {supply : Nat → Nat} {line : Nat} {before after : Memory} {cmd : Cmd}
    (split_ : SplitInto supply line before after cmd) :
    Built supply before.objects (fun pointer word => stringOf after.heap pointer = some word)
      after.objects cmd.nodes cmd.pipeNum :=
  split_.built.mono fun _ _ shown => shown.2

section Split

variable {supply : Nat → Nat} {line : Nat} {before : Memory} {tail text : List UInt8}

/-- The words of a text are fewer than its characters. -/
theorem length_words_le (text : List UInt8) : (words space text).length ≤ text.length := by
  have spells := Words.spells_words space text
  generalize words space text = found at spells
  induction spells with
  | nil gap => exact Nat.zero_le _
  | last gap nonempty _ =>
      have some := List.length_pos_iff.mpr nonempty
      rw [List.length_append, List.length_singleton]
      omega
  | cons gap nonempty _ _ ih =>
      rw [List.length_append, List.length_cons, List.length_cons]
      omega

/-- The first three blocks. -/
theorem built_first (fresh : Fresh supply before) (Shows : CharPtr → Str → Prop) :
    ∃ objects, ((before.malloc (supply 0) (.cmd (some (supply 1)) 0)).bind
        fun memory => memory.newNode supply 1) = some ⟨before.heap, objects⟩ ∧
      Built supply before.objects Shows objects [.fresh] 0 := by
  have node : (before.put (supply 0) (.cmd (some (supply 1)) 0)).Unused (nodeBlock supply 0) :=
    unused_put (supply_ne fresh.injective (by omega)) (fresh.unused _) _
  have args : (before.put (supply 0) (.cmd (some (supply 1)) 0)).Unused (argsBlock supply 0) :=
    unused_put (supply_ne fresh.injective (by omega)) (fresh.unused _) _
  have made := newNode_of_unused fresh.injective node args
  have empty : Built supply before.objects Shows
      (before.put (supply 0) (.cmd (some (supply 1)) 0)).objects [] 0 := by
    constructor
    · exact put_self _ _ _
    · rintro i node ⟨⟩
    · exact fun block apart => put_of_ne (apart 0 (Nat.zero_le _))
  rw [malloc_of_unused (fresh.unused 0), Option.bind_some]
  refine ⟨_, made, ?_⟩
  apply empty.append fresh.injective
  · intro block notNode notArgs
    exact (Function.update_of_ne notArgs _ _).trans (Function.update_of_ne notNode _ _)
  · exact nodeAt_withNode fresh.injective _

theorem stringOf_of_showsIn {heap : Heap} {front : List UInt8} {pointer : CharPtr} {word : Str}
    (content : heap line = some (front ++ (text ++ 0 :: tail)))
    (shown : ShowsIn line front text pointer word) : stringOf heap pointer = some word := by
  rcases shown with ⟨isLine, held⟩
  rw [stringOf, isLine, content, Option.bind_some]
  exact held.stringAt tail

/-- `split_line` has a result where the model has one, and builds it. -/
theorem splitIn_rel (fresh : Fresh supply before)
    (content : before.heap line = some (text ++ 0 :: tail)) (noNul : 0 ∉ text) :
    Option.Rel (fun done cmd => done.2 = supply 0 ∧ SplitInto supply line before done.1 cmd)
      (splitIn supply line before) (splitLine text) := by
  have apart : ∀ i, supply i ≠ line := by
    rintro i rfl
    rw [(fresh.unused i).1] at content
    cases content
  rcases built_first fresh (ShowsIn line [] text) with ⟨objects, made, built⟩
  have start : LoopAt supply line before tail [] text ⟨⟨before.heap, objects⟩, 3, supply 1, 0, none⟩
      ⟨[.fresh], 0, 0⟩ :=
    ⟨content, noNul, rfl, fun _ _ => rfl, built, rfl, rfl, Nat.one_pos⟩
  rcases start.advance with ⟨front, rest, state, advanced, loop, _, current, cut⟩
  have few : (words space text).length < (text ++ 0 :: tail).length + 1 := by
    have le := length_words_le text
    rw [List.length_append]
    omega
  have rounds := splitRounds_rel fresh apart loop current few
  have isText : (text.takeWhile fun c => decide (c ≠ 0)) = text := by
    rw [List.takeWhile_eq_self_iff]
    intro c isMem
    rw [decide_eq_true_eq]
    rintro rfl
    exact noNul isMem
  have isSplit : splitIn supply line before = (splitRounds supply line
      ((text ++ 0 :: tail).length + 1) state).map fun state => (state.memory, supply 0) := by
    rcases Option.map_eq_some_iff.mp advanced with ⟨⟨memory, token, saved⟩, called, rfl⟩
    rcases Option.bind_eq_some_iff.mp made with ⟨first, isFirst, isSecond⟩
    simp only [splitIn, content, Option.bind_eq_bind, Option.bind_some, isFirst, isSecond, called,
      Option.map_eq_bind]
    rfl
  rw [isSplit, splitLine, isText]
  generalize splitRounds supply line ((text ++ 0 :: tail).length + 1) state = done at rounds ⊢
  generalize splitLoop (words space text) ⟨[.fresh], 0, 0⟩ = done' at rounds ⊢
  cases rounds with
  | none => exact .none
  | some behind =>
      rcases behind with ⟨front', loop', cut'⟩
      refine .some ⟨rfl, loop'.chars, ?_, rfl, ?_⟩
      · rw [loop'.content, content, Option.map_some, List.nil_append, cut', cut, List.nil_append]
      · exact loop'.built.mono fun _ _ shown =>
          ⟨shown.1, stringOf_of_showsIn loop'.content shown⟩

theorem content_of_string {heap : Heap} (string : heap.string line = some text) :
    ∃ tail, heap line = some (text ++ 0 :: tail) ∧ 0 ∉ text := by
  unfold Heap.string at string
  split at string
  next => cases string
  next bytes content =>
    split at string
    next nul =>
      cases string
      have all : ∀ c ∈ Blocks.cString bytes, c ≠ 0 := by
        intro c isMem
        have passes := List.mem_takeWhile_imp isMem
        rwa [decide_eq_true_eq] at passes
      have noNul : 0 ∉ Blocks.cString bytes := fun isMem => all 0 isMem rfl
      have whole : Blocks.cString bytes ++ bytes.dropWhile (fun c => decide (c ≠ 0)) = bytes :=
        List.takeWhile_append_dropWhile
      cases rest : bytes.dropWhile fun c => decide (c ≠ 0) with
      | nil =>
          rw [rest, List.append_nil] at whole
          rw [← whole] at nul
          exact absurd nul noNul
      | cons c tail =>
          have first := List.head?_dropWhile_not (fun c : UInt8 => decide (c ≠ 0)) bytes
          rw [rest] at first whole
          have isNul : c = 0 := by simpa using first
          subst isNul
          exact ⟨tail, content.trans (congrArg some whole.symm), noNul⟩
    next => cases string

/-- `split_line` over pointers and the model: both have a result or neither has, and then the
blocks that `malloc` has given hold the model's nodes, linked in their order, every argument and
file points to its token in the buffer, and no other block has changed. -/
theorem split_line_in_memory (fresh : Fresh supply before)
    (string : before.heap.string line = some text) :
    Option.Rel (fun done cmd => done.2 = supply 0 ∧ SplitInto supply line before done.1 cmd)
      (splitIn supply line before) (splitLine text) := by
  rcases content_of_string string with ⟨tail, content, noNul⟩
  exact splitIn_rel fresh content noNul

/-- The buffer `ls | wc` in block 0. -/
def lsWcBuffer : Memory :=
  ⟨Function.update (fun _ => none) 0 (some [108, 115, 32, 124, 32, 119, 99, 0]), fun _ => none⟩

theorem lsWcBuffer_fresh : Fresh (fun i => i + 1) lsWcBuffer where
  injective _ _ same := Nat.succ.inj same
  unused i := by
    refine ⟨?_, rfl⟩
    dsimp only [lsWcBuffer]
    exact Function.update_of_ne (Nat.succ_ne_zero i) _ _

theorem split_line_in_memory_lsWc :
    ((splitLine [108, 115, 32, 124, 32, 119, 99]).map fun cmd => cmd.nodes.length) = some 2 ∧
      Option.Rel (fun done cmd => done.2 = 1 ∧ SplitInto (fun i => i + 1) 0 lsWcBuffer done.1 cmd)
        (splitIn (fun i => i + 1) 0 lsWcBuffer) (splitLine [108, 115, 32, 124, 32, 119, 99]) :=
  ⟨by decide +kernel, split_line_in_memory lsWcBuffer_fresh (by decide +kernel)⟩

end Split

/-! ## A buffer without NUL -/

section NoNul

variable {supply : Nat → Nat} {line : Nat} {state state' : Splitting}

/-- There is no NUL where `strtok` goes on. -/
def NoNulLeft (line : Nat) (state : Splitting) : Prop :=
  ∀ bytes, state.memory.heap line = some bytes → 0 ∉ bytes.drop state.saved

theorem mem_drop_of_getElem? {bytes : List UInt8} {i k : Nat} {c : UInt8} (le : k ≤ i)
    (found : bytes[i]? = some c) : c ∈ bytes.drop k := by
  apply List.mem_of_getElem? (i := i - k)
  rw [List.getElem?_drop, Nat.add_sub_cancel' le]
  exact found

/-- Without a NUL `strtok` finds words until it leaves the block. -/
theorem strtok_runs_on {bytes bytes' : List UInt8} {saved saved' : Nat} {token : Option Nat}
    (noNul : 0 ∉ bytes.drop saved)
    (found : InPlace.strtok space bytes saved = some (bytes', token, saved')) :
    token ≠ none ∧ 0 ∉ bytes'.drop saved' := by
  simp only [InPlace.strtok] at found
  generalize isStart : saved + _ = start at found
  have startBehind : saved ≤ start := by omega
  split at found
  next => cases found
  next c atStart =>
    have notNul : ¬c = 0 := by
      rintro rfl
      exact noNul (mem_drop_of_getElem? startBehind atStart)
    rw [if_neg notNul] at found
    generalize isStop : start + _ = stop at found
    have stopBehind : saved ≤ stop := by omega
    split at found
    next => cases found
    next c' atStop =>
      have notNul' : ¬c' = 0 := by
        rintro rfl
        exact noNul (mem_drop_of_getElem? stopBehind atStop)
      rw [if_neg notNul'] at found
      cases found
      refine ⟨Option.some_ne_none _, fun isMem => noNul ?_⟩
      rw [List.drop_set_of_lt (Nat.lt_succ_self _)] at isMem
      rw [← Nat.add_sub_cancel' (Nat.le_succ_of_le stopBehind), ← List.drop_drop] at isMem
      exact List.mem_of_mem_drop isMem

theorem advance_runs_on (noNul : NoNulLeft line state) (done : state.advance line = some state') :
    state'.token ≠ none ∧ NoNulLeft line state' := by
  rcases Option.map_eq_some_iff.mp done with ⟨⟨memory, token, saved⟩, called, rfl⟩
  simp only [Memory.strtok, Option.bind_eq_bind, Option.bind_eq_some_iff] at called
  rcases called with ⟨bytes, content, ⟨bytes', token', saved'⟩, found, isDone⟩
  cases isDone
  rcases strtok_runs_on (noNul bytes content) found with ⟨some, noNul'⟩
  refine ⟨some, fun other isOther => ?_⟩
  have isBytes : bytes' = other := by
    change Function.update state.memory.heap line _ line = _ at isOther
    rw [Function.update_self] at isOther
    exact Option.some.inj isOther
  exact isBytes ▸ noNul'

theorem heap_of_malloc {memory memory' : Memory} {block : Nat} {object : Object}
    (done : memory.malloc block object = some memory') : memory'.heap = memory.heap := by
  unfold Memory.malloc at done
  split at done
  next =>
    cases done
    rfl
  next => cases done

theorem heap_of_modify {memory memory' : Memory} {block : Nat} {change : NodeObject → NodeObject}
    (done : memory.modify block change = some memory') : memory'.heap = memory.heap := by
  rcases Option.map_eq_some_iff.mp done with ⟨_, _, rfl⟩
  rfl

theorem branch_runs_on {token : Nat} {first : UInt8} (noNul : NoNulLeft line state)
    (done : state.branch supply line token first = some state') : NoNulLeft line state' := by
  have file {change : NodeObject → NodeObject} {next : Splitting} {memory : Memory}
      (advanced : state.advance line = some next)
      (changed : next.memory.modify next.temp change = some memory) :
      NoNulLeft line { next with memory := memory } := by
    intro bytes content
    have same : memory.heap = next.memory.heap := heap_of_modify changed
    exact (advance_runs_on noNul advanced).2 bytes (same ▸ content)
  unfold Splitting.branch at done
  split at done
  next =>
    simp only [Splitting.pipe, Memory.newNode, Option.bind_eq_bind, Option.bind_eq_some_iff] at done
    rcases done with ⟨third, ⟨second, isSecond, isThird⟩, fourth, isFourth, isDone⟩
    cases isDone
    intro bytes content
    have same : fourth.heap = state.memory.heap := by
      rw [heap_of_modify isFourth, heap_of_malloc isThird, heap_of_malloc isSecond]
    exact noNul bytes (same ▸ content)
  next =>
    split at done
    next =>
      simp only [Splitting.inFile, Option.bind_eq_bind, Option.bind_eq_some_iff] at done
      rcases done with ⟨next, advanced, memory, changed, isDone⟩
      cases isDone
      exact file advanced changed
    next =>
      split at done
      next =>
        simp only [Splitting.outFile, Option.bind_eq_bind, Option.bind_eq_some_iff] at done
        rcases done with ⟨next, advanced, memory, changed, isDone⟩
        cases isDone
        exact file advanced changed
      next =>
        simp only [Splitting.pushArg, Option.bind_eq_bind, Option.bind_eq_some_iff] at done
        rcases done with ⟨node, _, slots, _, stored⟩
        split at stored
        next =>
          simp only [Option.bind_eq_some_iff] at stored
          rcases stored with ⟨memory, changed, isDone⟩
          cases isDone
          intro bytes content
          have same : memory.heap = state.memory.heap := by
            rw [heap_of_modify changed]
            rfl
          exact noNul bytes (same ▸ content)
        next => cases stored

/-- The first half of a round leaves the buffer behind `saved` without NUL. -/
theorem round_runs_on {token : Nat} (noNul : NoNulLeft line state)
    (done : state.round supply line token = some state') :
    state'.token ≠ none ∧ NoNulLeft line state' := by
  simp only [Splitting.round, Option.bind_eq_bind, Option.bind_eq_some_iff] at done
  rcases done with ⟨bytes, _, first, _, middle, branch, next, advanced, counted⟩
  have middleNoNul := branch_runs_on noNul branch
  have behind := advance_runs_on middleNoNul advanced
  simp only [Splitting.count, Option.bind_eq_bind, Option.bind_eq_some_iff] at counted
  rcases counted with ⟨_, _, isCount⟩
  cases isCount
  exact behind

/-- So the loop does not come to an end. -/
theorem splitRounds_runs_on {fuel : Nat} (token : state.token ≠ none)
    (noNul : NoNulLeft line state) : splitRounds supply line fuel state = none := by
  induction fuel generalizing state with
  | zero => rfl
  | succ fuel ih =>
      rw [splitRounds]
      cases isToken : state.token with
      | none => exact absurd isToken token
      | some place =>
          rw [Option.bind_eq_none_iff]
          intro next done
          rcases round_runs_on noNul done with ⟨token', noNul'⟩
          exact ih token' noNul'

/-- `split_line` needs a string. -/
theorem string_of_splitIn {memory : Memory} {done : Memory × Nat}
    (split_ : splitIn supply line memory = some done) :
    ∃ text, memory.heap.string line = some text := by
  simp only [splitIn, Option.bind_eq_bind, Option.bind_eq_some_iff] at split_
  rcases split_ with ⟨bytes, content, first, isFirst, second, isSecond, ⟨third, token, saved⟩,
    called, state, rounds, _⟩
  have same : second.heap = memory.heap := by
    simp only [Memory.newNode, Option.bind_eq_bind, Option.bind_eq_some_iff] at isSecond
    rcases isSecond with ⟨node, isNode, isArgs⟩
    rw [heap_of_malloc isArgs, heap_of_malloc isNode, heap_of_malloc isFirst]
  have nul : 0 ∈ bytes := by
    by_contra noNul
    have start : NoNulLeft line ⟨second, 3, supply 1, 0, none⟩ := by
      intro other isOther
      rw [same, content] at isOther
      cases isOther
      exact noNul
    have advanced : Splitting.advance ⟨second, 3, supply 1, 0, none⟩ line =
        some ⟨third, 3, supply 1, saved, token⟩ := by
      rw [Splitting.advance, called]
      rfl
    rcases advance_runs_on start advanced with ⟨some, noNul'⟩
    rw [splitRounds_runs_on some noNul'] at rounds
    cases rounds
  exact ⟨_, by rw [Heap.string, content]; exact if_pos nul⟩

end NoNul

end NckuOs.Shell
