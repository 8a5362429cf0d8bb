import NckuOs.Shell.Represents

/-!
# What a line allocates is freed

`fork_cmd_node` and the end of the loop of `shell` walk the list that `split_line` has built.
Behind the last `free` the memory is what it was in front of `split_line`, without the buffer.
-/

namespace NckuOs.Shell

open NckuOs.Blocks (Heap)

/-- Every node leads to the next one, and the last to `NULL`. -/
def InOrder (nodes : List CmdNode) : Prop :=
  ∀ i node, nodes[i]? = some node →
    node.next = if i + 1 < nodes.length then some (i + 1) else none

theorem inOrder_chain (all : List Command) : InOrder (chain 0 all) := by
  have from_ (k i : Nat) (node : CmdNode) (at_ : (chain k all)[i]? = some node) :
      node.next = if i + 1 < (chain k all).length then some (k + i + 1) else none := by
    induction all generalizing k i with
    | nil => cases at_
    | cons command rest ih =>
        cases i with
        | zero =>
            cases at_
            cases rest with
            | nil => rfl
            | cons second rest => simp [chain, Command.node, link]
        | succ i =>
            rw [chain, List.getElem?_cons_succ] at at_
            rw [ih (k + 1) i at_, chain, List.length_cons]
            simp only [Nat.add_lt_add_iff_right]
            congr 2
            omega
  intro i node at_
  rw [from_ 0 i node at_, Nat.zero_add]

theorem InOrder.modify {nodes : List CmdNode} (inOrder : InOrder nodes) (k : Nat)
    (change : CmdNode → CmdNode) (keeps : ∀ node, (change node).next = node.next) :
    InOrder (nodes.modify k change) := by
  intro i node at_
  rw [List.getElem?_modify] at at_
  rw [List.length_modify]
  rcases Option.map_eq_some_iff.mp at_ with ⟨old, found, isNode⟩
  have same : node.next = old.next := by
    rw [← isNode]
    split
    · exact keeps old
    · rfl
  rw [same]
  exact inOrder i old found

section Walk

variable {supply : Nat → Nat} {before objects₀ objects : Nat → Option Object}
  {Shows : CharPtr → Str → Prop} {nodes : List CmdNode} {pipeNum : Nat} {heap : Heap}

/-- The pointer that a node holds to the next one. -/
theorem next_of_inOrder {i : Nat} {node : CmdNode} {object : NodeObject} (inOrder : InOrder nodes)
    (at_ : nodes[i]? = some node) (stands : Stands supply Shows i object node) :
    object.next = if i + 1 < nodes.length then some (nodeBlock supply (i + 1)) else none := by
  rw [stands.next, inOrder i node at_]
  split <;> rfl

/-- `fork_cmd_node` gets to the end of the list, and changes descriptors only. -/
theorem forkIn_built (injective : Function.Injective supply) (fds : Nat → Nat × Nat)
    (built : Built supply before Shows objects nodes pipeNum) (inOrder : InOrder nodes) {k : Nat}
    (inside : k < nodes.length) {fuel : Nat} (enough : nodes.length - k ≤ fuel) :
    ∃ objects' nodes', forkIn fds fuel k (some (nodeBlock supply k)) ⟨heap, objects⟩ =
        some ⟨heap, objects'⟩ ∧
      Built supply before Shows objects' nodes' pipeNum ∧ InOrder nodes' ∧
      nodes'.length = nodes.length := by
  induction fuel generalizing k nodes objects with
  | zero => omega
  | succ fuel ih =>
      rcases built.each k _ (List.getElem?_eq_getElem inside) with
        ⟨object, slots, isNode, stands, _⟩
      have isObject : Memory.node? ⟨heap, objects⟩ (nodeBlock supply k) = some object :=
        node?_of_objects isNode
      have next := next_of_inOrder inOrder (List.getElem?_eq_getElem inside) stands
      simp only [forkIn, isObject, Option.bind_eq_bind, Option.bind_some]
      by_cases more : k + 1 < nodes.length
      · rw [if_pos more] at next
        rw [next]
        rcases built.modify injective heap (List.getElem?_eq_getElem inside)
          (fun node => { node with outFd := (fds k).2 })
          (fun node => { node with outFd := (fds k).2 })
          (fun object stands => ⟨stands.args, stands.length, stands.inFile, stands.outFile,
            stands.inFd, rfl, stands.next⟩) rfl with ⟨objects₁, first, built₁⟩
        have inside₁ : k + 1 < (nodes.modify k fun node =>
            { node with outFd := (fds k).2 }).length := by
          rw [List.length_modify]
          exact more
        rcases built₁.modify injective heap (List.getElem?_eq_getElem inside₁)
          (fun node => { node with inFd := (fds k).1 })
          (fun node => { node with inFd := (fds k).1 })
          (fun object stands => ⟨stands.args, stands.length, stands.inFile, stands.outFile,
            rfl, stands.outFd, stands.next⟩) rfl with ⟨objects₂, second, built₂⟩
        have inOrder₂ := (inOrder.modify k (fun node => { node with outFd := (fds k).2 })
          fun _ => rfl).modify (k + 1) (fun node => { node with inFd := (fds k).1 }) fun _ => rfl
        rcases ih built₂ inOrder₂ (by simp only [List.length_modify]; exact more)
          (by simp only [List.length_modify]; omega) with ⟨objects', nodes', done, built', rest⟩
        refine ⟨objects', nodes', ?_, built', rest.1, ?_⟩
        · simp only [first, Option.bind_some, second, done]
        · rw [rest.2, List.length_modify, List.length_modify]
      · rw [if_neg more] at next
        rw [next]
        exact ⟨objects, nodes, rfl, built, inOrder, rfl⟩

/-- The first `i` nodes are freed; the others and all else are as they were. -/
structure FreedTo (supply : Nat → Nat) (objects₀ : Nat → Option Object) (n pipeNum i : Nat)
    (objects : Nat → Option Object) : Prop where
  cmd : objects (supply 0) =
    some (.cmd (if i < n then some (nodeBlock supply i) else none) pipeNum)
  gone : ∀ j, 1 ≤ j → j ≤ 2 * i → objects (supply j) = none
  others : ∀ block, (∀ j ≤ 2 * i, block ≠ supply j) → objects block = objects₀ block

theorem freeObject_of_some {memory : Memory} {block : Nat} {object : Object}
    (inUse : memory.objects block = some object) : memory.freeObject block =
      some ⟨memory.heap, Function.update memory.objects block none⟩ := by
  rw [Memory.freeObject, inUse]
  rfl

variable (heap) in
/-- A round of the loop that frees the nodes. -/
theorem FreedTo.step (injective : Function.Injective supply)
    (built : Built supply before Shows objects₀ nodes pipeNum) (inOrder : InOrder nodes) {i : Nat}
    (inside : i < nodes.length) (freed : FreedTo supply objects₀ nodes.length pipeNum i objects)
    (fuel : Nat) :
    ∃ objects', freeNodes (supply 0) (fuel + 1) ⟨heap, objects⟩ =
        freeNodes (supply 0) fuel ⟨heap, objects'⟩ ∧
      FreedTo supply objects₀ nodes.length pipeNum (i + 1) objects' := by
  rcases built.each i _ (List.getElem?_eq_getElem inside) with
    ⟨object, slots, isNode, stands, isArgs, _⟩
  have untouched {j : Nat} (behind : 2 * i < j) : objects (supply j) = objects₀ (supply j) :=
    freed.others _ fun k small => supply_ne injective (by omega)
  have argsNotCmd : argsBlock supply i ≠ supply 0 := supply_ne injective (by omega)
  have nodeNotCmd : nodeBlock supply i ≠ supply 0 := supply_ne injective (by omega)
  have nodeNotArgs : nodeBlock supply i ≠ argsBlock supply i := supply_ne injective (by omega)
  have next := next_of_inOrder inOrder (List.getElem?_eq_getElem inside) stands
  have isCmd : Memory.cmd? ⟨heap, objects⟩ (supply 0) =
      some (some (nodeBlock supply i), pipeNum) := by
    simp only [Memory.cmd?, freed.cmd, if_pos inside]
  have isObject : Memory.node? ⟨heap, objects⟩ (nodeBlock supply i) = some object :=
    node?_of_objects ((untouched (by omega)).trans isNode)
  have argsUsed : (Memory.put ⟨heap, objects⟩ (supply 0) (.cmd object.next pipeNum)).objects
      (argsBlock supply i) = some (.args slots) := by
    rw [put_of_ne argsNotCmd]
    exact (untouched (by omega)).trans isArgs
  have nodeUsed : Function.update (Memory.put ⟨heap, objects⟩ (supply 0)
      (.cmd object.next pipeNum)).objects (argsBlock supply i) none (nodeBlock supply i) =
        some (.node object) := by
    rw [Function.update_of_ne nodeNotArgs, put_of_ne nodeNotCmd]
    exact (untouched (by omega)).trans isNode
  refine ⟨Function.update (Function.update (Memory.put ⟨heap, objects⟩ (supply 0)
    (.cmd object.next pipeNum)).objects (argsBlock supply i) none) (nodeBlock supply i) none,
    ?_, ?_⟩
  · simp only [freeNodes, isCmd, isObject, Option.bind_eq_bind, Option.bind_some, stands.args]
    rw [freeObject_of_some argsUsed, Option.bind_some, freeObject_of_some nodeUsed,
      Option.bind_some]
    rfl
  · constructor
    · rw [Function.update_of_ne nodeNotCmd.symm, Function.update_of_ne argsNotCmd.symm, put_self,
        next]
    · intro j low high
      by_cases isNode : j = 2 * i + 1
      · subst isNode
        exact Function.update_self ..
      · have notNode : supply j ≠ nodeBlock supply i := supply_ne injective isNode
        rw [Function.update_of_ne notNode]
        by_cases isArgs : j = 2 * i + 2
        · subst isArgs
          exact Function.update_self ..
        · have notArgs : supply j ≠ argsBlock supply i := supply_ne injective isArgs
          have notCmd : supply j ≠ supply 0 := supply_ne injective (by omega)
          rw [Function.update_of_ne notArgs, put_of_ne notCmd]
          exact freed.gone j low (by omega)
    · intro block apart
      have notNode : block ≠ nodeBlock supply i := apart _ (by omega)
      have notArgs : block ≠ argsBlock supply i := apart _ (by omega)
      rw [Function.update_of_ne notNode, Function.update_of_ne notArgs,
        put_of_ne (apart 0 (Nat.zero_le _))]
      exact freed.others block fun j small => apart j (by omega)

variable (heap) in
/-- The loop frees every node once. -/
theorem freeNodes_built (injective : Function.Injective supply)
    (built : Built supply before Shows objects₀ nodes pipeNum) (inOrder : InOrder nodes) {i : Nat}
    (upTo : i ≤ nodes.length) (freed : FreedTo supply objects₀ nodes.length pipeNum i objects)
    {fuel : Nat} (enough : nodes.length - i < fuel) :
    ∃ objects', freeNodes (supply 0) fuel ⟨heap, objects⟩ = some ⟨heap, objects'⟩ ∧
      FreedTo supply objects₀ nodes.length pipeNum nodes.length objects' := by
  induction fuel generalizing i objects with
  | zero => omega
  | succ fuel ih =>
      by_cases inside : i < nodes.length
      · rcases freed.step heap injective built inOrder inside fuel with
          ⟨objects', stepped, freed'⟩
        rw [stepped]
        exact ih inside freed' (by omega)
      · have isEnd : i = nodes.length := by omega
        subst isEnd
        refine ⟨objects, ?_, freed⟩
        have isCmd : Memory.cmd? ⟨heap, objects⟩ (supply 0) = some (none, pipeNum) := by
          simp only [Memory.cmd?, freed.cmd, if_neg inside]
        simp only [freeNodes, isCmd, Option.bind_eq_bind, Option.bind_some]

/-- Behind the end of the loop of `shell` there is what was in front of `split_line`. -/
theorem freeLine_built (injective : Function.Injective supply)
    (unused : ∀ i, before (supply i) = none)
    (built : Built supply before Shows objects nodes pipeNum) (inOrder : InOrder nodes)
    (nonempty : nodes ≠ []) {fuel buffer : Nat} (enough : nodes.length < fuel)
    {bytes : List UInt8} (content : heap buffer = some bytes) :
    freeLine fuel (supply 0) buffer ⟨heap, objects⟩ = some ⟨heap.free buffer, before⟩ := by
  have start : FreedTo supply objects nodes.length pipeNum 0 objects := by
    constructor
    · rw [if_pos (List.length_pos_iff.mpr nonempty)]
      exact built.cmd
    · omega
    · exact fun _ _ => rfl
  rcases freeNodes_built heap injective built inOrder (Nat.zero_le _) start enough with
    ⟨objects', done, freed⟩
  have isCmd : Memory.freeObject ⟨heap, objects'⟩ (supply 0) = _ := freeObject_of_some freed.cmd
  have same : Function.update objects' (supply 0) none = before := by
    funext block
    by_cases given : ∃ j ≤ 2 * nodes.length, block = supply j
    · rcases given with ⟨j, small, rfl⟩
      rw [unused j]
      by_cases isCmd : j = 0
      · rw [isCmd, Function.update_self]
      · rw [Function.update_of_ne (supply_ne injective isCmd)]
        exact freed.gone j (Nat.pos_of_ne_zero isCmd) small
    · have apart : ∀ j ≤ 2 * nodes.length, block ≠ supply j :=
        fun j small same => given ⟨j, small, same⟩
      rw [Function.update_of_ne (apart 0 (Nat.zero_le _)), freed.others block apart]
      exact built.others block apart
  simp only [freeLine, done, Option.bind_eq_bind, Option.bind_some, isCmd, same, Memory.freeChars,
    content, Option.map_some]

end Walk

end NckuOs.Shell
