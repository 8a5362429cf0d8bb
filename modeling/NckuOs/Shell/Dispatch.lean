import NckuOs.Shell.Commands
import NckuOs.Shell.ReadLine

/-!
# From the parsed line to its execution

`shell` compares the name of a single command with the built-in ones, and starts a process
for it or for each command of a pipeline.  Nobody looks whether there is a name.
-/

namespace NckuOs.Shell

/-- `builtin_str`: `help`, `cd`, `pwd`, `echo`, `exit`, `record`. -/
def builtinStr : List Str :=
  [[104, 101, 108, 112], [99, 100], [112, 119, 100], [101, 99, 104, 111], [101, 120, 105, 116],
    [114, 101, 99, 111, 114, 100]]

/-- `args[0]`, when it points to a string. -/
def CmdNode.name? (node : CmdNode) : Option Str :=
  node.args.head?.join

/-- `searchBuiltInCommand`: the number of a built-in command, or `none` for the `-1`.
`strcmp` needs a string, so that without a name there is no result. -/
def searchBuiltInCommand (node : CmdNode) : Option (Option Nat) :=
  node.name?.map fun name => builtinStr.findIdx? fun builtin => builtin = name

/-- The loop of `fork_cmd_node` along the list, for at most as many nodes as there are. -/
def forked (nodes : List CmdNode) : Nat → Option Nat → List CmdNode
  | 0, _ => []
  | _ + 1, none => []
  | fuel + 1, some p =>
      match nodes[p]? with
      | none => []
      | some node => node :: forked nodes fuel node.next

/-- The nodes that `spawn_proc` is called with. -/
def spawned (cmd : Cmd) : List CmdNode :=
  match cmd.nodes[cmd.head]? with
  | none => []
  | some head =>
      if head.next = none then if searchBuiltInCommand head = some none then [head] else []
      else forked cmd.nodes cmd.nodes.length (some cmd.head)

/-- The node that `searchBuiltInCommand` is called with. -/
def searched (cmd : Cmd) : List CmdNode :=
  match cmd.nodes[cmd.head]? with
  | none => []
  | some head => if head.next = none then [head] else []

/-- The nodes that are handed to `execvp`: in the children that `fork` makes and whose
redirections can be opened. -/
def executed (cmd : Cmd) (succeeds : Nat → Bool) : List CmdNode :=
  ((spawned cmd).zipIdx.filter fun p => succeeds p.2).map Prod.fst

/-- Whatever `fork` and `open` answer, every node that is looked up or executed has a name. -/
def Named (line : Str) : Prop :=
  ∃ cmd, splitLine line = some cmd ∧ ∀ succeeds : Nat → Bool,
    ∀ node ∈ searched cmd ++ executed cmd succeeds, ∃ name, node.name? = some name

/-- Every command of a line has a name, and its words fit in the allocated slots. -/
def NoneEmpty (line : Str) : Prop :=
  ∀ command ∈ commands line, 1 ≤ command.args.length ∧ command.args.length ≤ argsLength

/-! ## The nodes of a line -/

/-- `fork_cmd_node` goes through all nodes. -/
theorem forked_chain (front : List CmdNode) (all : List Command) {fuel : Nat}
    (enough : all.length ≤ fuel) :
    forked (front ++ chain front.length all) fuel (link front.length all) =
      chain front.length all := by
  induction all generalizing front fuel with
  | nil => cases fuel <;> rfl
  | cons command rest ih =>
      cases fuel with
      | zero => cases enough
      | succ fuel =>
          have others := ih (front ++ [command.node (link (front.length + 1) rest)])
            (Nat.le_of_succ_le_succ enough)
          rw [List.length_append, List.length_singleton, List.append_assoc,
            List.singleton_append] at others
          have here : (front ++ chain front.length (command :: rest))[front.length]? =
              some (command.node (link (front.length + 1) rest)) := by
            simp [chain]
          have next : (command.node (link (front.length + 1) rest)).next =
              link (front.length + 1) rest := rfl
          rw [link, forked, here]
          dsimp only
          rw [next, chain, others]

theorem forall_executed_iff {P : CmdNode → Prop} (cmd : Cmd) :
    (∀ succeeds, ∀ node ∈ executed cmd succeeds, P node) ↔ ∀ node ∈ spawned cmd, P node := by
  constructor
  · intro always
    have all : executed cmd (fun _ => true) = spawned cmd := by
      rw [executed, List.filter_true, List.zipIdx_map_fst]
    rw [← all]
    exact always fun _ => true
  · intro each succeeds node isMem
    rcases List.mem_map.mp isMem with ⟨p, inFiltered, rfl⟩
    exact each p.1 (List.fst_mem_of_mem_zipIdx (List.mem_of_mem_filter inFiltered))

/-- A pipeline is not looked up, and all of its nodes are started. -/
theorem handed_pipeline (command second : Command) (rest : List Command) (pipeNum : Nat) :
    searched ⟨chain 0 (command :: second :: rest), 0, pipeNum⟩ = [] ∧
      spawned ⟨chain 0 (command :: second :: rest), 0, pipeNum⟩ =
        chain 0 (command :: second :: rest) := by
  have head : (chain 0 (command :: second :: rest))[0]? =
      some (command.node (link 1 (second :: rest))) := rfl
  have linked : ¬(command.node (link 1 (second :: rest))).next = none :=
    Option.some_ne_none 1
  have walked := forked_chain [] (command :: second :: rest) (Nat.le_refl _)
  rw [← length_chain 0] at walked
  constructor
  · rw [searched, head]
    exact if_neg linked
  · rw [spawned, head]
    dsimp only
    rw [if_neg linked]
    exact walked

/-- The nodes that are looked up or may be executed are all nodes of the line. -/
theorem forall_handed_iff {P : CmdNode → Prop} {all : List Command} (nonempty : all ≠ [])
    (pipeNum : Nat) :
    (∀ succeeds, ∀ node ∈ searched ⟨chain 0 all, 0, pipeNum⟩ ++
      executed ⟨chain 0 all, 0, pipeNum⟩ succeeds, P node) ↔ ∀ node ∈ chain 0 all, P node := by
  simp only [List.forall_mem_append, forall_and, forall_executed_iff, forall_const]
  cases all with
  | nil => exact absurd rfl nonempty
  | cons command rest =>
      cases rest with
      | nil =>
          have single : chain 0 [command] = [command.node none] := rfl
          have alone : (command.node none).next = none := rfl
          simp only [searched, spawned, single, List.getElem?_cons_zero, alone, if_true]
          split
          · exact and_self_iff
          · simp
      | cons second rest =>
          rcases handed_pipeline command second rest pipeNum with ⟨noSearch, started⟩
          rw [noSearch, started]
          exact and_iff_right (List.forall_mem_nil P)

theorem Command.name_iff (command : Command) (next : Option Nat) :
    (∃ name, (command.node next).name? = some name) ↔ 1 ≤ command.args.length := by
  unfold CmdNode.name? Command.node
  cases command.args with
  | nil => simp [argsLength]
  | cons name rest => simp

/-! ## Names -/

theorem named_iff_nodes (line : Str) :
    Named line ↔ (∀ command ∈ commands line, command.Roomy) ∧
      ∀ node ∈ chain 0 (commands line), ∃ name, node.name? = some name := by
  have nonempty : commands line ≠ [] := commandsFrom_ne_nil _ _
  rcases splitLine_iff line with ⟨pipeNum, parsed⟩
  rw [Named, parsed, forall_handed_iff nonempty]

theorem noneEmpty_of_named {line : Str} (named : Named line) : NoneEmpty line := by
  rcases (named_iff_nodes line).mp named with ⟨roomy, nodes⟩
  have some := (forall_chain_iff Command.name_iff 0 _).mp nodes
  intro command isMem
  exact ⟨some command isMem, roomy command isMem⟩

/-- Every node that the shell looks up or executes has a name exactly when every command of
the line has a word, and none has more than ten. -/
theorem named_iff (line : Str) : Named line ↔ NoneEmpty line := by
  constructor
  · exact noneEmpty_of_named
  · intro noneEmpty
    apply (named_iff_nodes line).mpr
    constructor
    · exact fun command isMem => (noneEmpty command isMem).2
    · exact (forall_chain_iff Command.name_iff 0 _).mpr fun command isMem =>
        (noneEmpty command isMem).1

/-- The line `< in` and the line `| wc`. -/
theorem not_named_operatorFirst :
    (Returned [less, space, 105, 110] ∧ ¬Named [less, space, 105, 110]) ∧
      Returned [bar, space, 119, 99] ∧ ¬Named [bar, space, 119, 99] := by
  have input : Returned [less, space, 105, 110] :=
    returned_of_text (by decide) (by decide) (by decide) (by decide) (by decide)
  have pipe : Returned [bar, space, 119, 99] :=
    returned_of_text (by decide) (by decide) (by decide) (by decide) (by decide)
  have noWord : ⟨[], [.input [] (some [105, 110])]⟩ ∈ commands [less, space, 105, 110] := by
    decide +kernel
  have noWord' : ⟨[], []⟩ ∈ commands [bar, space, 119, 99] := by decide +kernel
  refine ⟨⟨input, fun named => ?_⟩, pipe, fun named => ?_⟩
  · exact absurd (noneEmpty_of_named named _ noWord).1 (by decide)
  · exact absurd (noneEmpty_of_named named _ noWord').1 (by decide)

end NckuOs.Shell
