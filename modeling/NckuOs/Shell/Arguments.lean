import NckuOs.Shell.Commands
import NckuOs.Shell.ReadLine

/-!
# The argument array

`split_line` allocates ten slots for the arguments of each command, and `execvp` and the
built-in commands need a `NULL` in one of them.  Nothing compares `length` with the slots.
-/

namespace NckuOs.Shell

/-- The `NULL` behind the last argument is inside the array. -/
structure CmdNode.Terminated (node : CmdNode) : Prop where
  length : node.length ≤ argsLength - 1
  slots : node.args.length = argsLength
  null : node.args[node.length]? = some none

/-- `split_line` stores every argument inside an array, and leaves room for a `NULL`. -/
def ArgumentsFit (line : Str) : Prop :=
  ∃ cmd, splitLine line = some cmd ∧ ∀ node ∈ cmd.nodes, node.Terminated

/-- At most nine plain words in every command. -/
def FewWords (line : Str) : Prop :=
  ∀ command ∈ commands line, command.args.length ≤ argsLength - 1

instance (line : Str) : Decidable (FewWords line) :=
  inferInstanceAs (Decidable (∀ command ∈ commands line, _))

theorem FewWords.roomy {line : Str} (few : FewWords line) :
    ∀ command ∈ commands line, command.Roomy :=
  fun command isMem => (few command isMem).trans (Nat.sub_le _ _)

theorem Command.terminated_iff (command : Command) (next : Option Nat) :
    (command.node next).Terminated ↔ command.args.length ≤ argsLength - 1 := by
  constructor
  · exact fun terminated => terminated.length
  · intro few
    have room : argsLength - command.args.length ≠ 0 := by
      unfold argsLength at few ⊢
      omega
    refine ⟨few, ?_, ?_⟩
    · rw [node, List.length_append, List.length_map, List.length_replicate,
        Nat.add_sub_cancel' (few.trans (Nat.sub_le _ _))]
    · simp [node, Nat.pos_of_ne_zero room]

theorem argumentsFit_iff_nodes (line : Str) :
    ArgumentsFit line ↔ (∀ command ∈ commands line, command.Roomy) ∧
      ∀ node ∈ chain 0 (commands line), node.Terminated := by
  rcases splitLine_iff line with ⟨pipeNum, parsed⟩
  exact parsed fun cmd => ∀ node ∈ cmd.nodes, node.Terminated

theorem fewWords_of_argumentsFit {line : Str} (fit : ArgumentsFit line) : FewWords line :=
  (forall_chain_iff Command.terminated_iff 0 _).mp ((argumentsFit_iff_nodes line).mp fit).2

/-- The arguments of a line fit in their arrays exactly when no command has more than nine
plain words. -/
theorem argumentsFit_iff (line : Str) : ArgumentsFit line ↔ FewWords line := by
  constructor
  · exact fewWords_of_argumentsFit
  · intro few
    apply (argumentsFit_iff_nodes line).mpr
    exact ⟨few.roomy, (forall_chain_iff Command.terminated_iff 0 _).mpr few⟩

/-- A line of `n` words `a`. -/
def repeated : Nat → Str
  | 0 => [97]
  | n + 1 => 97 :: space :: repeated n

/-- With ten words there is no `NULL`, and the eleventh is stored behind the array. -/
theorem not_argumentsFit_repeated :
    (Returned (repeated 9) ∧ ¬ArgumentsFit (repeated 9)) ∧
      Returned (repeated 10) ∧ splitLine (repeated 10) = none := by
  have ten : Returned (repeated 9) :=
    returned_of_text (by decide) (by decide) (by decide) (by decide) (by decide)
  have eleven : Returned (repeated 10) :=
    returned_of_text (by decide) (by decide) (by decide) (by decide) (by decide)
  refine ⟨⟨ten, fun fit => ?_⟩, eleven, by decide +kernel⟩
  exact absurd (fewWords_of_argumentsFit fit) (by decide +kernel)

end NckuOs.Shell
