import Mathlib.Data.List.Forall2
import Mathlib.Data.List.Perm.Subperm
import NckuOs.Shell.Arguments

/-!
# What becomes of the words of a line

An operator is recognized by the first character of a token.  What is written directly
behind it is dropped, and of several files only the last stays.
-/

namespace NckuOs.Shell

open NckuOs.Words

/-- A text, unless there is none. -/
def glue (text : Str) : List Str :=
  if text = [] then [] else [text]

namespace Part

/-- What is written directly behind the operator. -/
def glued : Part → List Str
  | .arg _ => []
  | .input glued _ => glue glued
  | .output glued _ => glue glued

/-- What the line says in this part: the word, or the text behind the operator character. -/
def wanted : Part → List Str
  | .arg word => [word]
  | .input glued file => glue glued ++ file.toList
  | .output glued file => glue glued ++ file.toList

/-- The tokens of a part. -/
def tokens : Part → List Str
  | .arg word => [word]
  | .input glued file => (less :: glued) :: file.toList
  | .output glued file => (greater :: glued) :: file.toList

/-- Only the last operator of a line can be without a file. -/
def Complete : Part → Prop
  | .arg _ => True
  | .input _ file => file ≠ none
  | .output _ file => file ≠ none

end Part

namespace Command

/-- All that the line says in a command, apart from the operator characters. -/
def wanted (command : Command) : List Str :=
  glue command.glued ++ command.parts.flatMap Part.wanted

/-- The tokens of a command behind a `|`. -/
def tokens (command : Command) : List Str :=
  (bar :: command.glued) :: command.parts.flatMap Part.tokens

/-- Operators stand alone, and there is at most one of each kind. -/
@[mk_iff] structure Plain (command : Command) : Prop where
  pipe : command.glued = []
  operators : ∀ part ∈ command.parts, part.glued = []
  inputs : command.inputs.length ≤ 1
  outputs : command.outputs.length ≤ 1

instance (command : Command) : Decidable command.Plain :=
  decidable_of_iff' _ (plain_iff command)

end Command

/-- All that a node holds. -/
def CmdNode.words (node : CmdNode) : List Str :=
  node.args.filterMap id ++ node.inFile.toList ++ node.outFile.toList

/-- Every text of the line is in the node of its command, as often as the line has it. -/
def Kept (line : Str) : Prop :=
  ∃ cmd, splitLine line = some cmd ∧
    List.Forall₂ (fun command node => command.wanted.Subperm node.words) (commands line) cmd.nodes

/-- The operators of a line stand alone, and no command has two of a kind. -/
def OperatorsAlone (line : Str) : Prop :=
  ∀ command ∈ commands line, command.Plain

/-! ## Nothing of the line is left out -/

theorem Command.tokens_add (command : Command) (part : Part) :
    (command.add part).tokens = command.tokens ++ part.tokens := by
  simp [tokens, add]

theorem cons_tail {token : Str} {op : UInt8} (isOp : token.head? = some op) :
    op :: token.tail = token := by
  cases token with
  | nil => cases isOp
  | cons c rest =>
      rw [List.head?_cons, Option.some.injEq] at isOp
      rw [List.tail_cons, isOp]

/-- The commands have all tokens, in their order. -/
theorem tokens_commandsFrom (command : Command) (tokens : List Str) :
    (commandsFrom command tokens).flatMap Command.tokens = command.tokens ++ tokens := by
  fun_induction commandsFrom command tokens with
  | case1 command => rw [List.flatMap_singleton, List.append_nil]
  | case2 command token rest isBar ih =>
      rw [List.flatMap_cons, ih, Command.tokens, Command.tokens, cons_tail isBar]
      rfl
  | case3 command token notBar isLess =>
      rw [List.flatMap_singleton, Command.tokens_add, Part.tokens, cons_tail isLess]
      rfl
  | case4 command token notBar isLess file rest ih =>
      rw [ih, Command.tokens_add, Part.tokens, cons_tail isLess, List.append_assoc]
      rfl
  | case5 command token notBar notLess isGreater =>
      rw [List.flatMap_singleton, Command.tokens_add, Part.tokens, cons_tail isGreater]
      rfl
  | case6 command token notBar notLess isGreater file rest ih =>
      rw [ih, Command.tokens_add, Part.tokens, cons_tail isGreater, List.append_assoc]
      rfl
  | case7 command token rest notBar notLess notGreater ih =>
      rw [ih, Command.tokens_add, Part.tokens, List.append_assoc]
      rfl

/-- The runs of other characters than blanks in the line are the tokens of its commands. -/
theorem spells_commands (line : Str) :
    ∃ runs, Spells space (line.takeWhile fun c => c ≠ 0) runs ∧
      (commands line).flatMap Command.tokens = [bar] :: runs :=
  ⟨tokensOf line, spells_words space _, tokens_commandsFrom ⟨[], []⟩ _⟩

/-- Only the end of a line can be in the place of a file. -/
theorem complete_commandsFrom {command : Command} (complete : ∀ part ∈ command.parts, part.Complete)
    (tokens : List Str) :
    ∀ found ∈ commandsFrom command tokens, ∀ part ∈ found.parts.dropLast, part.Complete := by
  have addOne (command : Command) (complete : ∀ part ∈ command.parts, part.Complete)
      (part : Part) : ∀ found ∈ [command.add part], ∀ other ∈ found.parts.dropLast,
        other.Complete := by
    rw [List.forall_mem_singleton]
    simp only [Command.add, List.dropLast_concat]
    exact complete
  have addMore {command : Command} (part : Part) (last : part.Complete)
      (complete : ∀ part ∈ command.parts, part.Complete) :
      ∀ other ∈ (command.add part).parts, other.Complete := by
    simp only [Command.add, List.forall_mem_append, List.forall_mem_singleton]
    exact ⟨complete, last⟩
  fun_induction commandsFrom command tokens with
  | case1 command =>
      rw [List.forall_mem_singleton]
      exact fun part isMem => complete part (List.dropLast_subset _ isMem)
  | case2 command token rest isBar ih =>
      rw [List.forall_mem_cons]
      exact ⟨fun part isMem => complete part (List.dropLast_subset _ isMem),
        ih (List.forall_mem_nil _)⟩
  | case3 command token => exact addOne command complete _
  | case4 command token _ _ file rest ih =>
      exact ih (addMore (.input token.tail (some file)) (Option.some_ne_none file) complete)
  | case5 command token => exact addOne command complete _
  | case6 command token _ _ _ file rest ih =>
      exact ih (addMore (.output token.tail (some file)) (Option.some_ne_none file) complete)
  | case7 command token rest _ _ _ ih => exact ih (addMore (.arg token) trivial complete)

/-! ## One command -/

theorem filterMap_cons_toList {α β : Type} (pick : α → Option β) (first : α) (rest : List α) :
    (first :: rest).filterMap pick = (pick first).toList ++ rest.filterMap pick := by
  cases picked : pick first with
  | none => simp [picked]
  | some value => simp [picked]

theorem Part.wanted_perm (part : Part) :
    part.wanted.Perm (part.glued ++ part.arg?.toList ++ part.input?.toList.filterMap id ++
      part.output?.toList.filterMap id) := by
  cases part with
  | arg word => exact .refl _
  | input glued file => cases file <;> simp [wanted, Part.glued, arg?, input?, output?]
  | output glued file => cases file <;> simp [wanted, Part.glued, arg?, input?, output?]

/-- What the line says, sorted: what stands behind operators, arguments and files. -/
theorem wanted_perm (parts : List Part) :
    (parts.flatMap Part.wanted).Perm (parts.flatMap Part.glued ++ parts.filterMap Part.arg? ++
      (parts.filterMap Part.input?).filterMap id ++
      (parts.filterMap Part.output?).filterMap id) := by
  rw [List.perm_iff_count]
  intro text
  induction parts with
  | nil => rfl
  | cons part parts ih =>
      have first := part.wanted_perm.count_eq text
      simp only [List.flatMap_cons, filterMap_cons_toList, List.filterMap_append,
        List.count_append] at first ih ⊢
      omega

theorem Command.words_node (command : Command) (next : Option Nat) :
    (command.node next).words = command.args ++ command.inputs.getLast?.join.toList ++
      command.outputs.getLast?.join.toList := by
  simp [CmdNode.words, node, List.filterMap_append, List.filterMap_map]

/-- Of files that are all there up to the last, none is lost when there is no other. -/
theorem length_files {files : List (Option Str)} (complete : none ∉ files.dropLast) :
    (files.filterMap id).length = files.length - 1 + files.getLast?.join.toList.length := by
  rcases List.eq_nil_or_concat' files with rfl | ⟨front, last, rfl⟩
  · rfl
  · rw [List.dropLast_concat] at complete
    have allThere : (front.filterMap id).length = front.length := by
      rw [List.filterMap_length_eq_length]
      intro file isMem
      rw [id, Option.isSome_iff_ne_none]
      rintro rfl
      exact complete isMem
    rw [filterMap_concat, List.length_append, allThere]
    simp

theorem notMem_files_of_complete {parts : List Part} (pick : Part → Option (Option Str))
    (fromPart : ∀ part, part.Complete → pick part ≠ some none)
    (complete : ∀ part ∈ parts.dropLast, part.Complete) :
    none ∉ (parts.filterMap pick).dropLast := by
  rcases List.eq_nil_or_concat' parts with rfl | ⟨front, last, rfl⟩
  · exact List.not_mem_nil
  · rw [List.dropLast_concat] at complete
    have inFront : none ∉ front.filterMap pick := by
      intro isMem
      rcases List.mem_filterMap.mp isMem with ⟨part, inParts, picked⟩
      exact fromPart part (complete part inParts) picked
    rw [filterMap_concat]
    cases picked : pick last with
    | none =>
        rw [Option.toList_none, List.append_nil]
        exact fun isMem => inFront (List.dropLast_subset _ isMem)
    | some file =>
        rw [Option.toList_some, List.dropLast_concat]
        exact inFront

theorem glue_eq_nil_iff {text : Str} : glue text = [] ↔ text = [] := by
  unfold glue
  split
  next nothing => simp [nothing]
  next some => simp [some]

/-- A node holds what its command says exactly when the operators stand alone. -/
theorem Command.subperm_iff {command : Command}
    (complete : ∀ part ∈ command.parts.dropLast, part.Complete) (next : Option Nat) :
    command.wanted.Subperm (command.node next).words ↔ command.Plain := by
  have inputsComplete : none ∉ command.inputs.dropLast := by
    apply notMem_files_of_complete Part.input? _ complete
    intro part isComplete same
    cases part <;> cases same
    exact isComplete rfl
  have outputsComplete : none ∉ command.outputs.dropLast := by
    apply notMem_files_of_complete Part.output? _ complete
    intro part isComplete same
    cases part <;> cases same
    exact isComplete rfl
  have inputs := length_files inputsComplete
  have outputs := length_files outputsComplete
  have sorted : command.wanted.Perm (glue command.glued ++ command.parts.flatMap Part.glued ++
      command.args ++ command.inputs.filterMap id ++ command.outputs.filterMap id) := by
    have parts := (wanted_perm command.parts).append_left (glue command.glued)
    simpa only [wanted, args, Command.inputs, Command.outputs, List.append_assoc] using parts
  rw [command.words_node]
  constructor
  · intro kept
    have size := kept.length_le
    rw [sorted.length_eq] at size
    simp only [List.length_append] at size
    have noGlue : (glue command.glued).length = 0 := by omega
    have noGlued : (command.parts.flatMap Part.glued).length = 0 := by omega
    refine ⟨?_, ?_, by omega, by omega⟩
    · exact glue_eq_nil_iff.mp (List.eq_nil_of_length_eq_zero noGlue)
    · exact List.flatMap_eq_nil_iff.mp (List.eq_nil_of_length_eq_zero noGlued)
  · intro plain
    have noGlue : glue command.glued = [] := glue_eq_nil_iff.mpr plain.pipe
    have noGlued : command.parts.flatMap Part.glued = [] :=
      List.flatMap_eq_nil_iff.mpr plain.operators
    have oneFile {files : List (Option Str)} (few : files.length ≤ 1) :
        files.filterMap id = files.getLast?.join.toList := by
      rcases files with _ | ⟨file, _ | ⟨second, rest⟩⟩
      · rfl
      · cases file <;> rfl
      · exact absurd few (Nat.not_le_of_lt (Nat.le_add_left 2 rest.length))
    rw [noGlue, noGlued, oneFile plain.inputs, oneFile plain.outputs] at sorted
    exact sorted.subperm

/-! ## The whole line -/

theorem forall₂_chain_iff {R : Command → CmdNode → Prop} {Q : Command → Prop} (k : Nat)
    (all : List Command)
    (each : ∀ command ∈ all, ∀ next, R command (command.node next) ↔ Q command) :
    List.Forall₂ R all (chain k all) ↔ ∀ command ∈ all, Q command := by
  induction all generalizing k with
  | nil =>
      rw [chain]
      exact iff_of_true .nil (List.forall_mem_nil Q)
  | cons command rest ih =>
      rw [List.forall_mem_cons] at each ⊢
      rw [chain, List.forall₂_cons, each.1, ih (k + 1) each.2]

theorem kept_iff_operators (line : Str) :
    Kept line ↔ (∀ command ∈ commands line, command.Roomy) ∧ OperatorsAlone line := by
  rcases splitLine_iff line with ⟨pipeNum, parsed⟩
  have complete : ∀ command ∈ commands line, ∀ part ∈ command.parts.dropLast, part.Complete :=
    complete_commandsFrom (List.forall_mem_nil _) (tokensOf line)
  rw [Kept, parsed fun cmd => List.Forall₂ (fun command node =>
    command.wanted.Subperm node.words) (commands line) cmd.nodes]
  dsimp only
  rw [forall₂_chain_iff 0 (commands line) fun command isMem next =>
    command.subperm_iff (complete command isMem) next]
  rfl

/-- With at most nine plain words in every command, nothing of a line is lost exactly when
its operators stand alone and no command has two of a kind. -/
theorem kept_iff {line : Str} (few : FewWords line) : Kept line ↔ OperatorsAlone line := by
  rw [kept_iff_operators]
  exact and_iff_right few.roomy

/-- The line `a | b`. -/
theorem kept_pipe : Kept [97, space, bar, space, 98] := by
  have few : FewWords [97, space, bar, space, 98] := by decide +kernel
  have alone : ∀ command ∈ commands [97, space, bar, space, 98], command.Plain := by
    decide +kernel
  exact (kept_iff few).mpr alone

/-- In `a |b` the `b` is lost, in `a <b c` the `c` is taken for the file, and in `a < b < c`
only the second file stays. -/
theorem not_kept_glued :
    (FewWords [97, space, bar, 98] ∧ ¬Kept [97, space, bar, 98]) ∧
      (FewWords [97, space, less, 98, space, 99] ∧ ¬Kept [97, space, less, 98, space, 99]) ∧
      FewWords [97, space, less, space, 98, space, less, space, 99] ∧
        ¬Kept [97, space, less, space, 98, space, less, space, 99] := by
  have notAlone {line : Str} (found : ∃ command ∈ commands line, ¬command.Plain) :
      ¬Kept line := by
    rcases found with ⟨command, isMem, notPlain⟩
    exact fun kept => notPlain (((kept_iff_operators line).mp kept).2 command isMem)
  exact ⟨⟨by decide +kernel, notAlone (by decide +kernel)⟩,
    ⟨by decide +kernel, notAlone (by decide +kernel)⟩, by decide +kernel,
    notAlone (by decide +kernel)⟩

end NckuOs.Shell
