import Mathlib.Algebra.GroupWithZero.Nat
import NckuOs.Shell.Command

/-!
# Lines that spell a pipeline

A pipeline is a list of stages, and a stage is a list of arguments and redirections
in any order.  `split_line` takes a line that spells it apart into one node for each
stage.
-/

namespace NckuOs.Shell

open NckuOs.Words

/-- A word of a line: not empty, without blank and without NUL. -/
structure IsWord (word : Str) : Prop where
  nonempty : word ≠ []
  noSpace : space ∉ word
  noNul : 0 ∉ word

/-- A part of a command. -/
inductive Item
  | arg (word : Str)
  | input (file : Str)
  | output (file : Str)

namespace Item

/-- An argument does not begin like an operator. -/
def Valid : Item → Prop
  | .arg word => IsWord word ∧ ∀ op ∈ [bar, less, greater], word.head? ≠ some op
  | .input file => IsWord file
  | .output file => IsWord file

/-- The operator is a token of its own. -/
def tokens : Item → List Str
  | .arg word => [word]
  | .input file => [[less], file]
  | .output file => [[greater], file]

/-- The arguments among the items. -/
def args (items : List Item) : List Str :=
  items.filterMap fun
    | .arg word => some word
    | _ => none

/-- The input files among the items. -/
def inputs (items : List Item) : List Str :=
  items.filterMap fun
    | .input file => some file
    | _ => none

/-- The output files among the items. -/
def outputs (items : List Item) : List Str :=
  items.filterMap fun
    | .output file => some file
    | _ => none

end Item

/-- A command with at most nine arguments.  Where a file is named twice the last one
counts. -/
structure Stage where
  items : List Item
  valid : ∀ item ∈ items, item.Valid
  fewArgs : (Item.args items).length ≤ 9

/-- The tokens of a command. -/
def itemTokens (items : List Item) : List Str :=
  items.flatMap Item.tokens

/-- The tokens of a line, with `|` between the commands. -/
def lineTokens : List Stage → List Str
  | [] => []
  | [stage] => itemTokens stage.items
  | stage :: rest => itemTokens stage.items ++ [bar] :: lineTokens rest

/-- The node of a command: its arguments, then `NULL` up to the end of the array. -/
def nodeOf (items : List Item) (next : Option Nat) : CmdNode where
  args := (Item.args items).map some ++
    List.replicate (argsLength - (Item.args items).length) none
  length := (Item.args items).length
  inFile := (Item.inputs items).getLast?
  outFile := (Item.outputs items).getLast?
  inFd := 0
  outFd := 1
  next := next

/-- The nodes of a pipeline from index `k` on, each linked to the next. -/
def linked : Nat → List Stage → List CmdNode
  | _, [] => []
  | _, [stage] => [nodeOf stage.items none]
  | k, stage :: rest => nodeOf stage.items (some (k + 1)) :: linked (k + 1) rest

/-- Behind the last argument there is a `NULL` inside the array. -/
theorem nodeOf_args_null {items : List Item} (fewArgs : (Item.args items).length ≤ 9)
    (next : Option Nat) :
    (nodeOf items next).args[(nodeOf items next).length]? = some none := by
  have room : argsLength - (Item.args items).length ≠ 0 := by
    unfold argsLength
    omega
  simp [nodeOf, Nat.pos_of_ne_zero room]

/-! ## One item -/

theorem modify_last {α : Type} (front : List α) (last : α) (change : α → α) :
    (front ++ [last]).modify front.length change = front ++ [change last] := by
  induction front with
  | nil => rfl
  | cons first front ih =>
      rw [List.cons_append, List.length_cons, List.modify_succ_cons, ih, List.cons_append]

/-- The loop at a command of which `items` have been read, behind the nodes
`front`. -/
def parseOf (front : List CmdNode) (items : List Item) (pipeNum : Nat) : Parse :=
  ⟨front ++ [nodeOf items none], front.length, pipeNum⟩

variable (front : List CmdNode) (items : List Item) (pipeNum : Nat)

theorem parseOf_update (change : CmdNode → CmdNode) :
    (parseOf front items pipeNum).update change =
      ⟨front ++ [change (nodeOf items none)], front.length, pipeNum⟩ := by
  simp only [parseOf, Parse.update, modify_last]

/-- The first free slot is behind the words that have been stored. -/
theorem set_firstFree {words : List Str} (word : Str) {slots : Nat}
    (room : words.length < slots) :
    (words.map some ++ List.replicate (slots - words.length) none).set words.length
        (some word) =
      (words ++ [word]).map some ++ List.replicate (slots - (words.length + 1)) none := by
  have free : slots - words.length = slots - (words.length + 1) + 1 := by omega
  rw [free, List.replicate_succ, List.set_append_right (h := by simp)]
  simp

/-- An argument is stored in the first free slot. -/
theorem nodeOf_push (next : Option Nat) (word : Str)
    (room : (Item.args items).length < argsLength) :
    nodeOf (items ++ [.arg word]) next =
      { nodeOf items next with
        args := (nodeOf items next).args.set (nodeOf items next).length (some word)
        length := (nodeOf items next).length + 1 } := by
  have args : Item.args (items ++ [.arg word]) = Item.args items ++ [word] := by
    simp [Item.args]
  have inputs : Item.inputs (items ++ [.arg word]) = Item.inputs items := by
    simp [Item.inputs]
  have outputs : Item.outputs (items ++ [.arg word]) = Item.outputs items := by
    simp [Item.outputs]
  simp only [nodeOf, args, inputs, outputs, set_firstFree word room, List.length_append,
    List.length_cons, List.length_nil, Nat.zero_add]

theorem parseOf_pushArg (word : Str) (room : (Item.args items).length < argsLength) :
    (parseOf front items pipeNum).pushArg word =
      some (parseOf front (items ++ [.arg word]) pipeNum) := by
  have here : (parseOf front items pipeNum).nodes[(parseOf front items pipeNum).temp]? =
      some (nodeOf items none) := by
    simp [parseOf]
  have inside : (nodeOf items none).length < (nodeOf items none).args.length := by
    simp only [nodeOf, List.length_append, List.length_map, List.length_replicate]
    omega
  simp only [Parse.pushArg, here, if_pos inside, parseOf_update]
  rw [parseOf, nodeOf_push items none word room]

/-- One item of a command. -/
theorem splitLoop_item {item : Item} (valid : item.Valid)
    (room : (Item.args items).length < argsLength) (rest : List Str) :
    splitLoop (item.tokens ++ rest) (parseOf front items pipeNum) =
      splitLoop rest (parseOf front (items ++ [item]) (pipeNum + 1)) := by
  cases item with
  | arg word =>
      rcases valid with ⟨_, notOp⟩
      have notBar := notOp bar (by simp)
      have notLess := notOp less (by simp)
      have notGreater := notOp greater (by simp)
      rw [Item.tokens, List.singleton_append, splitLoop.eq_def]
      simp only [if_neg notBar, if_neg notLess, if_neg notGreater,
        parseOf_pushArg front items pipeNum word room]
      rfl
  | input file =>
      have notBar : ¬[less].head? = some bar := by decide
      have isLess : [less].head? = some less := rfl
      have stored : nodeOf (items ++ [.input file]) none =
          { nodeOf items none with inFile := some file } := by
        simp [nodeOf, Item.args, Item.inputs, Item.outputs]
      simp only [Item.tokens, List.cons_append, List.nil_append, splitLoop, if_neg notBar,
        if_pos isLess, parseOf_update]
      rw [parseOf, stored]
      rfl
  | output file =>
      have notBar : ¬[greater].head? = some bar := by decide
      have notLess : ¬[greater].head? = some less := by decide
      have isGreater : [greater].head? = some greater := rfl
      have stored : nodeOf (items ++ [.output file]) none =
          { nodeOf items none with outFile := some file } := by
        simp [nodeOf, Item.args, Item.inputs, Item.outputs]
      simp only [Item.tokens, List.cons_append, List.nil_append, splitLoop, if_neg notBar,
        if_neg notLess, if_pos isGreater, parseOf_update]
      rw [parseOf, stored]
      rfl

/-! ## One command -/

/-- The items of a command one after another. -/
theorem splitLoop_items (more : List Item) (valid : ∀ item ∈ more, item.Valid)
    (fewArgs : (Item.args (items ++ more)).length ≤ 9) (rest : List Str) :
    splitLoop (itemTokens more ++ rest) (parseOf front items pipeNum) =
      splitLoop rest (parseOf front (items ++ more) (pipeNum + more.length)) := by
  induction more generalizing items pipeNum with
  | nil => simp [itemTokens]
  | cons item more ih =>
      have room : (Item.args items).length < argsLength := by
        simp only [Item.args, List.filterMap_append, List.length_append] at fewArgs
        simp only [Item.args, argsLength]
        omega
      have split : items ++ item :: more = items ++ [item] ++ more := by simp
      rw [split] at fewArgs ⊢
      have first := splitLoop_item front items pipeNum
        (valid item List.mem_cons_self) room (itemTokens more ++ rest)
      have others := ih (items ++ [item]) (pipeNum + 1)
        (fun other isMem => valid other (List.mem_cons_of_mem _ isMem)) fewArgs
      rw [itemTokens, List.flatMap_cons, List.append_assoc]
      rw [itemTokens] at first others
      rw [first, others, List.length_cons]
      congr 2
      omega

/-- A `|` behind a command. -/
theorem parseOf_pipe :
    (parseOf front items pipeNum).pipe =
      parseOf (front ++ [nodeOf items (some (front.length + 1))]) [] pipeNum := by
  have count : (parseOf front items pipeNum).nodes.length = front.length + 1 := by
    simp [parseOf]
  simp only [Parse.pipe, parseOf_update, count]
  simp [parseOf, nodeOf, CmdNode.fresh, Item.args, Item.inputs, Item.outputs]

/-- The number of items and separators. -/
def rounds (stages : List Stage) : Nat :=
  (stages.map fun stage => stage.items.length + 1).sum - 1

theorem lineTokens_cons_cons (stage second : Stage) (rest : List Stage) :
    lineTokens (stage :: second :: rest) =
      itemTokens stage.items ++ [bar] :: lineTokens (second :: rest) := rfl

theorem linked_cons_cons (k : Nat) (stage second : Stage) (rest : List Stage) :
    linked k (stage :: second :: rest) =
      nodeOf stage.items (some (k + 1)) :: linked (k + 1) (second :: rest) := rfl

/-- The commands of a line one after another. -/
theorem splitLoop_stages (stages : List Stage) (nonempty : stages ≠ []) :
    splitLoop (lineTokens stages) (parseOf front [] pipeNum) =
      some ⟨front ++ linked front.length stages, front.length + (stages.length - 1),
        pipeNum + rounds stages⟩ := by
  induction stages generalizing front pipeNum with
  | nil => exact absurd rfl nonempty
  | cons stage rest ih =>
      have items := splitLoop_items front [] pipeNum stage.items stage.valid stage.fewArgs
      cases rest with
      | nil =>
          have all := items []
          rw [List.append_nil] at all
          rw [lineTokens, all, splitLoop]
          rfl
      | cons second rest =>
          have isBar : [bar].head? = some bar := rfl
          have others := ih (front ++ [nodeOf stage.items (some (front.length + 1))])
            (pipeNum + stage.items.length + 1) (List.cons_ne_nil second rest)
          have counted : pipeNum + stage.items.length + 1 + rounds (second :: rest) =
              pipeNum + rounds (stage :: second :: rest) := by
            simp only [rounds, List.map_cons, List.sum_cons]
            omega
          rw [lineTokens_cons_cons, items, splitLoop.eq_def]
          simp only [if_pos isBar, List.nil_append, parseOf_pipe]
          rw [counted] at others
          rw [linked_cons_cons]
          simp only [List.length_append, List.length_cons, List.length_nil, Nat.zero_add,
            List.append_assoc, List.cons_append, List.nil_append] at others ⊢
          have last : front.length + 1 + (rest.length + 1 - 1) =
              front.length + (rest.length + 1 + 1 - 1) := by omega
          rw [last] at others
          exact others

/-! ## Whole lines -/

theorem itemTokens_noNul {items : List Item} (valid : ∀ item ∈ items, item.Valid) :
    ∀ token ∈ itemTokens items, 0 ∉ token := by
  intro token isMem
  rcases List.mem_flatMap.mp isMem with ⟨item, inItems, isToken⟩
  have itemValid := valid item inItems
  cases item with
  | arg word =>
      rcases List.mem_singleton.mp isToken with rfl
      exact itemValid.1.noNul
  | input file =>
      rcases List.mem_cons.mp isToken with rfl | isFile
      · decide
      · rcases List.mem_singleton.mp isFile with rfl
        exact itemValid.noNul
  | output file =>
      rcases List.mem_cons.mp isToken with rfl | isFile
      · decide
      · rcases List.mem_singleton.mp isFile with rfl
        exact itemValid.noNul

theorem lineTokens_noNul (stages : List Stage) : ∀ token ∈ lineTokens stages, 0 ∉ token := by
  induction stages with
  | nil =>
      intro token isMem
      cases isMem
  | cons stage rest ih =>
      have first := itemTokens_noNul stage.valid
      cases rest with
      | nil => exact first
      | cons second rest =>
          intro token isMem
          rw [lineTokens_cons_cons, List.mem_append, List.mem_cons] at isMem
          rcases isMem with inFirst | rfl | inRest
          · exact first token inFirst
          · decide
          · exact ih token inRest

theorem linked_args_null (stages : List Stage) (k : Nat) :
    ∀ node ∈ linked k stages, node.args[node.length]? = some none := by
  induction stages generalizing k with
  | nil =>
      intro node isMem
      cases isMem
  | cons stage rest ih =>
      intro node isMem
      cases rest with
      | nil =>
          rcases List.mem_singleton.mp isMem with rfl
          exact nodeOf_args_null stage.fewArgs none
      | cons second rest =>
          rcases List.mem_cons.mp isMem with rfl | others
          · exact nodeOf_args_null stage.fewArgs _
          · exact ih (k + 1) node others

/-- `split_line` gives back the pipeline that a line spells: one node for each command,
in order, with a `NULL` behind its last argument. -/
theorem split_line_round_trip {stages : List Stage} {line : Str} (nonempty : stages ≠ [])
    (spells : Spells space line (lineTokens stages)) :
    splitLine line = some ⟨linked 0 stages, 0, rounds stages⟩ ∧
      ∀ node ∈ linked 0 stages, node.args[node.length]? = some none := by
  have noNul : ∀ c ∈ line, decide (c ≠ 0) = true := by
    intro c isMem
    rw [decide_eq_true_eq]
    rintro rfl
    rcases spells.mem isMem with isDelim | ⟨word, inWords, inWord⟩
    · cases isDelim
    · exact lineTokens_noNul stages word inWords inWord
  have whole : line.takeWhile (fun c => decide (c ≠ 0)) = line :=
    List.takeWhile_eq_self_iff.mpr noNul
  have start : (⟨[.fresh], 0, 0⟩ : Parse) = parseOf [] [] 0 := rfl
  have parsed := splitLoop_stages [] 0 stages nonempty
  refine ⟨?_, linked_args_null stages 0⟩
  rw [splitLine, whole, spells.words_eq, start, parsed, Option.map_some, List.nil_append,
    Nat.zero_add, List.length_nil]

/-- The line `ls <  a | wc`. -/
theorem split_line_round_trip_twoStages :
    splitLine [108, 115, 32, 60, 32, 32, 97, 32, 124, 32, 119, 99] =
      some ⟨[nodeOf [.arg [108, 115], .input [97]] (some 1), nodeOf [.arg [119, 99]] none],
        0, 4⟩ := by
  have ls : IsWord [108, 115] := ⟨by decide, by decide, by decide⟩
  have a : IsWord [97] := ⟨by decide, by decide, by decide⟩
  have wc : IsWord [119, 99] := ⟨by decide, by decide, by decide⟩
  have input : IsWord [less] := ⟨by decide, by decide, by decide⟩
  have pipe : IsWord [bar] := ⟨by decide, by decide, by decide⟩
  let first : Stage :=
    { items := [.arg [108, 115], .input [97]]
      valid := List.forall_mem_cons.mpr
        ⟨⟨ls, by simp [bar, less, greater]⟩,
          List.forall_mem_cons.mpr ⟨a, List.forall_mem_nil _⟩⟩
      fewArgs := by decide }
  let second : Stage :=
    { items := [.arg [119, 99]]
      valid := List.forall_mem_cons.mpr
        ⟨⟨wc, by simp [bar, less, greater]⟩, List.forall_mem_nil _⟩
      fewArgs := by decide }
  have spells : Spells space [108, 115, 32, 60, 32, 32, 97, 32, 124, 32, 119, 99]
      (lineTokens [first, second]) :=
    .cons 0 ls.nonempty ls.noSpace (.cons 0 input.nonempty input.noSpace
      (.cons 1 a.nonempty a.noSpace (.cons 0 pipe.nonempty pipe.noSpace
        (.last 0 wc.nonempty wc.noSpace))))
  exact (split_line_round_trip (List.cons_ne_nil first [second]) spells).1

end NckuOs.Shell
