import NckuOs.Lib.Words

/-!
# `command.c`: from a line to command nodes

The nodes are records in a heap, in the order of their allocation, and `next` is the
index of a node.  An argument is the token that it points to; nothing writes to a
token once `strtok` has cut it out of the line.
-/

namespace NckuOs.Shell

open NckuOs.Words

/-- A string without its NUL. -/
abbrev Str := List UInt8

/-- The blank that `strtok` splits at. -/
def space : UInt8 := 32

/-- The character `|`. -/
def bar : UInt8 := 124

/-- The character `<`. -/
def less : UInt8 := 60

/-- The character `>`. -/
def greater : UInt8 := 62

/-- `args_length`. -/
def argsLength : Nat := 10

/-- `struct cmd_node`.  The two descriptors are called `in` and `out` in the source. -/
structure CmdNode where
  args : List (Option Str)
  length : Nat
  inFile : Option Str
  outFile : Option Str
  inFd : Nat
  outFd : Nat
  next : Option Nat
  deriving DecidableEq, Repr

/-- `struct cmd` with the heap of its nodes. -/
structure Cmd where
  nodes : List CmdNode
  head : Nat
  pipeNum : Nat
  deriving DecidableEq, Repr

/-- A node as `split_line` fills it in before the first token. -/
def CmdNode.fresh : CmdNode where
  args := List.replicate argsLength none
  length := 0
  inFile := none
  outFile := none
  inFd := 0
  outFd := 1
  next := none

/-- The variables of the loop of `split_line`; `temp` is the index of a node. -/
structure Parse where
  nodes : List CmdNode
  temp : Nat
  pipeNum : Nat

namespace Parse

/-- Change the node that `temp` points to. -/
def update (parse : Parse) (change : CmdNode → CmdNode) : Parse :=
  { parse with nodes := parse.nodes.modify parse.temp change }

/-- `new_cmd->pipe_num++`. -/
def count (parse : Parse) : Parse :=
  { parse with pipeNum := parse.pipeNum + 1 }

/-- A `|`: allocate a node, link it behind `temp`, and go on with it. -/
def pipe (parse : Parse) : Parse :=
  let linked := parse.update fun node => { node with next := some parse.nodes.length }
  { linked with nodes := linked.nodes ++ [.fresh], temp := parse.nodes.length }

/-- `temp->args[temp->length] = token; temp->length++`.  A store behind the
allocated slots is undefined, and there is no result. -/
def pushArg (parse : Parse) (token : Str) : Option Parse :=
  match parse.nodes[parse.temp]? with
  | none => none
  | some temp =>
      if temp.length < temp.args.length then
        some (parse.update fun node =>
          { node with args := node.args.set node.length (some token), length := node.length + 1 })
      else none

end Parse

/-- The loop of `split_line`.  The list holds the tokens that the calls of `strtok`
will return; behind its end they return `NULL`. -/
def splitLoop : List Str → Parse → Option Parse
  | [], parse => some parse
  | token :: rest, parse =>
      if token.head? = some bar then splitLoop rest parse.pipe.count
      else if token.head? = some less then
        match rest with
        | [] => some (parse.update fun node => { node with inFile := none }).count
        | file :: rest =>
            splitLoop rest (parse.update fun node => { node with inFile := some file }).count
      else if token.head? = some greater then
        match rest with
        | [] => some (parse.update fun node => { node with outFile := none }).count
        | file :: rest =>
            splitLoop rest (parse.update fun node => { node with outFile := some file }).count
      else
        match parse.pushArg token with
        | none => none
        | some parse => splitLoop rest parse.count

/-- `split_line`; the line is what the buffer holds up to its NUL. -/
def splitLine (line : Str) : Option Cmd :=
  (splitLoop (words space (line.takeWhile fun c => c ≠ 0)) ⟨[.fresh], 0, 0⟩).map fun parse =>
    ⟨parse.nodes, 0, parse.pipeNum⟩

end NckuOs.Shell
