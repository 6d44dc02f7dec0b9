import Mathlib.Algebra.Ring.Nat
import SyssoftLabs.Framework.Heap
import SyssoftLabs.Lab4.Parser.Tokens

/-!
# From tokens to commands

`make_cmdv` runs one index over the vector of tokens. `make_cmd` moves a range of the vector into a
new command and clears it. The commands are reached through the reused array of `main`, whose later
entries an earlier line may have left behind. Allocations succeed: a failed one ends the shell.
-/

namespace SyssoftLabs.Lab4

open SyssoftLabs.Framework

/-- `struct cmd` as the parser fills it. A file name is `none` until it is assigned, and then what
was copied; `Cmd.later` says what is left of it. -/
structure Cmd where
  argc : Nat
  argv : List (Option CStr)
  /-- The field `in`. -/
  input : Nat
  out : Nat
  piped : Bool
  bg : Bool
  redirect : Bool
  rappend : Bool
  rfilename : Option CStr
  redirectIn : Bool
  rifilename : Option CStr
deriving DecidableEq, Repr

/-- A file name later on. Its block has `strlen(args[i+1]+1)` bytes, one less than the name. -/
def laterName (mem : Arena nul) (file : CStr) : CStr := mem.kept (file.length - 1) file

/-- The command as it is read when other blocks have been asked for. -/
def Cmd.later (mem : Arena nul) (c : Cmd) : Cmd :=
  { c with
    rfilename := c.rfilename.map (laterName mem)
    rifilename := c.rifilename.map (laterName mem) }

/-- The memory and the locals of `make_cmdv`. -/
structure Parser where
  args : List (Option CStr)
  heap : Heap Cmd
  commands : Nat → Ptr
  first : Nat
  length : Nat
  i : Nat
  pipeNext : Bool
  /-- The ranges `make_cmd` was called with, kept for the statements. -/
  calls : List (Nat × Nat)

/-- How the loop of `make_cmdv` is left before its end. -/
inductive Halt
  | returnFalse (s : Parser)
  | stuck (e : Stuck)

def sizeMax : Nat := 2 ^ 64 - 1

/-- `n - 1` on a `size_t`. -/
def sizePred (n : Nat) : Nat := if n = 0 then sizeMax else n - 1

namespace Parser

/-- `args[i]`. -/
def arg (s : Parser) (i : Nat) : Except Halt (Option CStr) :=
  match s.args[i]? with
  | none => .error (.stuck .fault)
  | some a => .ok a

/-- `*commands[j]`. -/
def command (s : Parser) (j : Nat) : Except Halt Cmd :=
  match s.commands j with
  | none => .error (.stuck .fault)
  | some a =>
      match s.heap.cell a with
      | none => .error (.stuck .fault)
      | some c => .ok c

/-- Assignments to fields of `*commands[j]`. -/
def assign (s : Parser) (j : Nat) (f : Cmd → Cmd) : Except Halt Parser :=
  match s.commands j with
  | none => .error (.stuck .fault)
  | some a =>
      match hc : s.heap.cell a with
      | none => .error (.stuck .fault)
      | some c => .ok { s with heap := s.heap.set a (f c) (by simp [hc]) }

/-- `free_cmd(commands[j])`. -/
def freeCmd (s : Parser) (j : Nat) : Except Halt Parser :=
  match s.commands j with
  | none => .error (.stuck .fault)
  | some a =>
      match s.heap.cell a with
      | none => .error (.stuck .fault)
      | some _ => .ok { s with heap := s.heap.erase a }

end Parser

/-- The command `make_cmd` builds from its copied range. -/
def newCmd (argv : List (Option CStr)) : Cmd where
  argc := argv.length
  argv := argv ++ [none]
  input := 0
  out := 1
  piped := false
  bg := false
  redirect := false
  rappend := false
  rfilename := none
  redirectIn := false
  rifilename := none

/-- `make_cmd`: the command, and the vector with the range cleared. -/
def makeCmd (args : List (Option CStr)) (first last : Nat) :
    Except Halt (Cmd × List (Option CStr)) :=
  if last < first ∨ args.length ≤ last then .error (.stuck .fault)
  else
    let n := last + 1 - first
    .ok (newCmd ((args.drop first).take n),
      args.take first ++ List.replicate n none ++ args.drop (last + 1))

/-- `commands[length] = make_cmd(args, first, last)`. -/
def addCommand (s : Parser) (token : CStr) : Except Halt Parser := do
  let last := if startsSeparator token then sizePred s.i else s.i
  let (c, args) ← makeCmd s.args s.first last
  return { s with
    args := args
    heap := s.heap.push c
    commands := Function.update s.commands s.length (some s.heap.fresh)
    calls := s.calls ++ [(s.first, last)] }

def connectInput (s : Parser) : Except Halt Parser :=
  if s.pipeNext then s.assign s.length fun c => { c with input := 2 } else .ok s

/-- The command in front of a pipe into nothing is freed, and the line rejected. -/
def dropCommand (s : Parser) : Except Halt Parser := do
  let s ← s.freeCmd s.length
  throw (.returnFalse { s with commands := Function.update s.commands s.length none })

/-- What a pipe leads to. -/
def pipeTarget (s : Parser) : Except Halt Parser := do
  match ← s.arg (s.i + 1) with
  | none => dropCommand s
  | some token => if startsSeparator token then dropCommand s else return s

def pipes (s : Parser) : Except Halt Parser := do
  let s ← connectInput s
  if (← s.arg s.i) = some ['|'] then
    let s ← s.assign s.length fun c => { c with out := 2, piped := true }
    pipeTarget { s with pipeNext := true }
  else return { s with pipeNext := false }

/-- The operand of the second `>` at `i`. -/
def appendOperand (s : Parser) : Except Halt Parser := do
  match ← s.arg (s.i + 1) with
  | none => throw (.returnFalse s)
  | some file =>
      let s ← s.assign s.length fun c =>
        { c with rappend := true, redirect := true, rfilename := some file }
      return { s with i := s.i + 2 }

/-- The operand of the `>` at `i`, which may be one more `>`. -/
def outputOperand (s : Parser) : Except Halt Parser := do
  match ← s.arg (s.i + 1) with
  | none => throw (.returnFalse s)
  | some file =>
      if file = ['>'] then appendOperand { s with i := s.i + 1 }
      else
        let s ← s.assign s.length fun c => { c with redirect := true, rfilename := some file }
        return { s with i := s.i + 2 }

def outputRedirection (s : Parser) : Except Halt Parser := do
  if (← s.arg s.i) = some ['>'] then
    if (← s.command s.length).piped then throw (.returnFalse s) else outputOperand s
  else return s

/-- The operand of the `<` at `i`. -/
def inputOperand (s : Parser) : Except Halt Parser := do
  match ← s.arg (s.i + 1) with
  | none => throw (.returnFalse s)
  | some file =>
      let s ← s.assign s.length fun c => { c with redirectIn := true, rifilename := some file }
      return { s with i := s.i + 2 }

def inputRedirection (s : Parser) : Except Halt Parser := do
  if (← s.arg s.i) = some ['<'] then
    if (← s.command s.length).piped then throw (.returnFalse s) else inputOperand s
  else return s

/-- The loop over `j` that marks earlier commands; `j` runs upwards. -/
def backgroundStep : Parser × Nat → Except Halt (Parser × Nat ⊕ Parser)
  | (s, j) => do
      if (← s.command j).out > 1 then
        let s ← s.assign j fun c => { c with bg := true }
        return .inl (s, j + 1)
      else return .inr s

def background (s : Parser) : Except Halt Parser := do
  if (← s.arg s.i) = some ['&'] then
    let s ← s.assign s.length fun c => { c with bg := true }
    -- `j` is signed: without an earlier command it starts at `-1`
    if s.length = 0 then return s
    else loop backgroundStep (.stuck .unfinished) s.args.length (s, s.length - 1)
  else return s

/-- How far the next word is, and whether there is one before the `NULL`. -/
def nextWord : List (Option CStr) → Except Halt (Nat × Bool)
  | [] => .error (.stuck .fault)
  | none :: _ => .ok (0, false)
  | some token :: args =>
      if startsSeparator token then do
        let (n, found) ← nextWord args
        return (n + 1, found)
      else .ok (0, true)

def skipSeparators (s : Parser) : Except Halt Parser := do
  let (n, found) ← nextWord (s.args.drop s.i)
  let i := s.i + n
  return { s with i := i, first := if found then i else s.first }

/-- The end of the round, behind a pipe or without one. -/
def finishCommand (s : Parser) : Except Halt Parser := do
  let s ← outputRedirection s
  let s ← inputRedirection s
  let s ← background s
  skipSeparators { s with
    length := s.length + 1
    commands := Function.update s.commands (s.length + 1) none }

/-- The body of the loop at a separator or at the last token. -/
def endCommand (s : Parser) (token : CStr) : Except Halt Parser := do
  let s ← addCommand s token
  let s ← pipes s
  finishCommand s

/-- One round of the loop over `i`, the `++i` at its end included. After `endCommand` the index
stays: `--i` and `++i` cancel, on a `size_t` also at zero. -/
def makeCmdvStep (s : Parser) : Except Halt (Parser ⊕ Parser) := do
  match ← s.arg s.i with
  | none => return .inr s
  | some token =>
      let ends ← if startsSeparator token then pure true
        else Option.isNone <$> s.arg (s.i + 1)
      if ends then return .inl (← endCommand s token)
      else return .inl { s with i := s.i + 1 }

/-- `make_cmdv`: its result, and the memory it leaves. Every round but the last consumes a token,
so that the length of the vector bounds the rounds. -/
def makeCmdv (args : List (Option CStr)) (heap : Heap Cmd) (commands : Nat → Ptr) :
    Except Stuck (Bool × Parser) :=
  match loop makeCmdvStep (.stuck .unfinished) (args.length + 1)
      ⟨args, heap, commands, 0, 0, 0, false, []⟩ with
  | .ok s => .ok (true, s)
  | .error (.returnFalse s) => .ok (false, s)
  | .error (.stuck e) => .error e

end SyssoftLabs.Lab4
