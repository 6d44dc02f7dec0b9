import SyssoftLabs.Lab4.Editor.Cursor
import SyssoftLabs.Lab4.ErrorCode
import SyssoftLabs.Lab4.Parser.Rejection
import SyssoftLabs.Lab4.Parser.RoundTrip
import SyssoftLabs.Lab4.Shell.Model
import SyssoftLabs.Lab4.Variables

/-!
# From keys to commands

The loop of `main` in the first process of the shell: it reads a line from the terminal, cuts and
parses it, starts its commands and sets `?` and `_`. What becomes of the processes it starts is
given. Where one of them comes back into the loop, as every built-in does, it goes on with the input
in the place of the first process, and the session that is followed here is over.
-/

namespace SyssoftLabs.Lab4

open SyssoftLabs.Framework

/-- What becomes of the process of a command. -/
inductive Fate
  /-- `fork` fails. -/
  | unforked
  | exited (status : UInt8)
  | killed
  /-- It returns from `fork_and_exec` into the loop of `main`. -/
  | returns
deriving DecidableEq, Repr

/-- What `fork_and_exec` returns in the shell; nothing where the child goes on with the input. -/
def forkAndExec (c : Cmd) (fate : Fate) : Option Int32 :=
  if c.argc = 0 then some 0
  else if fate = .unforked then some 13
  else if c.builtin.isSome then none
  else
    match fate with
    | .exited status => some (if c.bg then 0 else Int32.ofNat status.toNat)
    | .unforked | .killed => some 0
    | .returns => none

structure Session where
  scope : Scope
  /-- The static variables of `get_line`. -/
  completion : Bool
  compPos : Nat
  heap : Heap Cmd
  commands : Nat → Ptr
  /-- The commands started so far, kept for the statements. -/
  launched : List Cmd

/-- What the session does not decide. -/
structure Setting where
  /-- The allocator, and what stands behind its blocks. -/
  mem : Arena nul
  complete : CStr → Nat → Except Stuck CStr
  /-- The bytes that `malloc` returns. -/
  memory : Nat → Char
  /-- What becomes of the process of the command started as number `n`. -/
  fates : Nat → Fate
  /-- The bound on the rounds of a loop. -/
  fuel : Nat

/-- The variables of the loop over the commands of a line. -/
structure Launches where
  parser : Parser
  i : Nat
  errCode : Int32
  launched : List Cmd

/-- A round of that loop: `fork_and_exec` and `free_cmd`. It ends without its variables where the
child goes on with the input. -/
def launchStep (mem : Arena nul) (fates : Nat → Fate) (l : Launches) :
    Except Halt (Launches ⊕ Option Launches) :=
  match l.parser.commands l.i with
  | none => .ok (.inr (some l))
  | some _ => do
      let c ← l.parser.command l.i
      match forkAndExec c (fates l.launched.length) with
      | none => return .inr none
      | some code =>
          let parser ← l.parser.freeCmd l.i
          return .inl ⟨parser, l.i + 1, code, l.launched ++ [c.later mem]⟩

/-- How a loop of `main` ends, which does not return. -/
def inMain {α : Type} : Except Halt α → Except Stuck α
  | .ok a => .ok a
  | .error (.stuck e) => .error e
  | .error (.returnFalse _) => .error .fault

namespace Session

/-- The part of a round of `main` behind `get_line`. -/
def runLine (w : Setting) (s : Session) (line : List Char) : Except Stuck (Option Session) := do
  let text ← expand s.scope w.fuel line
  let args ← getSplitted w.mem s.scope w.fuel line
  let (accepted, parser) ← makeCmdv args s.heap (Function.update s.commands 0 none)
  if accepted then
    match ← inMain (loop (launchStep w.mem w.fates) (.stuck .unfinished) w.fuel
      ⟨parser, 0, 0, s.launched⟩) with
    | none => return none
    | some l =>
        let err ← errcToA w.memory l.errCode
        let scope ← s.scope.setVarForce ['?'] err
        let scope ← scope.setVarForce ['_'] (cString text)
        return some { s with
          scope := scope, heap := l.parser.heap, commands := l.parser.commands,
          launched := l.launched }
  else
    let parser ← inMain (loop cleanUpStep (.stuck .unfinished) w.fuel (parser, 0))
    return some { s with heap := parser.heap, commands := parser.commands }

/-- A round of `main`; `none` if the input ends first, or the process reads no line after it. -/
def round (w : Setting) (s : Session) (input : List Char) :
    Except Stuck (Option (Session × List Char)) := do
  match s.scope.getenv ['p', 'r', 'o', 'm', 'p', 't'] with
  | none => throw .fault
  | some prompt =>
      match ← getLine w.complete (Editor.start prompt s.completion s.compPos) input with
      | .returned line e rest =>
          let s ← runLine w { s with completion := e.completion, compPos := e.compPos } line
          return s.map fun s => (s, rest)
      | .reading _ => return none
      | .exit => return none

end Session

/-! ## Lines that are typed -/

/-- The keys of a line and the pipelines of programs it means, no built-in among them. The text must
fit the buffer at every key. -/
structure TypedLine where
  keys : List Key
  pipelines : List Pipeline
  bare : Bool
  gaps : Nat → Blank × List Blank
  fits : ∀ front, front <+: keys → (Cursor.empty.pressAll front).text.length < lineSize
  reads : ((Cursor.empty.pressAll keys).text.map fun c => if c = '\r' then ' ' else c) =
    layout gaps (lineTokens bare pipelines)
  external : External (lineCmds pipelines)

namespace TypedLine

/-- What the terminal sends for the line. -/
def bytes (l : TypedLine) : List Char := l.keys.flatMap Key.bytes ++ ['\n']

def text (l : TypedLine) : CStr := layout l.gaps (lineTokens l.bare l.pipelines)

def cmds (l : TypedLine) : List Cmd := lineCmds l.pipelines

/-- The blocks of the words and of the names of files have room for their terminators. -/
structure Fits (l : TypedLine) (a : Allocator) : Prop where
  words : ∀ t ∈ lineTokens l.bare l.pipelines, a.Fits t.length t
  files : ∀ file ∈ lineFiles l.pipelines, a.Fits (file.chars.length - 1) file.chars

end TypedLine

/-- What `fork_and_exec` returned for the last of these commands, so many being started. -/
def lastStatus (fates : Nat → Fate) (started : Nat) (cmds : List Cmd) : Int32 :=
  match cmds.getLast? with
  | none => 0
  | some c => (forkAndExec c (fates (started - 1))).getD 0

section

variable {mem : Arena nul} {fates : Nat → Fate}

end

/-! ## Rounds -/

namespace Session

/-- What `?` and `_` hold after these lines, and what was started. -/
structure Follows (w : Setting) (env : CStr → Option CStr) (lines : List TypedLine) (s : Session) :
    Prop where
  launched : s.launched = lines.flatMap TypedLine.cmds
  scope : s.scope = ⟨[⟨['?'], numeral (lines.getLast?.elim 0 fun l =>
      (lastStatus w.fates s.launched.length l.cmds).toInt)⟩,
    ⟨['_'], lines.getLast?.elim [] TypedLine.text⟩], env⟩

variable {w : Setting} {env : CStr → Option CStr} {s : Session}

end Session

end SyssoftLabs.Lab4
