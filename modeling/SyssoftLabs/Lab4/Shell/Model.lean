import SyssoftLabs.Framework.Descriptors
import SyssoftLabs.Framework.Transition
import SyssoftLabs.Lab4.Parser.Commands

/-!
# The shell and the processes it starts

The loop of `main` and `fork_and_exec` in every process that runs the code of the shell, with the
pipes and the descriptor tables of all processes. One system call is one step, and its outcome
belongs to the step; a `waitpid` ends when its child has, as no signal interrupts it. The lines are
given as the commands `make_cmdv` makes of them.
-/

namespace SyssoftLabs.Lab4

open SyssoftLabs.Framework

/-- What the shell does not decide: how much a pipe holds, and how many bytes the program of
`commands[i]` writes to its standard output. -/
structure World where
  capacity : Nat
  writes : Nat → Nat

inductive Desc
  | terminal
  | file (name : CStr)
  | read (pipe : Nat)
  | write (pipe : Nat)
deriving DecidableEq, Repr

/-! ## Built-ins -/

inductive Builtin
  | help
  | cd
  | set
  | setenv
  | exit
deriving DecidableEq, Repr

/-- The collection as `goodmorning` fills it. -/
def builtins : List (CStr × Builtin) :=
  [(['?'], .help), (['c', 'd'], .cd), (['s', 'e', 't'], .set),
    (['s', 'e', 't', 'e', 'n', 'v'], .setenv), (['e', 'x', 'i', 't'], .exit)]

def builtin (name : CStr) : Option Builtin :=
  (builtins.find? fun b => b.1 = name).map Prod.snd

/-- `builtin(command->argv[0])`. -/
def Cmd.builtin (c : Cmd) : Option Builtin := c.argv.head?.join.bind Lab4.builtin

/-- Commands that are no built-ins. -/
def External (cmds : List Cmd) : Prop := ∀ c ∈ cmds, c.builtin = none

/-! ## Processes -/

/-- Where the child is in its branch of `fork_and_exec`. -/
inductive Stage
  | dupIn
  | dupOut
  | openOut
  /-- `fd` refers to the opened output file. -/
  | moveOut (fd : Nat)
  | openIn
  | moveIn (fd : Nat)
  /-- Before the built-in or `execvp`. -/
  | run
deriving DecidableEq, Repr

inductive Pc
  | readLine
  /-- At the test of the loop over the commands. -/
  | launch
  /-- In `fork_and_exec`, before `fork`. -/
  | forkExec
  | child (stage : Stage)
  /-- In `waitpid` of `fork_and_exec`. -/
  | waiting (pid : Nat)
  /-- Back in `main`, behind `fork_and_exec`. -/
  | returned
  /-- In `goodnight`. -/
  | leaving
  /-- Replaced by `execvp`, with so many bytes still to write. -/
  | replaced (left : Nat)
  | exited
deriving DecidableEq, Repr

structure Proc where
  pc : Pc
  fds : Descriptors Desc
  pipefd : Nat × Nat
  commands : List Cmd
  i : Nat
  didPipe : Bool
  parent : Nat
  /-- A SIGTERM is pending. -/
  pending : Bool
deriving DecidableEq, Repr

/-- The processes by number, the number of bytes in each pipe, and the lines not read yet: their
commands, or `none` for a line `make_cmdv` rejects. -/
structure Sys where
  procs : List Proc
  pipes : List Nat
  lines : List (Option (List Cmd))
deriving DecidableEq, Repr

/-- The process started as kcsh, after `goodmorning`. -/
def kcsh : Proc where
  pc := .readLine
  fds := [some .terminal, some .terminal, some .terminal]
  pipefd := (0, 0)
  commands := []
  i := 0
  didPipe := false
  parent := 0
  pending := false

def Sys.start (lines : List (Option (List Cmd))) : Sys := ⟨[kcsh], [], lines⟩

inductive Event
  /-- The next step of the process; a system call in it succeeds. -/
  | go
  /-- The next system call of the process fails. -/
  | fail
  /-- End of input, or an error that ends the process through `goodnight`. -/
  | leave
  /-- The handler of a pending SIGTERM runs. -/
  | term
  /-- A signal ends the process. -/
  | killed
  /-- A program writes a byte to its standard output. -/
  | write
  /-- A program reads a byte from its standard input. -/
  | read
  /-- A program ends. -/
  | exit
deriving DecidableEq, Repr

def Proc.goto (p : Proc) (pc : Pc) : Proc := { p with pc := pc }

/-- The kernel closes the descriptors of a process that ends. -/
def Proc.exit (p : Proc) : Proc := { p with pc := .exited, fds := [] }

/-- The child of `fork` in the process `pid`. -/
def Proc.forked (p : Proc) (pid : Nat) : Proc :=
  { p with pc := .child .dupIn, parent := pid, pending := false }

namespace Sys

def put (s : Sys) (pid : Nat) (p : Proc) : Sys := { s with procs := s.procs.set pid p }

/-- `kill(pid, SIGTERM)`. -/
def terminate (s : Sys) (pid : Nat) : Sys :=
  match s.procs[pid]? with
  | none => s
  | some p => if p.pc = .exited then s else s.put pid { p with pending := true }

/-- Some process can still read from the pipe. -/
def hasReader (s : Sys) (k : Nat) : Bool := s.procs.any fun p => p.fds.contains (some (.read k))

/-! ## The loop of `main` -/

def readLine (s : Sys) (pid : Nat) (p : Proc) : Event → Option Sys
  | .go =>
      match s.lines with
      | [] => none
      | none :: lines => some { s with lines := lines }
      | some cmds :: lines =>
          some { s.put pid { p with commands := cmds, i := 0, pc := .launch } with lines := lines }
  | _ => none

/-- `pipe(pipefd)` with the new pipe `k`, and the assignments to `commands[i]->out` and
`commands[i+1]->in`. -/
def makePipe (p : Proc) (k : Nat) : Proc :=
  let r := Descriptors.free p.fds
  let fds := Descriptors.put p.fds r (.read k)
  let w := Descriptors.free fds
  { p with
    pc := .forkExec
    fds := Descriptors.put fds w (.write k)
    pipefd := (r, w)
    commands :=
      (p.commands.modify p.i fun c => { c with out := w }).modify (p.i + 1) fun c =>
        { c with input := r }
    didPipe := true }

def launch (s : Sys) (pid : Nat) (p : Proc) (e : Event) : Option Sys :=
  match p.commands[p.i]?, e with
  | none, .go => some (s.put pid (p.goto .readLine))
  | some c, .go =>
      if c.out = 1 then some (s.put pid { p with didPipe := false, pc := .forkExec })
      else some { s.put pid (makePipe p s.pipes.length) with pipes := s.pipes ++ [0] }
  | some c, .fail => if c.out = 1 then none else some (s.put pid (p.goto .leaving))
  | _, _ => none

/-- Behind `fork_and_exec`: the write end is closed and the next command is up. -/
def next (p : Proc) : Proc :=
  { p with
    pc := .launch
    fds := if p.didPipe then Descriptors.close p.fds p.pipefd.2 else p.fds
    i := p.i + 1 }

/-! ## `fork_and_exec` -/

/-- `fork`, and what the parent does behind it. -/
def fork (s : Sys) (pid : Nat) (p : Proc) (c : Cmd) : Sys :=
  { s with
    procs := s.procs.set pid (p.goto (if c.bg then .returned else .waiting s.procs.length)) ++
      [p.forked pid] }

def forkExec (s : Sys) (pid : Nat) (p : Proc) (e : Event) : Option Sys :=
  match p.commands[p.i]?, e with
  | some c, .go => some (if c.argc = 0 then s.put pid (p.goto .returned) else s.fork pid p c)
  | some c, .fail => if c.argc = 0 then none else some (s.put pid (p.goto .returned))
  | _, _ => none

/-- `waitpid`, which no signal interrupts. -/
def wait (s : Sys) (pid : Nat) (p : Proc) (child : Nat) : Event → Option Sys
  | .go =>
      if (s.procs[child]?).map Proc.pc = some .exited then some (s.put pid (p.goto .returned))
      else none
  | _ => none

end Sys

namespace Proc

/-- `dup2(old, new)`, left out where `old` is `new`. -/
def duplicate (p : Proc) (old new : Nat) : Option Proc :=
  if old = new then some p
  else (Descriptors.get p.fds old).map fun d => { p with fds := Descriptors.put p.fds new d }

/-- The child closes the ends of the pipe it has duplicated. -/
def closeEnds (p : Proc) (c : Cmd) : Proc :=
  let fds := if c.input = 0 then p.fds else Descriptors.close p.fds p.pipefd.1
  { p with fds := if c.out = 1 then fds else Descriptors.close fds p.pipefd.2 }

/-- `open`; a file name that was never assigned is `NULL`, and cannot be opened. -/
def openFile (p : Proc) (name : Option CStr) (stage : Nat → Stage) : Option Proc :=
  name.map fun name =>
    { p with
      fds := Descriptors.put p.fds (Descriptors.free p.fds) (.file name)
      pc := .child (stage (Descriptors.free p.fds)) }

/-- `dup2(fd, target)` and `close(fd)`. -/
def moveFile (p : Proc) (fd target : Nat) : Option Proc :=
  (Descriptors.get p.fds fd).map fun d =>
    { p with fds := Descriptors.close (Descriptors.put p.fds target d) fd }

/-- The child's branch of `fork_and_exec` up to the built-in or `execvp`. -/
def branch (p : Proc) (c : Cmd) : Stage → Event → Option Proc
  | .dupIn, .go => (p.duplicate c.input 0).map fun p => p.goto (.child .dupOut)
  | .dupIn, .fail => if c.input = 0 then none else some (p.goto .returned)
  | .dupOut, .go => (p.duplicate c.out 1).map fun p => (p.closeEnds c).goto (.child .openOut)
  -- the only failure of the branch with `error(E_DUP, 1)`
  | .dupOut, .fail => if c.out = 1 then none else some (p.goto .leaving)
  | .openOut, .go =>
      if c.redirect then p.openFile c.rfilename .moveOut else some (p.goto (.child .openIn))
  | .openOut, .fail => if c.redirect then some (p.goto .returned) else none
  | .moveOut fd, .go => (p.moveFile fd 1).map fun p => p.goto (.child .openIn)
  | .moveOut _, .fail => some (p.goto .returned)
  | .openIn, .go =>
      if c.redirectIn then p.openFile c.rifilename .moveIn else some (p.goto (.child .run))
  | .openIn, .fail => if c.redirectIn then some (p.goto .returned) else none
  | .moveIn fd, .go => (p.moveFile fd 0).map fun p => p.goto (.child .run)
  | .moveIn _, .fail => some (p.goto .returned)
  | _, _ => none

end Proc

namespace Sys

/-- The end of the child's branch. `k_exit` terminates the parent and ends; every other built-in
returns. -/
def finish (W : World) (s : Sys) (pid : Nat) (p : Proc) (c : Cmd) (e : Event) : Option Sys :=
  match c.builtin, e with
  | none, .go => some (s.put pid (p.goto (.replaced (W.writes p.i))))
  | none, .fail => some (s.put pid (p.goto .returned))
  | some .exit, .go => some ((s.terminate p.parent).put pid p.exit)
  | some _, .go => some (s.put pid (p.goto .returned))
  | _, _ => none

def child (W : World) (s : Sys) (pid : Nat) (p : Proc) (stage : Stage) (e : Event) : Option Sys :=
  match p.commands[p.i]? with
  | none => none
  | some c =>
      if stage = .run then s.finish W pid p c e else (p.branch c stage e).map (s.put pid)

/-! ## Programs -/

/-- A byte for the standard output: blocked while its pipe is full, fatal if nobody reads it. -/
def write (W : World) (s : Sys) (pid : Nat) (p : Proc) (left : Nat) : Option Sys :=
  match Descriptors.get p.fds 1 with
  | some (.write k) =>
      if s.hasReader k then
        match s.pipes[k]? with
        | none => none
        | some n =>
            if n < W.capacity then
              some { s.put pid (p.goto (.replaced left)) with pipes := s.pipes.set k (n + 1) }
            else none
      else some (s.put pid p.exit)
  | _ => some (s.put pid (p.goto (.replaced left)))

def read (s : Sys) (p : Proc) : Option Sys :=
  match Descriptors.get p.fds 0 with
  | some (.read k) =>
      match s.pipes[k]? with
      | some (n + 1) => some { s with pipes := s.pipes.set k n }
      | _ => none
  | _ => none

def program (W : World) (s : Sys) (pid : Nat) (p : Proc) (left : Nat) (e : Event) : Option Sys :=
  match left, e with
  | left + 1, .write => s.write W pid p left
  | _, .read => s.read p
  | 0, .exit => some (s.put pid p.exit)
  | _, _ => none

/-! ## Steps -/

def advance (W : World) (s : Sys) (pid : Nat) (p : Proc) (e : Event) : Option Sys :=
  match p.pc with
  | .readLine => s.readLine pid p e
  | .launch => s.launch pid p e
  | .forkExec => s.forkExec pid p e
  | .child stage => s.child W pid p stage e
  | .waiting child => s.wait pid p child e
  | .returned => if e = .go then some (s.put pid (next p)) else none
  | .leaving => if e = .go then some (s.put pid p.exit) else none
  | .replaced left => s.program W pid p left e
  | .exited => none

end Sys

/-- Runs the code of the shell. -/
def Pc.inShell : Pc → Bool
  | .replaced _ | .exited => false
  | _ => true

/-- Where the handler of SIGTERM calls `goodnight`; in `goodnight` that changes nothing. -/
def Pc.heedsTerm : Pc → Bool
  | .leaving | .replaced _ | .exited => false
  | _ => true

/-- Where an error or the end of input may call `goodnight`. -/
def Pc.mayLeave : Pc → Bool
  | .readLine | .launch | .returned | .child .run => true
  | _ => false

/-- A step of one process. `goodnight` may wait for a child first, so that `leaving` lasts any
time. -/
def step (W : World) (s : Sys) (a : Nat × Event) : Option Sys :=
  match s.procs[a.1]? with
  | none => none
  | some p =>
      match a.2 with
      | .killed => if p.pc = .exited then none else some (s.put a.1 p.exit)
      | .term =>
          if p.pc.heedsTerm && p.pending then
            some (s.put a.1 { p with pc := .leaving, pending := false })
          else none
      | .leave => if p.pc.mayLeave then some (s.put a.1 (p.goto .leaving)) else none
      | e => s.advance W a.1 p e

end SyssoftLabs.Lab4
