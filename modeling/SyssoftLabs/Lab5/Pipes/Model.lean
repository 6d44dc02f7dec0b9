import SyssoftLabs.Framework.Descriptors
import SyssoftLabs.Framework.Transition

/-!
# Every second byte

`pipes` starts `wc` at the end of a pipe and writes to it the second byte of every two that it reads
from a file. Both processes have a descriptor table of their own, and a system call is a step.
-/

namespace SyssoftLabs.Lab5

open SyssoftLabs.Framework

inductive PipesDesc
  /-- Open when the program starts. -/
  | inherited (k : Nat)
  | file
  | read
  | write
deriving DecidableEq, Repr

/-- The parent's branch behind `fork`. -/
inductive Sender
  | closeRead
  | read
  | write (c : UInt8)
  | closeWrite
  | closeFile
  | exited
  /-- By `SIGPIPE`. -/
  | killed
deriving DecidableEq, Repr

/-- The child's branch, and `wc`. -/
inductive Counter
  | closeWrite
  | closeStdin
  | dup
  | closeRead
  | exec
  | wc
  /-- `wc` has seen the end of its input. -/
  | done
  | failed
deriving DecidableEq, Repr

structure Pipes where
  parent : Sender
  child : Counter
  parentFds : Descriptors PipesDesc
  childFds : Descriptors PipesDesc
  fd : Nat
  pipefd : Nat × Nat
  /-- What the parent has not read yet. -/
  file : List UInt8
  pipe : List UInt8
  /-- What `wc` has read. -/
  received : List UInt8
deriving DecidableEq, Repr

inductive PipesAction
  | parent
  /-- The parent's `read` returns less than two bytes. -/
  | short
  | child
  /-- `wc` reads so many bytes. -/
  | wc (n : Nat)
  /-- `execlp` fails, or a signal ends the child. -/
  | fail
deriving DecidableEq, Repr

namespace Pipes

/-- Behind `open`, `pipe` and `fork`. -/
def start (inherited : Descriptors Nat) (file : List UInt8) : Pipes :=
  let fds := inherited.map (Option.map PipesDesc.inherited)
  let fd := Descriptors.free fds
  let fds := Descriptors.put fds fd .file
  let r := Descriptors.free fds
  let fds := Descriptors.put fds r .read
  let w := Descriptors.free fds
  let fds := Descriptors.put fds w .write
  ⟨.closeRead, .closeWrite, fds, fds, fd, (r, w), file, [], []⟩

def hasReader (s : Pipes) : Bool :=
  s.parentFds.contains (some .read) || s.childFds.contains (some .read)

def hasWriter (s : Pipes) : Bool :=
  s.parentFds.contains (some .write) || s.childFds.contains (some .write)

/-- The next system call of the parent; `none` while it waits. -/
def stepParent (capacity : Nat) (s : Pipes) : Option Pipes :=
  match s.parent with
  | .closeRead =>
      some { s with parent := .read, parentFds := Descriptors.close s.parentFds s.pipefd.1 }
  | .read =>
      match Descriptors.get s.parentFds s.fd, s.file with
      | some .file, _ :: c :: rest => some { s with parent := .write c, file := rest }
      | _, _ => some { s with parent := .closeWrite }
  | .write c =>
      match Descriptors.get s.parentFds s.pipefd.2 with
      | some .write =>
          if s.hasReader then
            if s.pipe.length < capacity then
              some { s with parent := .read, pipe := s.pipe ++ [c] }
            else none
          else some { s with parent := .killed, parentFds := [] }
      -- the result of `write` is not tested
      | _ => some { s with parent := .read }
  | .closeWrite =>
      some { s with parent := .closeFile, parentFds := Descriptors.close s.parentFds s.pipefd.2 }
  | .closeFile => some { s with parent := .exited, parentFds := [] }
  | .exited | .killed => none

/-- The next system call of the child; that of `wc` is a `read` at the end of the stream. -/
def stepChild (s : Pipes) : Option Pipes :=
  match s.child with
  | .closeWrite =>
      some { s with child := .closeStdin, childFds := Descriptors.close s.childFds s.pipefd.2 }
  | .closeStdin => some { s with child := .dup, childFds := Descriptors.close s.childFds 0 }
  | .dup =>
      match Descriptors.get s.childFds s.pipefd.1 with
      | some d => some { s with child := .closeRead, childFds := Descriptors.put s.childFds 0 d }
      | none => some { s with child := .closeRead }
  | .closeRead =>
      some { s with child := .exec, childFds := Descriptors.close s.childFds s.pipefd.1 }
  | .exec => some { s with child := .wc }
  | .wc =>
      if Descriptors.get s.childFds 0 = some .read ∧ s.pipe = [] ∧ s.hasWriter = false then
        some { s with child := .done, childFds := [] }
      else none
  | .done | .failed => none

def step (capacity : Nat) (s : Pipes) : PipesAction → Option Pipes
  | .parent => s.stepParent capacity
  | .short => if s.parent = .read then some { s with parent := .closeWrite } else none
  | .child => s.stepChild
  | .wc n =>
      if s.child = .wc ∧ Descriptors.get s.childFds 0 = some .read ∧ 0 < n ∧ n ≤ s.pipe.length then
        some { s with pipe := s.pipe.drop n, received := s.received ++ s.pipe.take n }
      else none
  | .fail =>
      if s.child = .done ∨ s.child = .failed then none
      else some { s with child := .failed, childFds := [] }

end Pipes

end SyssoftLabs.Lab5
