import Mathlib.Logic.Function.Basic
import SyssoftLabs.Lab4.Shell.Model
import SyssoftLabs.Lab4.Variables

/-!
# What the built-ins do

A built-in changes what a process keeps to itself: its working directory, its environment and its
internal variables. What it prints is left out. The variables `?` and `_` are the first two of the
array and can be set by `main` only.
-/

namespace SyssoftLabs.Lab4

open SyssoftLabs.Framework

/-- What a built-in may change of its process. -/
structure Ambient where
  cwd : CStr
  environ : CStr → Option CStr
  /-- The internal variables behind `?` and `_`. -/
  vars : List Variable

/-- `argv[n]`; a null pointer is a fault. -/
def Cmd.argument (c : Cmd) (n : Nat) : Except Stuck CStr :=
  match c.argv[n]?.join with
  | some argument => .ok argument
  | none => .error .fault

/-- `argc == 3 ? argv[2] : ""`. -/
def Cmd.value (c : Cmd) : Except Stuck CStr := if c.argc = 3 then c.argument 2 else .ok []

namespace Ambient

/-- All the variables of the shell, with these values of `?` and `_`. -/
def scope (a : Ambient) (status last : CStr) : Scope :=
  ⟨⟨['?'], status⟩ :: ⟨['_'], last⟩ :: a.vars, a.environ⟩

/-- `set_var`. -/
def setVar (a : Ambient) (name value : CStr) : Except Stuck Ambient :=
  if name = ['$'] then .ok a
  else if name = ['_'] then .ok a
  else if name = ['?'] then .ok a
  else
    match overwrite name value a.vars with
    | some vars => .ok { a with vars := vars }
    | none =>
        if a.vars.length + 2 < variablesCapacity then
          .ok { a with vars := a.vars ++ [⟨name, value⟩] }
        else .error .fault

/-- `setenv(name, value, 1)`, with what it returns. -/
def setenv (a : Ambient) (name value : CStr) : Int32 × Ambient :=
  if name = [] ∨ '=' ∈ name then (-1, a)
  else (0, { a with environ := Function.update a.environ name (some value) })

/-- It is the `set_var` of all the variables. -/
theorem setVar_scope (a : Ambient) (status last name value : CStr) :
    (a.scope status last).setVar name value =
      (a.setVar name value).map fun a => a.scope status last := by
  rw [Scope.setVar, setVar]
  split
  · rfl
  split
  · rfl
  split
  · rfl
  · next hlast hstatus =>
      rw [Scope.setVarForce, scope, overwrite, if_neg (Ne.symm hstatus), overwrite,
        if_neg (Ne.symm hlast)]
      cases overwrite name value a.vars with
      | some vars => rfl
      | none =>
          simp only [Option.map_none, List.length_cons]
          split <;> rfl

end Ambient

/-! ## The functions of the collection -/

/-- `chdir` gives the new working directory, if there is such a directory. -/
abbrev Chdir := CStr → CStr → Option CStr

def kCd (chdir : Chdir) (c : Cmd) (a : Ambient) : Except Stuck (Int32 × Ambient) :=
  if c.argc ≠ 2 then .ok (1, a)
  else do
    let path ← c.argument 1
    match chdir a.cwd path with
    | none => return (2, a)
    | some cwd => return (0, { a with cwd := cwd })

def kSetenv (c : Cmd) (a : Ambient) : Except Stuck (Int32 × Ambient) :=
  if 3 < c.argc then .ok (1, a)
  else if c.argc = 1 then .ok (0, a)
  else do
    let name ← c.argument 1
    let value ← c.value
    return a.setenv name value

def kSet (c : Cmd) (a : Ambient) : Except Stuck (Int32 × Ambient) :=
  if c.argc = 1 then .ok (0, a)
  else do
    let name ← c.argument 1
    let value ← c.value
    return (0, ← a.setVar name value)

/-- What a built-in returns, and its process behind it; `k_exit` does not return. -/
def Builtin.call (chdir : Chdir) (c : Cmd) (a : Ambient) : Builtin → Except Stuck (Int32 × Ambient)
  | .help | .exit => .ok (0, a)
  | .cd => kCd chdir c a
  | .set => kSet c a
  | .setenv => kSetenv c a

end SyssoftLabs.Lab4
