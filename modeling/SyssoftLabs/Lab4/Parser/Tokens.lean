import Mathlib.Data.List.TakeWhile
import SyssoftLabs.Framework.Allocator
import SyssoftLabs.Framework.Loop

/-!
# From a line to its tokens

`get_splitted` expands the variables of a line in place and cuts it at blanks and separators. A
string is the list of its characters. The line lies in a buffer whose bytes behind the terminator
survive from earlier contents, and the expansion at the end of a line reads them.
-/

namespace SyssoftLabs.Lab4

open SyssoftLabs.Framework

/-- A string, without its terminator. -/
abbrev CStr := List Char

/-- Why a call does not return. -/
inductive Stuck
  /-- `error(E_MANYARGS, 1)`: the shell exits. -/
  | manyArgs
  /-- A failed assertion or an access the language leaves undefined. -/
  | fault
  /-- More rounds of a loop than the bound of the model. -/
  | unfinished
deriving DecidableEq, Repr

def argsSize : Nat := 1024

def nul : Char := Char.ofNat 0

/-- The string at the start of a buffer. -/
def cString (buffer : List Char) : CStr := buffer.takeWhile (· ≠ nul)

theorem nul_notMem_cString (buffer : List Char) : nul ∉ cString buffer := by
  intro h
  simpa using List.mem_takeWhile_imp h

theorem cString_of_notMem {s : CStr} (hs : nul ∉ s) : cString s = s := by
  rw [cString, List.takeWhile_eq_self_iff]
  intro c hc
  simpa using ne_of_mem_of_not_mem hc hs

theorem cString_append_nul {s : CStr} (hs : nul ∉ s) (tail : List Char) :
    cString (s ++ nul :: tail) = s := by
  rw [cString, List.takeWhile_append_of_pos, List.takeWhile_cons_of_neg (by simp),
    List.append_nil]
  intro c hc
  simpa using ne_of_mem_of_not_mem hc hs

theorem cString_isPrefix (buffer : List Char) : cString buffer <+: buffer :=
  List.takeWhile_prefix _

theorem cString_eq_nil {buffer : List Char} : cString buffer = [] ↔ buffer.headD nul = nul := by
  cases buffer with
  | nil => exact ⟨fun _ => rfl, fun _ => rfl⟩
  | cons c rest =>
      by_cases hc : c = nul
      · simp [cString, hc]
      · simp [cString, hc]

def isSpace (c : Char) : Bool := c == ' ' || c == '\t'

def isSeparator (c : Char) : Bool := c == ';' || c == '|' || c == '&' || c == '>' || c == '<'

/-- `is_separator(token[0])`. -/
def startsSeparator (token : CStr) : Bool := isSeparator (token.headD nul)

def skipSpaces (line : CStr) : CStr := line.dropWhile isSpace

def getArg (line : CStr) : CStr :=
  if startsSeparator line then line.take 1
  else line.takeWhile fun c => !isSpace c && !isSeparator c

/-- The copy of a token in the vector. `get_arg` asks for as many bytes as the token has and puts
the terminator behind them; `put` measures the token before the `malloc` for its copy, and reads it
behind that. -/
def copied (mem : Arena nul) (token : CStr) : CStr :=
  mem.kept (token.length + 1) (mem.kept token.length token)

/-- Behind a block stands the length of the next one, 48 with a bit set. -/
def lengthBehind : Arena nul := ⟨.aligned, fun _ => ['1'], fun _ => by decide⟩

/-- A vector of strings: its slots up to the `NULL`. `put` writes the slot of the `NULL` and the
one behind it. -/
def put (mem : Arena nul) (vec : List (Option CStr)) (item : CStr) :
    Except Stuck (List (Option CStr)) :=
  let i := vec.findIdx Option.isNone
  if i + 1 > argsSize then .error .manyArgs else .ok (vec.take i ++ [some (copied mem item), none])

/-! ## Variables -/

/-- `struct variable`. -/
structure Variable where
  name : CStr
  value : CStr

/-- Where a name is looked up: the used entries of `vars`, then the environment. -/
structure Scope where
  vars : List Variable
  getenv : CStr → Option CStr

def Scope.getVar (σ : Scope) (name : CStr) : Option CStr :=
  match σ.vars.find? fun v => v.name == name with
  | some v => some v.value
  | none => σ.getenv name

/-- `strncpy(dst, src, n)`. -/
def strncpy (dst : List Char) (src : CStr) (n : Nat) : List Char :=
  src.take n ++ List.replicate (n - src.length) nul ++ dst.drop n

/-- `strcpy(line, buf)` with `buf` the value followed by the line from `line + i + 1` on. -/
def substitute (line : List Char) (i : Nat) (value : CStr) : List Char :=
  let buf := value ++ cString (line.drop (i + 1))
  buf ++ nul :: line.drop (buf.length + 1)

/-- One of the two loops of `unfold_variable`, from the index `i` down to zero: the line after a
name was found, and what is left in `subs`. -/
def unfoldNames (lookup : CStr → Option CStr) (line : List Char) :
    Nat → List Char → Option (List Char) × List Char
  | i, subs =>
      let subs := (strncpy subs (cString (line.drop 1)) i).set (i + 1) nul
      match lookup (cString subs), i with
      | some env, i => (some (substitute line i env), subs)
      | none, 0 => (none, subs)
      | none, i + 1 => unfoldNames lookup line i subs

def unfoldVariable (σ : Scope) (line : List Char) : List Char :=
  if line.headD nul ≠ '$' then line
  else
    let len := (cString line).length
    match unfoldNames σ.getVar line len (List.replicate (len + 2) nul) with
    | (some line, _) => line
    | (none, subs) =>
        match unfoldNames σ.getenv line len subs with
        | (some line, _) => line
        | (none, _) => line

theorem unfoldVariable_plain (σ : Scope) {c : Char} (line : List Char) (hc : c ≠ '$') :
    unfoldVariable σ (c :: line) = c :: line := by
  simp [unfoldVariable, hc]

/-- One round of the loop over the positions of the line: the part behind `pos` is expanded, and
its first character, which may be the terminator by now, is stepped over. -/
def expandStep (σ : Scope) : List Char × List Char →
    Except Stuck (List Char × List Char ⊕ List Char)
  | (before, line) =>
      if line.headD nul = nul then .ok (.inr (before ++ line))
      else
        match unfoldVariable σ line with
        | [] => .ok (.inr before)
        | c :: rest => .ok (.inl (before ++ [c], rest))

theorem expandStep_ne_error (σ : Scope) (s : List Char × List Char) (e : Stuck) :
    expandStep σ s ≠ .error e := by
  rw [expandStep]
  split
  · simp
  · split <;> simp

/-- The loop that expands the variables, in at most `fuel` rounds. -/
def expand (σ : Scope) (fuel : Nat) (line : List Char) : Except Stuck (List Char) :=
  loop (expandStep σ) .unfinished fuel ([], line)

/-! ## The vector of tokens -/

def splitStep (mem : Arena nul) : CStr × List (Option CStr) →
    Except Stuck (CStr × List (Option CStr) ⊕ List (Option CStr))
  | (line, args) =>
      if line = [] then .ok (.inr args)
      else
        let line := skipSpaces line
        if line = [] then .ok (.inr args)
        else do
          let arg := getArg line
          let args ← put mem args arg
          return .inl (line.drop arg.length, args)

/-- `get_splitted`, the expansion in at most `fuel` rounds. -/
def getSplitted (mem : Arena nul) (σ : Scope) (fuel : Nat) (line : List Char) :
    Except Stuck (List (Option CStr)) := do
  let line ← expand σ fuel line
  loop (splitStep mem) .unfinished (line.length + 1) (cString line, [none])

end SyssoftLabs.Lab4
