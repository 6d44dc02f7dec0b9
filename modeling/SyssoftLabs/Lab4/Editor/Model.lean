import SyssoftLabs.Lab4.Parser.Tokens

/-!
# Reading a line

`get_line` keeps the line in a buffer of 1024 bytes, with the position of the cursor and the length
of the line beside it, and answers every key on the terminal. An access outside of the buffer is a
fault.
-/

namespace SyssoftLabs.Lab4

def lineSize : Nat := 1024

/-! ## Bytes of a buffer -/

def peek (buffer : List Char) (i : Nat) : Except Stuck Char :=
  if h : i < buffer.length then .ok buffer[i] else .error .fault

def poke (buffer : List Char) (i : Nat) (c : Char) : Except Stuck (List Char) :=
  if i < buffer.length then .ok (buffer.set i c) else .error .fault

/-- The bytes from `i` up to `j`. -/
def between (buffer : List Char) (i j : Nat) : Except Stuck (List Char) :=
  if j ≤ buffer.length then .ok ((buffer.drop i).take (j - i)) else .error .fault

/-- The string that starts at `str`; a fault if no byte of the buffer ends it. -/
def stringAt (buffer : List Char) (str : Nat) : Except Stuck CStr :=
  let s := cString (buffer.drop str)
  if str + s.length < buffer.length then .ok s else .error .fault

/-- The loop of `strshl`, from the byte `i` on. -/
def strshlFrom (step : Nat) (buffer : List Char) (i : Nat) : Except Stuck (List Char) :=
  if h : i < buffer.length ∧ step ≤ i then
    let shifted := buffer.set (i - step) buffer[i]
    if buffer[i] = nul then .ok shifted else strshlFrom step shifted (i + 1)
  else .error .fault
termination_by buffer.length - i
decreasing_by
  rw [List.length_set]
  omega

def strshl (buffer : List Char) (str step : Nat) : Except Stuck (List Char) :=
  if step = 0 then .ok buffer else strshlFrom step buffer str

/-- The loop of `strshr`, from `i` down. -/
def strshrFrom (step str : Nat) (buffer : List Char) : Nat → Except Stuck (List Char)
  | 0 => .ok buffer
  | i + 1 =>
      if i + 1 < step then .ok buffer
      else do
        let c ← peek buffer (str + (i + 1 - step))
        let buffer ← poke buffer (str + (i + 1)) c
        strshrFrom step str buffer i

def strshr (buffer : List Char) (str step : Nat) : Except Stuck (List Char) :=
  if step = 0 then .ok buffer
  else do
    let s ← stringAt buffer str
    let buffer ← poke buffer (str + s.length + 1) nul
    strshrFrom step str buffer s.length

/-! ## Keys -/

def interrupt : Char := Char.ofNat 0x03
def endOfInput : Char := Char.ofNat 0x04
def escape : Char := Char.ofNat 0x1b
def rubout : Char := Char.ofNat 0x7f
/-- `\b`. -/
def back : Char := Char.ofNat 0x08

/-- The call of `read` that waits for the next byte. -/
inductive Reading
  | key
  | escape
  | bracket
deriving DecidableEq, Repr

/-- The variables of `get_line`, and what was written to the terminal. -/
structure Editor where
  line : List Char
  pos : Nat
  length : Nat
  completion : Bool
  compPos : Nat
  reading : Reading
  out : List Char
deriving DecidableEq, Repr

/-- What becomes of `get_line` after a byte. -/
inductive Reply
  | again (e : Editor)
  | returned (line : List Char) (e : Editor)
  | exit
deriving DecidableEq, Repr

namespace Editor

/-- A fresh line under a prompt; `completion` and `compPos` are static. -/
def start (prompt : CStr) (completion : Bool) (compPos : Nat) : Editor :=
  ⟨List.replicate lineSize nul, 0, 0, completion, compPos, .key, prompt⟩

def say (e : Editor) (message : CStr) : Editor := { e with out := e.out ++ message }

def sayBack (e : Editor) (n : Nat) : Editor := e.say (List.replicate n back)

def backspace (e : Editor) : Except Stuck Editor :=
  if e.pos = 0 then .ok e
  else if e.pos = e.length then do
    let line ← poke e.line (e.pos - 1) nul
    .ok { e.say [back, ' ', back] with line := line, pos := e.pos - 1, length := e.length - 1 }
  else do
    let tail ← between e.line e.pos e.length
    let line ← strshl e.line e.pos 1
    .ok { (e.say (back :: tail ++ [' ', ' '])).sayBack (e.length + 2 - e.pos) with
      line := line, pos := e.pos - 1, length := e.length - 1 }

/-- The key is `ESC`. The loop over `comp_pos` runs only during a completion. -/
def leaveCompletion (e : Editor) : Editor :=
  if e.completion then
    { e.sayBack (e.compPos - e.pos) with completion := false, compPos := min e.compPos e.pos }
  else e

def right (e : Editor) : Except Stuck Editor :=
  if e.pos = e.length then .ok e
  else do
    let c ← peek e.line e.pos
    .ok { e.say [escape, '[', '3', '~', c] with pos := e.pos + 1 }

def left (e : Editor) : Editor :=
  if e.pos = 0 then e else { e.say [back] with pos := e.pos - 1 }

/-- The key is a tab; `complete` may replace the text before the cursor. -/
def tab (complete : CStr → Nat → Except Stuck CStr) (e : Editor) : Except Stuck Editor := do
  let pre := cString (e.line.take e.pos)
  let post ← stringAt e.line e.pos
  if e.length - e.pos + 2 < post.length + 1 then .error .fault
  else
    let pre ← complete pre e.compPos
    let text := pre ++ post
    if e.line.length < text.length + 1 then .error .fault
    else
      let shown := List.replicate e.pos back ++ List.replicate (e.length + 1) ' ' ++
        List.replicate (e.length + 1) back ++ text
      .ok { (e.say shown).sayBack (text.length - pre.length) with
        line := text ++ nul :: e.line.drop (text.length + 1)
        pos := pre.length, length := text.length, compPos := e.compPos + 1 }

/-- The key is Return: line ends within the line become blanks. -/
def enter (e : Editor) : Except Stuck (List Char) := do
  let line ← poke e.line e.length nul
  .ok ((line.take e.length).map (fun c => if c = '\n' ∨ c = '\r' then ' ' else c) ++
    line.drop e.length)

/-- `just_a_symbol`. -/
def insert (e : Editor) (c : Char) : Except Stuck Editor :=
  if e.pos = e.length then do
    let line ← poke e.line e.pos c
    .ok { e.say (cString [c]) with line := line, pos := e.pos + 1, length := e.length + 1 }
  else do
    let line ← strshr e.line e.pos 1
    let line ← poke line e.pos c
    let tail ← stringAt line e.pos
    .ok { (e.say tail).sayBack (e.length - e.pos) with
      line := line, pos := e.pos + 1, length := e.length + 1 }

/-- The byte that a call of `read` was waiting for. -/
def step (complete : CStr → Nat → Except Stuck CStr) (e : Editor) (c : Char) :
    Except Stuck Reply :=
  match e.reading with
  | .escape => .ok (.again { e with reading := if c = '[' then .bracket else .key })
  | .bracket =>
      let e := { e with reading := .key }
      if c = 'C' then e.right.map .again
      else if c = 'D' then .ok (.again e.left)
      else .ok (.again e)
  | .key =>
      let e := if c = '\t' then e else { e with completion := false }
      if c = rubout then e.backspace.map .again
      else if c = escape then .ok (.again { e.leaveCompletion with reading := .escape })
      else if c = interrupt then .ok (.again (e.say ['^', 'C']))
      else if c = endOfInput then .ok .exit
      else if c = '\t' then (e.tab complete).map .again
      else if c = '\n' then e.enter.map fun line => .returned line (e.say ['\n'])
      else (e.insert c).map .again

/-- The next call of `read`, if the loop goes on. -/
def again (complete : CStr → Nat → Except Stuck CStr) (e : Editor) (c : Char) : Option Editor :=
  match e.step complete c with
  | .ok (.again e) => some e
  | _ => none

end Editor

/-- How far `get_line` comes with this input. -/
inductive Progress
  | reading (e : Editor)
  | returned (line : List Char) (e : Editor) (rest : List Char)
  | exit
deriving DecidableEq, Repr

/-- `get_line`. -/
def getLine (complete : CStr → Nat → Except Stuck CStr) (e : Editor) :
    List Char → Except Stuck Progress
  | [] => .ok (.reading e)
  | c :: input =>
      match e.step complete c with
      | .error stuck => .error stuck
      | .ok (.again e) => getLine complete e input
      | .ok (.returned line e) => .ok (.returned line e input)
      | .ok .exit => .ok .exit

end SyssoftLabs.Lab4
