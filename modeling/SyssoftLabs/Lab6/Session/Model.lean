import SyssoftLabs.Framework.Transition

/-!
# A session of the directory service

The client sends one directory after the other, a line each, and reads a byte at a time up to a NUL.
The server reads a line a byte at a time and answers it with several writes. Two streams of bytes
lie between them. A call of `write` delivers all its bytes.
-/

namespace SyssoftLabs.Lab6

open SyssoftLabs.Framework

def nul : Char := Char.ofNat 0

/-- The string at the start of a buffer. -/
def cString (buffer : List Char) : List Char := buffer.takeWhile (· ≠ nul)

/-- `"//close\n"`. -/
def closeLine : List Char := ['/', '/', 'c', 'l', 'o', 's', 'e', '\n']

/-- `"\t<error>\n"`. -/
def errorLine : List Char := ['\t', '<', 'e', 'r', 'r', 'o', 'r', '>', '\n']

/-- `"server error"`. -/
def serverError : List Char :=
  ['s', 'e', 'r', 'v', 'e', 'r', ' ', 'e', 'r', 'r', 'o', 'r']

/-- What the calls of the server meet. -/
structure Calls where
  /-- The memory that the n-th call of `malloc` or `realloc` gives, by index; `none` if it fails. -/
  alloc : Nat → Option (Nat → Char)
  /-- The n-th call of `read` returns -1. -/
  readFails : Nat → Bool
  /-- The names that `readdir` gives for a path; `none` if `opendir` fails. -/
  opendir : List Char → Option (List (List Char))

/-- No call fails, and fresh memory reads as zero. -/
def Calls.zeroed (opendir : List Char → Option (List (List Char))) : Calls :=
  ⟨fun _ => some fun _ => nul, fun _ => false, opendir⟩

/-! ## The server -/

inductive WorkPc
  | malloc
  /-- In the loop that reads a line. -/
  | read
  /-- A line is complete: `strcmp`, the scan and the first `write`. -/
  | line
  | colon
  | opendir
  | entries (names : List (List Char))
  | entryName (name : List Char) (names : List (List Char))
  | entryEnd (names : List (List Char))
  | refuse
  | free
  | clean
  | returned
deriving DecidableEq, Repr

/-- The variables of `do_work`; the length of `buf` is `buf_size`. -/
structure Work where
  pc : WorkPc
  buf : List Char
  len : Nat
  c : Char
  allocs : Nat
  reads : Nat
deriving DecidableEq, Repr

namespace Work

def start : Work := ⟨.malloc, [], 0, nul, 0, 0⟩

def bufSize : Nat := 1024

/-- `buf[len++] = c`, with a larger buffer if it is almost full, and the test of the loop. -/
def store (calls : Calls) (w : Work) (c : Char) : Work :=
  let buf := w.buf.set w.len c
  let len := w.len + 1
  let pc := if c = '\n' then WorkPc.line else .read
  if buf.length - len ≤ 2 then
    match calls.alloc w.allocs with
    | none => { w with pc := .clean, buf := buf, len := len, c := c, allocs := w.allocs + 1 }
    | some memory =>
        { w with
          pc := pc, buf := buf ++ (List.range buf.length).map fun i => memory (buf.length + i),
          len := len, c := c, allocs := w.allocs + 1 }
  else { w with pc := pc, buf := buf, len := len, c := c }

/-- The scan for the end of the line, which ends the string there. -/
def cut (buf : List Char) (len : Nat) : List Char × Nat :=
  let i := (buf.take (len + 1)).findIdx fun c => c == '\n' || c == '\r'
  if i < (buf.take (len + 1)).length then (buf.set i nul, i) else (buf, len)

/-- A step with what has arrived, and whether the client has closed the connection: the bytes that
are left and the bytes that are written. `none` while `read` waits. -/
def step (calls : Calls) (w : Work) (input : List Char) (closed : Bool) :
    Option (Work × List Char × List Char) :=
  match w.pc with
  | .malloc =>
      match calls.alloc w.allocs with
      | none => some ({ w with pc := .clean, buf := [], allocs := w.allocs + 1 }, input, [])
      | some memory =>
          some ({ w with
            pc := .read, buf := (List.range bufSize).map memory, len := 0, c := nul,
            allocs := w.allocs + 1 }, input, [])
  | .read =>
      if calls.readFails w.reads then
        some ({ w with pc := .clean, reads := w.reads + 1 }, input, [])
      else
        match input with
        | c :: input => some ({ w with reads := w.reads + 1 }.store calls c, input, [])
        | [] =>
            -- at the end of the stream `c` stays as it is
            if closed then some ({ w with reads := w.reads + 1 }.store calls w.c, [], []) else none
  | .line =>
      if w.buf.take (closeLine.length + 1) = closeLine ++ [nul] then
        some ({ w with pc := .returned }, input, [])
      else
        let (buf, len) := cut w.buf w.len
        some ({ w with pc := .colon, buf := buf, len := len }, input, buf.take len)
  | .colon => some ({ w with pc := .opendir }, input, [':', '\n'])
  | .opendir =>
      match calls.opendir (cString w.buf) with
      | some names => some ({ w with pc := .entries names }, input, [])
      | none => some ({ w with pc := .refuse }, input, [])
  | .entries [] => some ({ w with pc := .free }, input, [nul])
  | .entries (name :: names) => some ({ w with pc := .entryName name names }, input, ['\t'])
  | .entryName name names => some ({ w with pc := .entryEnd names }, input, name)
  | .entryEnd names => some ({ w with pc := .entries names }, input, ['\n'])
  | .refuse => some ({ w with pc := .free }, input, errorLine ++ [nul])
  | .free => some ({ w with pc := .malloc }, input, [])
  | .clean => some ({ w with pc := .returned }, input, serverError ++ [nul])
  | .returned => none

end Work

/-! ## The client -/

inductive ClientPc
  /-- At the test of the loop over the arguments. -/
  | next
  /-- The argument is sent, but not the end of its line. -/
  | lineEnd
  | read
  | closed
deriving DecidableEq, Repr

structure ClientState where
  pc : ClientPc
  /-- The arguments from the current one on. -/
  args : List (List Char)
  /-- What the read loops have read. -/
  finished : List (List Char)
  current : List Char
deriving DecidableEq, Repr

namespace ClientState

/-- The read loop ends. -/
def finish (c : ClientState) (answer : List Char) : ClientState :=
  ⟨.next, c.args.tail, c.finished ++ [answer], []⟩

/-- A step with what has arrived, and whether the server has closed the connection. -/
def step (c : ClientState) (input : List Char) (closed : Bool) :
    Option (ClientState × List Char × List Char) :=
  match c.pc with
  | .next =>
      match c.args with
      | arg :: _ => some ({ c with pc := .lineEnd }, input, arg)
      | [] => some ({ c with pc := .closed }, input, closeLine ++ [nul])
  | .lineEnd => some ({ c with pc := .read }, input, ['\n'])
  | .read =>
      match input with
      | b :: input =>
          if b = nul then some (c.finish (c.current ++ [b]), input, [])
          else some ({ c with current := c.current ++ [b] }, input, [])
      | [] => if closed then some (c.finish c.current, [], []) else none
  | .closed => none

end ClientState

/-! ## Both together -/

structure Session where
  client : ClientState
  server : Work
  toServer : List Char
  toClient : List Char
deriving DecidableEq, Repr

inductive Peer
  | client
  | server
deriving DecidableEq, Repr

namespace Session

def start (args : List (List Char)) : Session := ⟨⟨.next, args, [], []⟩, .start, [], []⟩

def step (calls : Calls) (s : Session) : Peer → Option Session
  | .client =>
      (s.client.step s.toClient (s.server.pc = .returned)).map fun (client, rest, sent) =>
        { s with client := client, toClient := rest, toServer := s.toServer ++ sent }
  | .server =>
      (s.server.step calls s.toServer (s.client.pc = .closed)).map fun (server, rest, sent) =>
        { s with server := server, toServer := rest, toClient := s.toClient ++ sent }

end Session

/-! ## The answers -/

/-- What follows the colon: the names, or the error line, and the NUL. -/
def listing : Option (List (List Char)) → List Char
  | some names => names.flatMap (fun name => '\t' :: (name ++ ['\n'])) ++ [nul]
  | none => errorLine ++ [nul]

/-- The answer to a directory. -/
def answer (opendir : List Char → Option (List (List Char))) (arg : List Char) : List Char :=
  arg ++ [':', '\n'] ++ listing (opendir arg)

end SyssoftLabs.Lab6
