import Mathlib.Logic.Function.Basic
import SyssoftLabs.Lab6.Server.Service
import SyssoftLabs.Lab6.Session.InStep

/-!
# The server with all its clients

Clients connect at any time and send before they are accepted. The workers of the pool run `do_work`
on the descriptors that they take from the queue, each with its own variables, on the connection
that the descriptor names at that moment. `calls` says what the calls of `do_work` find, in each of
its runs anew; on a descriptor that is not open its reads fail. The queue is a correct one here, and
a call of it is one step. The server runs all the time: no `accept` fails and no signal comes,
either of which would end it by `cleanup`, and no other call of `main` or of `worker` fails.
-/

namespace SyssoftLabs.Lab6

open SyssoftLabs.Framework

/-- What the connection is to the server. -/
inductive ServerEnd
  /-- Not accepted yet. -/
  | backlog
  | opened (fd : Int)
  | closed
deriving DecidableEq, Repr

structure Connection where
  /-- The directories on the command line of the client. -/
  args : List (List Char)
  client : ClientState
  toServer : List Char
  toClient : List Char
  server : ServerEnd
deriving DecidableEq, Repr

def Connection.start (args : List (List Char)) : Connection :=
  ⟨args, ⟨.next, args, [], []⟩, [], [], .backlog⟩

structure Directory where
  pool : Pool
  /-- The variables of `do_work` in each worker. -/
  works : Nat → Work
  connections : List Connection

inductive DirectoryStep
  | connect (args : List (List Char))
  /-- A step of the client of a connection. -/
  | client (k : Nat)
  /-- `accept` gives the descriptor to a connection. -/
  | accept (fd : Int) (k : Nat)
  /-- A step of the pool between the calls of `do_work` and `close`. -/
  | pool (a : Action)
  /-- A worker calls `do_work`. -/
  | call (i : Nat)
  /-- A step of `do_work` of a worker on a connection. -/
  | serve (i k : Nat)
  /-- The same on a descriptor that is not open. -/
  | serveNone (i : Nat)
  /-- `do_work` returns. -/
  | finish (i : Nat)
  /-- `close` of a worker on a connection. -/
  | close (i k : Nat)
  /-- The same on a descriptor that is not open. -/
  | closeNone (i : Nat)
deriving DecidableEq, Repr

/-- Before or in `do_work`, or before `close`. -/
def WorkerPc.calls : WorkerPc → Bool
  | .unfree _ | .work _ | .close _ => true
  | _ => false

namespace Directory

def start : Directory := ⟨.init, fun _ => .start, []⟩

/-- No connection is open under the descriptor. -/
def Vacant (s : Directory) (fd : Int) : Prop := ∀ conn ∈ s.connections, conn.server ≠ .opened fd

instance Vacant.decidable (s : Directory) (fd : Int) : Decidable (s.Vacant fd) :=
  inferInstanceAs (Decidable (∀ conn ∈ s.connections, conn.server ≠ .opened fd))

/-- The step of the pool neither accepts a client nor begins or ends `do_work` or `close`. -/
def plain (s : Pool) : Action → Bool
  | .accept _ => false
  | .worker i => !(s.workers[i]?).any WorkerPc.calls
  | .main | .signal _ | .signalNobody | .dequeue _ _ | .spurious _ => true

variable (c : Config) (spurious : Bool) (calls : Calls)

/-- The calls on a descriptor that is not open. -/
def badCalls : Calls := { calls with readFails := fun _ => true }

def step (s : Directory) : DirectoryStep → Option Directory
  | .connect args => some { s with connections := s.connections ++ [.start args] }
  | .client k =>
      (s.connections[k]?).bind fun conn =>
        (conn.client.step conn.toClient (conn.server = .closed)).map fun (client, rest, sent) =>
          { s with connections := s.connections.set k { conn with
              client := client, toClient := rest, toServer := conn.toServer ++ sent } }
  | .accept fd k =>
      (s.connections[k]?).bind fun conn =>
        if conn.server = .backlog then
          (Lab6.step c (.fifo spurious) s.pool (.accept fd)).map fun pool =>
            { s with
              pool := pool, connections := s.connections.set k { conn with server := .opened fd } }
        else none
  | .pool a =>
      if plain s.pool a then
        (Lab6.step c (.fifo spurious) s.pool a).map fun pool => { s with pool := pool }
      else none
  | .call i =>
      match s.pool.workers[i]? with
      | some (.unfree _) =>
          (Lab6.step c (.fifo spurious) s.pool (.worker i)).map fun pool =>
            { s with pool := pool, works := Function.update s.works i .start }
      | _ => none
  | .serve i k =>
      (s.connections[k]?).bind fun conn =>
        match s.pool.workers[i]? with
        | some (.work client) =>
            if conn.server = .opened client then
              ((s.works i).step calls conn.toServer (conn.client.pc = .closed)).map
                fun (w, rest, sent) =>
                  { s with
                    works := Function.update s.works i w
                    connections := s.connections.set k { conn with
                      toServer := rest, toClient := conn.toClient ++ sent } }
            else none
        | _ => none
  | .serveNone i =>
      match s.pool.workers[i]? with
      | some (.work client) =>
          if s.Vacant client then
            ((s.works i).step (badCalls calls) [] false).map fun (w, _, _) =>
              { s with works := Function.update s.works i w }
          else none
      | _ => none
  | .finish i =>
      match s.pool.workers[i]? with
      | some (.work _) =>
          if (s.works i).pc = .returned then
            (Lab6.step c (.fifo spurious) s.pool (.worker i)).map fun pool =>
              { s with pool := pool }
          else none
      | _ => none
  | .close i k =>
      (s.connections[k]?).bind fun conn =>
        match s.pool.workers[i]? with
        | some (.close client) =>
            if conn.server = .opened client then
              (Lab6.step c (.fifo spurious) s.pool (.worker i)).map fun pool =>
                { s with
                  pool := pool, connections := s.connections.set k { conn with server := .closed } }
            else none
        | _ => none
  | .closeNone i =>
      match s.pool.workers[i]? with
      | some (.close client) =>
          if s.Vacant client then
            (Lab6.step c (.fifo spurious) s.pool (.worker i)).map fun pool =>
              { s with pool := pool }
          else none
      | _ => none

end Directory

end SyssoftLabs.Lab6
