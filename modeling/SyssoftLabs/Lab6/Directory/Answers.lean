import SyssoftLabs.Lab6.Directory.Whole

/-!
# Every client gets its own answers
-/

namespace SyssoftLabs.Lab6

open SyssoftLabs.Framework

variable {c : Config} {spurious : Bool} {opendir : List Char → Option (List (List Char))}

/-- What a client has read when these are the answers to its arguments. -/
structure Connection.Follows (conn : Connection) (answers : List (List Char)) : Prop where
  finished : conn.client.finished <+: answers
  reading : conn.client.pc = .read → ∃ rest, conn.toClient ++ rest ≠ [] ∧
    answers[conn.client.finished.length]? = some (conn.client.current ++ conn.toClient ++ rest)
  between : conn.client.pc ≠ .read → conn.toClient = []
  left : conn.client.pc = .closed → conn.client.finished = answers
  /-- The server does not close the connection before the client does. -/
  kept : conn.server = .closed → conn.client.pc = .closed

/-- Whatever the numbers of workers and clients and the order of all their steps, with spurious
wake-ups or without: a client whose arguments make requests has read the answers to its own
arguments, in their order, and the server keeps its connection until it has read them all. -/
theorem every_client_gets_its_answers {s : Server} {clients : Ptr} {heap : Heap QueueNode}
    (hnames : PlainNames opendir)
    (hinit : queueInit (Heap.empty fun _ => true) = .ok (clients, heap))
    (h : Reachable (Server.step c spurious (.zeroed opendir)) (Server.start clients heap) s) :
    ∀ conn ∈ s.connections, (∀ arg ∈ conn.args, Request arg) →
      conn.Follows (conn.args.map (answer opendir)) := by
  have hs := Server.Sound.of_reachable hnames hinit h
  intro conn hconn hrequests
  obtain ⟨w, hserved, hsession⟩ := hs.directory.talks conn hconn
  obtain ⟨n, hn⟩ := hsession hrequests
  have hfollows := hn.follows
  refine ⟨hfollows.finished, hfollows.reading, hfollows.between, hfollows.closed, ?_⟩
  intro hclosed
  rw [hclosed] at hserved
  exact (hfollows.returned hserved).1

/-- Two workers take a client each and serve them in turns; the first one closes its connection
while the other client still reads. -/
def twoClients : List DirectoryStep :=
  [[.pool .main, .pool .main, .pool .main, .pool (.worker 0), .pool (.worker 0), .connect [['a']],
    .connect [['x']], .client 1, .accept 4 0, .pool .main, .pool .main, .pool .main, .pool .main,
    .pool (.signal 0), .pool .signalNobody, .pool (.worker 0), .pool (.dequeue 0 4),
    .pool (.worker 0), .pool (.worker 0), .call 0, .pool (.worker 1), .pool (.worker 1),
    .accept 5 1, .pool .main, .pool .main, .pool .main, .pool .main, .pool (.signal 1),
    .pool .signalNobody, .pool (.worker 1), .pool (.dequeue 1 5), .pool (.worker 1),
    .pool (.worker 1), .call 1, .client 0, .client 0, .client 1],
    (List.replicate 8 [.serve 0 0, .serve 1 1]).flatten, List.replicate 4 (.serve 0 0),
    List.replicate 12 (.client 1), List.replicate 8 (.client 0), List.replicate 9 (.serve 0 0),
    [.finish 0, .close 0 0]].flatten

theorem every_client_gets_its_answers_two :
    ∃ clients heap s, queueInit (Heap.empty fun _ => true) = .ok (clients, heap) ∧
      run (Server.step ⟨2, 2, by decide, by decide, by decide⟩ false (.zeroed oneEntry))
        (Server.start clients heap) twoClients = some s ∧
      s.connections.map Connection.server = [.closed, .opened 5] ∧
      ∀ conn ∈ s.connections, (∀ arg ∈ conn.args, Request arg) →
        conn.Follows (conn.args.map (answer oneEntry)) := by
  have hrun : (match queueInit (Heap.empty fun _ => true) with
      | .ok (clients, heap) =>
          (run (Server.step ⟨2, 2, by decide, by decide, by decide⟩ false (.zeroed oneEntry))
            (Server.start clients heap) twoClients).map fun s =>
              s.connections.map Connection.server
      | .error _ => none) = some [.closed, .opened 5] := by decide +kernel
  split at hrun
  · next clients heap hinit =>
      obtain ⟨s, hs, hservers⟩ := Option.map_eq_some_iff.mp hrun
      exact ⟨clients, heap, s, hinit, hs, hservers,
        every_client_gets_its_answers plainNames_oneEntry hinit ⟨_, hs⟩⟩
  · cases hrun

end SyssoftLabs.Lab6
