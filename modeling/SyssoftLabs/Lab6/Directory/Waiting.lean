import SyssoftLabs.Lab6.Directory.Answers

/-!
# A client that is enqueued behind another one

It waits for the answer to its first argument forever, with its connection open.
-/

namespace SyssoftLabs.Lab6

open SyssoftLabs.Framework

variable {c : Config} {spurious : Bool} {opendir : List Char → Option (List (List Char))}

/-! ## Clients without an answer -/

/-- The client has not read a byte. -/
inductive ClientState.Unanswered (args : List (List Char)) : ClientState → Prop
  | next : Unanswered args ⟨.next, args, [], []⟩
  | lineEnd (hargs : args ≠ []) : Unanswered args ⟨.lineEnd, args, [], []⟩
  | read (hargs : args ≠ []) : Unanswered args ⟨.read, args, [], []⟩
  | closed (hargs : args = []) : Unanswered args ⟨.closed, args, [], []⟩

/-- How many steps the client can take without an answer. -/
def ClientPc.untilRead : ClientPc → Nat
  | .next => 2
  | .lineEnd => 1
  | .read | .closed => 0

theorem ClientState.Unanswered.step {args : List (List Char)} {client client' : ClientState}
    {rest sent : List Char} (h : client.Unanswered args)
    (hstep : client.step [] false = some (client', rest, sent)) :
    client'.Unanswered args ∧ rest = [] ∧ client'.pc.untilRead < client.pc.untilRead := by
  cases h with
  | next =>
      cases args with
      | nil =>
          cases hstep
          exact ⟨.closed rfl, rfl, by decide⟩
      | cons arg args =>
          cases hstep
          exact ⟨.lineEnd (List.cons_ne_nil _ _), rfl, by simp [ClientPc.untilRead]⟩
  | lineEnd hargs =>
      cases hstep
      exact ⟨.read hargs, rfl, by simp [ClientPc.untilRead]⟩
  | read hargs => cases hstep
  | closed hargs => cases hstep

theorem ClientState.Unanswered.waits {args : List (List Char)} {client : ClientState}
    (h : client.Unanswered args) : client.finished = [] ∧ client.current = [] ∧
      client.args = args ∧ (args ≠ [] → client.pc ≠ .closed) := by
  cases h with
  | next | lineEnd _ | read _ => exact ⟨rfl, rfl, rfl, fun _ => ClientPc.noConfusion⟩
  | closed hargs => exact ⟨rfl, rfl, rfl, fun hne => absurd hargs hne⟩

/-- Nothing has been sent to the client. -/
structure Connection.Unanswered (conn : Connection) : Prop where
  client : conn.client.Unanswered conn.args
  nothing : conn.toClient = []

/-- No worker has called `do_work` for the connection. -/
def ServerEnd.Uncalled (s : Pool) : ServerEnd → Prop
  | .backlog => True
  | .opened fd => ∀ i : Nat, s.workers[i]? ≠ some (.work fd) ∧ s.workers[i]? ≠ some (.close fd)
  | .closed => False

def Directory.Silent (s : Directory) : Prop :=
  ∀ conn ∈ s.connections, conn.server.Uncalled s.pool → conn.Unanswered

private theorem uncalled_of_set {s t : Pool} {i : Nat} {pc pc' : WorkerPc} {server : ServerEnd}
    (hi : s.workers[i]? = some pc) (hworkers : t.workers = s.workers.set i pc')
    (hpc : ∀ fd, server = .opened fd → pc = .work fd ∨ pc = .close fd → pc' = .close fd)
    (h : server.Uncalled t) : server.Uncalled s := by
  cases server with
  | backlog => trivial
  | closed => exact h
  | opened fd =>
      intro j
      obtain ⟨hwork, hclose⟩ := h j
      rw [hworkers] at hwork hclose
      by_cases hji : j = i
      · subst hji
        rw [List.getElem?_set_self (List.getElem?_eq_some_iff.mp hi).1] at hclose
        rw [hi]
        constructor
        · intro hpc'
          exact hclose (congrArg some (hpc fd rfl (Or.inl (Option.some.inj hpc'))))
        · intro hpc'
          exact hclose (congrArg some (hpc fd rfl (Or.inr (Option.some.inj hpc'))))
      · rw [List.getElem?_set_ne (Ne.symm hji)] at hwork hclose
        exact ⟨hwork, hclose⟩

private theorem uncalled_congr {s t : Pool} {server : ServerEnd}
    (hworkers : ∀ q : WorkerPc, q.busy = true → ∀ j : Nat,
      t.workers[j]? = some q ↔ s.workers[j]? = some q)
    (h : server.Uncalled t) : server.Uncalled s := by
  cases server with
  | backlog => trivial
  | closed => exact h
  | opened fd =>
      intro j
      rw [Ne, Ne, ← hworkers (.work fd) rfl j, ← hworkers (.close fd) rfl j]
      exact h j

namespace Directory

variable {s t : Directory} {conn : Connection} {k : Nat}

private theorem uncalled_of_worker {pool : Pool} {i : Nat} {pc : WorkerPc} {server : ServerEnd}
    (hi : s.pool.workers[i]? = some pc)
    (hpool : Lab6.step c (.fifo spurious) s.pool (.worker i) = some pool)
    (hpc : pc.calls = true) (hother : ∀ fd, server = .opened fd → pc ≠ .close fd)
    (h : server.Uncalled pool) : server.Uncalled s.pool := by
  simp only [Lab6.step, hi, Option.bind_some] at hpool
  cases pc with simp only [WorkerPc.calls, Bool.false_eq_true] at hpc
  | unfree client =>
      cases hpool
      exact uncalled_of_set hi rfl (by simp) h
  | work client =>
      cases hpool
      exact uncalled_of_set hi rfl (by simp) h
  | close client =>
      cases hpool
      refine uncalled_of_set hi rfl (fun fd hfd hat => ?_) h
      rcases hat with hat | hat
      · cases hat
      · exact absurd hat (hother fd hfd)

theorem Silent.client {client : ClientState} {rest sent : List Char} (h : s.Silent)
    (hk : s.connections[k]? = some conn) (huncalled : conn.server.Uncalled s.pool)
    (hmove : conn.client.step conn.toClient (conn.server = .closed) = some (client, rest, sent)) :
    Connection.Unanswered { conn with
      client := client, toClient := rest, toServer := conn.toServer ++ sent } := by
  have hold := h conn (List.mem_of_getElem? hk) huncalled
  have hopen : conn.server ≠ .closed := by
    intro hclosed
    rw [hclosed] at huncalled
    exact huncalled
  rw [hold.nothing, decide_eq_false hopen] at hmove
  obtain ⟨hclient, hrest, -⟩ := hold.client.step hmove
  exact ⟨hclient, hrest⟩

theorem Silent.step {a : DirectoryStep} (hs : s.Sound opendir) (h : s.Silent)
    (hstep : s.step c spurious (.zeroed opendir) a = some t) : t.Silent := by
  intro conn hconn huncalled
  cases move_of_step hstep with
  | connect args =>
      rcases List.mem_append.mp hconn with hold | hnew
      · exact h conn hold huncalled
      · rw [List.mem_singleton.mp hnew]
        exact ⟨.next, rfl⟩
  | client hk hmove =>
      rcases of_mem_set hconn with rfl | ⟨l, -, hl⟩
      · exact h.client hk huncalled hmove
      · exact h conn (List.mem_of_getElem? hl) huncalled
  | accept hk hserver hpool =>
      rcases of_mem_set hconn with rfl | ⟨l, -, hl⟩
      · have hold := h _ (List.mem_of_getElem? hk) (by rw [hserver]; trivial)
        exact ⟨hold.client, hold.nothing⟩
      · refine h conn (List.mem_of_getElem? hl) (uncalled_congr (fun q _ j => ?_) huncalled)
        cases step_move hpool with
        | accept _ _ _ => exact Iff.rfl
  | pool hplain hpool =>
      exact h conn hconn (uncalled_congr (quiet_of_plain hpool hplain).workers huncalled)
  | call hi hpool =>
      exact h conn hconn (uncalled_of_worker hi hpool rfl (by simp) huncalled)
  | @serve i k conn' client w rest sent hk hi hserver _ =>
      rcases of_mem_set hconn with rfl | ⟨l, -, hl⟩
      · change conn'.server.Uncalled s.pool at huncalled
        rw [hserver] at huncalled
        exact absurd hi (huncalled i).1
      · exact h conn (List.mem_of_getElem? hl) huncalled
  | serveNone _ _ => exact h conn hconn huncalled
  | finish hi _ hpool =>
      exact h conn hconn (uncalled_of_worker hi hpool rfl (by simp) huncalled)
  | close hk hi hserver hpool =>
      rcases of_mem_set hconn with rfl | ⟨l, hlk, hl⟩
      · exact huncalled.elim
      · refine h conn (List.mem_of_getElem? hl)
          (uncalled_of_worker hi hpool rfl (fun fd hfd hsame => ?_) huncalled)
        cases hsame
        exact hlk (hs.alone hl hk hfd hserver)
  | closeNone hi hvacant hpool =>
      refine h conn hconn (uncalled_of_worker hi hpool rfl (fun fd hfd hsame => ?_) huncalled)
      cases hsame
      exact hvacant conn hconn hfd

end Directory

/-! ## Behind another client -/

namespace Server

variable {s t : Server} {conn : Connection} {k : Nat} {fd : Int} {clients : Ptr}
  {heap : Heap QueueNode}

private theorem silent_step {a : DirectoryStep} (hs : s.Sound opendir) (h : s.directory.Silent)
    (hstep : s.step c spurious (.zeroed opendir) a = some t) : t.directory.Silent := by
  cases ha : a.inQueue with
  | true =>
      obtain ⟨b, serving, -, hplain, hserving, rfl⟩ := step_inQueue ha hstep
      intro conn hconn huncalled
      have hquiet := Serving.quiet_of_plain hserving hplain
      exact h conn hconn (uncalled_congr hquiet.workers huncalled)
  | false =>
      rw [step_of_not_inQueue ha] at hstep
      obtain ⟨d, hd, rfl⟩ := Option.map_eq_some_iff.mp hstep
      exact h.step hs.directory hd

private theorem silent_of_reachable (hnames : PlainNames opendir)
    (hinit : queueInit (Heap.empty fun _ => true) = .ok (clients, heap))
    (h : Reachable (Server.step c spurious (.zeroed opendir)) (Server.start clients heap) s) :
    s.directory.Silent := by
  have hs : s.Sound opendir ∧ s.directory.Silent := by
    apply h.invariant (I := fun s : Server => s.Sound opendir ∧ s.directory.Silent)
    · rintro s a t ⟨hs, hsilent⟩ hstep
      exact ⟨hs.step hnames hstep, silent_step hs hsilent hstep⟩
    · refine ⟨.start hinit, ?_⟩
      intro conn hconn
      cases hconn
  exact hs.2

/-- The descriptor of the connection was enqueued behind another one. -/
structure Behind (s : Server) (k : Nat) (fd : Int) (conn : Connection) : Prop where
  connection : s.connections[k]? = some conn
  server : conn.server = .opened fd
  behind : fd ∈ s.serving.behind

private theorem Behind.uncalled (hs : s.Sound opendir) (h : s.Behind k fd conn) :
    conn.server.Uncalled s.serving.pool := by
  obtain ⟨held, hserving⟩ := hs.serving
  have hopened := hserving.behind_opened h.behind
  have hne : fd ≠ -1 := by
    rintro rfl
    exact hserving.apart.valid hopened
  rw [h.server]
  intro i
  constructor
  · intro hi
    exact hserving.behind_notHeld h.behind (List.mem_of_getElem? hi) (by simp [WorkerPc.holds, hne])
  · intro hi
    exact hserving.behind_notHeld h.behind (List.mem_of_getElem? hi) (by simp [WorkerPc.holds, hne])

private theorem Behind.unanswered (hs : s.Sound opendir) (hsilent : s.directory.Silent)
    (h : s.Behind k fd conn) : conn.Unanswered :=
  hsilent conn (List.mem_of_getElem? h.connection) (h.uncalled hs)

/-- The only steps that concern it are those of its client, and they are few. -/
theorem Behind.step {a : DirectoryStep} (hs : s.Sound opendir) (hsilent : s.directory.Silent)
    (h : s.Behind k fd conn) (hstep : s.step c spurious (.zeroed opendir) a = some t) :
    ∃ conn', t.Behind k fd conn' ∧ conn'.args = conn.args ∧
      [a].count (.client k) + conn'.client.pc.untilRead ≤ conn.client.pc.untilRead := by
  have hbehind : fd ∈ t.serving.behind := by
    obtain ⟨held, hserving⟩ := hs.serving
    obtain ⟨hsome, hnone⟩ := step_serving hstep
    cases ha : a.inPool with
    | none => exact (hnone ha).symm ▸ h.behind
    | some b =>
        have hleft : s.serving.Left fd s.serving := ⟨h.behind, fun _ => rfl, fun _ => rfl⟩
        exact (hleft.step hserving (hsome b ha)).behind
  by_cases ha : a = .client k
  · subst ha
    have hold := h.unanswered hs hsilent
    obtain ⟨client, rest, sent, hmove, rfl⟩ := step_client h.connection hstep
    have hopen : conn.server ≠ .closed := by
      rw [h.server]
      exact ServerEnd.noConfusion
    rw [hold.nothing, decide_eq_false hopen] at hmove
    obtain ⟨-, -, hless⟩ := hold.client.step hmove
    have hlt := (List.getElem?_eq_some_iff.mp h.connection).1
    refine ⟨{ conn with client := client, toClient := rest, toServer := conn.toServer ++ sent },
      ⟨List.getElem?_set_self hlt, h.server, hbehind⟩, rfl, ?_⟩
    rw [List.count_singleton_self]
    change 1 + client.pc.untilRead ≤ _
    omega
  · obtain hsame | rfl | hserver | ⟨fd', i, hserver, hi⟩ := step_connection h.connection hstep
    · refine ⟨conn, ⟨hsame, h.server, hbehind⟩, rfl, ?_⟩
      rw [List.count_singleton, if_neg (by simpa using ha)]
      omega
    · exact absurd rfl ha
    · rw [h.server] at hserver
      cases hserver
    · have huncalled := h.uncalled hs
      rw [hserver] at huncalled
      rcases hi with hi | hi
      · exact absurd hi (huncalled i).1
      · exact absurd hi (huncalled i).2

theorem Behind.run {steps : List DirectoryStep} (hnames : PlainNames opendir)
    (hs : s.Sound opendir) (hsilent : s.directory.Silent) (h : s.Behind k fd conn)
    (hrun : run (Server.step c spurious (.zeroed opendir)) s steps = some t) :
    ∃ conn', t.Behind k fd conn' ∧ conn'.args = conn.args ∧ conn'.Unanswered ∧
      steps.count (.client k) + conn'.client.pc.untilRead ≤ conn.client.pc.untilRead := by
  induction steps generalizing s conn with
  | nil =>
      cases hrun
      exact ⟨conn, h, rfl, h.unanswered hs hsilent, by simp⟩
  | cons a steps ih =>
      rw [run_cons, Option.bind_eq_some_iff] at hrun
      obtain ⟨u, hu, hrun⟩ := hrun
      obtain ⟨conn', h', hargs', hle'⟩ := h.step hs hsilent hu
      obtain ⟨conn'', h'', hargs'', hold, hle''⟩ :=
        ih (hs.step hnames hu) (silent_step hs hsilent hu) h' hrun
      refine ⟨conn'', h'', hargs''.trans hargs', hold, ?_⟩
      rw [← List.singleton_append, List.count_append]
      omega

/-- A client whose descriptor is enqueued behind another one takes two more steps at most, whatever
the others do while the server runs: it never reads a byte, never gets to its second argument, and
neither end of its connection is ever closed. -/
theorem client_behind_waits (hnames : PlainNames opendir)
    (hinit : queueInit (Heap.empty fun _ => true) = .ok (clients, heap))
    (h : Reachable (Server.step c spurious (.zeroed opendir)) (Server.start clients heap) s)
    (hk : s.connections[k]? = some conn) (hopen : conn.server = .opened fd)
    (hfd : fd ∈ s.serving.behind) (steps : List DirectoryStep)
    (hrun : run (Server.step c spurious (.zeroed opendir)) s steps = some t) :
    steps.count (.client k) ≤ 2 ∧ ∃ conn', t.connections[k]? = some conn' ∧
      conn'.server = .opened fd ∧ conn'.toClient = [] ∧ conn'.client.finished = [] ∧
      conn'.client.current = [] ∧ conn'.client.args = conn.args ∧
      (conn.args ≠ [] → conn'.client.pc ≠ .closed) := by
  have hs := Sound.of_reachable hnames hinit h
  have hbehind : s.Behind k fd conn := ⟨hk, hopen, hfd⟩
  obtain ⟨conn', h', hargs, hold, hle⟩ :=
    hbehind.run hnames hs (silent_of_reachable hnames hinit h) hrun
  have htwo : conn.client.pc.untilRead ≤ 2 := by cases conn.client.pc <;> decide
  obtain ⟨hfinished, hcurrent, hrest, hwaits⟩ := hold.client.waits
  rw [hargs] at hrest hwaits
  exact ⟨by omega, conn', h'.connection, h'.server, hold.nothing, hfinished, hcurrent, hrest,
    hwaits⟩

/-- The only worker takes client 4, and client 5 has sent its argument. -/
def secondWaits : List DirectoryStep :=
  [.pool .main, .pool .main, .pool (.worker 0), .pool (.worker 0), .connect [['a']],
    .connect [['x']], .accept 4 0, .pool .main, .pool .main, .pool .main, .pool .main,
    .pool (.signal 0), .pool .signalNobody, .accept 5 1, .pool .main, .pool .main, .pool .main,
    .pool .main, .pool .signalNobody, .pool .signalNobody, .pool (.worker 0), .pool (.dequeue 0 4),
    .client 1]

theorem client_behind_waits_second :
    ∃ clients heap s, queueInit (Heap.empty fun _ => true) = .ok (clients, heap) ∧
      run (Server.step ⟨1, 1, by decide, by decide, by decide⟩ false (.zeroed oneEntry))
        (Server.start clients heap) secondWaits = some s ∧
      ∀ steps t,
        run (Server.step ⟨1, 1, by decide, by decide, by decide⟩ false (.zeroed oneEntry)) s steps =
          some t →
        steps.count (.client 1) ≤ 2 ∧ ∃ conn, t.connections[1]? = some conn ∧
          conn.server = .opened 5 ∧ conn.toClient = [] ∧ conn.client.finished = [] ∧
          conn.client.current = [] ∧ conn.client.args = [['x']] ∧
          ([['x']] ≠ [] → conn.client.pc ≠ .closed) := by
  have hrun : (match queueInit (Heap.empty fun _ => true) with
      | .ok (clients, heap) =>
          (run (Server.step ⟨1, 1, by decide, by decide, by decide⟩ false (.zeroed oneEntry))
            (Server.start clients heap) secondWaits).map fun s =>
              (s.connections[1]?.map fun conn => (conn.args, conn.server), s.serving.behind)
      | .error _ => none) = some (some ([['x']], .opened 5), [5]) := by decide +kernel
  split at hrun
  · next clients heap hinit =>
      obtain ⟨s, hs, hends⟩ := Option.map_eq_some_iff.mp hrun
      rw [Prod.mk.injEq] at hends
      obtain ⟨conn, hk, hconn⟩ := Option.map_eq_some_iff.mp hends.1
      rw [Prod.mk.injEq] at hconn
      have hfd : (5 : Int) ∈ s.serving.behind := by
        rw [hends.2]
        exact List.mem_singleton_self 5
      refine ⟨clients, heap, s, hinit, hs, fun steps t ht => ?_⟩
      rw [← hconn.1]
      exact client_behind_waits plainNames_oneEntry hinit ⟨_, hs⟩ hk hconn.2 hfd steps ht
  · cases hrun

end Server

end SyssoftLabs.Lab6
