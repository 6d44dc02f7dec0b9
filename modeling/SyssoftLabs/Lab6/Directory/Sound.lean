import Mathlib.Data.List.Nodup
import SyssoftLabs.Lab6.Directory.Model

/-!
# One call of `do_work` for each connection

The workers, the queue and the other clients do not show in a session. An open descriptor names one
connection and is held by one worker, so that one call of `do_work` serves the connection from its
first byte to its last.
-/

namespace SyssoftLabs.Lab6

open SyssoftLabs.Framework

variable {c : Config} {spurious : Bool} {opendir : List Char → Option (List (List Char))}
  {calls : Calls}

/-! ## Who holds a descriptor -/

/-- In `do_work` or before `close`. -/
def WorkerPc.busy : WorkerPc → Bool
  | .work _ | .close _ => true
  | _ => false

theorem getElem?_set_busy {l : List WorkerPc} {i j : Nat} {pc pc' q : WorkerPc}
    (hi : l[i]? = some pc) (hpc : pc ≠ q) (hpc' : pc' ≠ q) :
    (l.set i pc')[j]? = some q ↔ l[j]? = some q := by
  by_cases hij : i = j
  · subst hij
    rw [List.getElem?_set_self (List.getElem?_eq_some_iff.mp hi).1, hi, Option.some_inj,
      Option.some_inj]
    exact iff_of_false hpc' hpc
  · rw [List.getElem?_set_ne hij]

private theorem getElem?_append_start {l : List WorkerPc} {j : Nat} {q : WorkerPc}
    (hq : q ≠ .start) :
    (l ++ [.start])[j]? = some q ↔ l[j]? = some q := by
  by_cases hj : j < l.length
  · rw [List.getElem?_append_left hj]
  · rw [List.getElem?_append_right (Nat.not_lt.mp hj),
      List.getElem?_eq_none (Nat.not_lt.mp hj)]
    apply iff_of_false
    · intro h
      exact hq (List.mem_singleton.mp (List.mem_of_getElem? h))
    · simp

/-- No call begins or ends, and nothing is opened or closed. -/
structure Quiet (s t : Pool) : Prop where
  workers : ∀ q : WorkerPc, q.busy = true → ∀ j : Nat,
    t.workers[j]? = some q ↔ s.workers[j]? = some q
  opened : t.opened = s.opened

theorem quiet_of_plain {s t : Pool} {a : Action} (h : step c (.fifo spurious) s a = some t)
    (hplain : Directory.plain s a = true) : Quiet s t := by
  have hne : ∀ {pc q : WorkerPc}, q.busy = true → pc.busy = false → pc ≠ q := by
    intro pc q hq hpc heq
    rw [heq, hq] at hpc
    cases hpc
  cases step_move h with
  | create _ _ | spawn _ =>
      exact ⟨fun q hq _ => getElem?_append_start (hne hq rfl).symm, rfl⟩
  | setPool _ _ | lock _ _ | enqueue _ | unlock _ | serviceNone _ _ | serviceSome _ _ | grow _ _
  | growFull _ _ | signalNobody _ _ => exact ⟨fun _ _ _ => Iff.rfl, rfl⟩
  | accept _ _ _ => cases hplain
  | dequeueAny he _ => cases he
  | unfree hi | work hi | close hi => simp [Directory.plain, hi, WorkerPc.calls] at hplain
  | signal _ hi | start hi | callWait hi | wake hi _ | dequeueEmpty hi _ | dequeue hi _
  | workerUnlock hi | retire hi _ | keep hi _ | serve hi _ | leave hi | spurious _ hi =>
      exact ⟨fun q hq _ => getElem?_set_busy hi (hne hq rfl) (hne hq rfl), rfl⟩

/-- The descriptors of the workers are open, and each has one worker. -/
structure Apart (s : Pool) : Prop where
  nodup : s.opened.Nodup
  held : ∀ fd ∈ s.workers.flatMap WorkerPc.holds, fd ∈ s.opened
  once : (s.workers.flatMap WorkerPc.holds).Nodup
  valid : (-1 : Int) ∉ s.opened

namespace Apart

variable {s : Pool} {i j : Nat} {pc pc' : WorkerPc} {fd : Int}

private theorem opened_of_holds (hs : Apart s) (hi : s.workers[i]? = some pc)
    (hfd : fd ∈ pc.holds) :
    fd ∈ s.opened :=
  hs.held fd (List.mem_flatMap.mpr ⟨pc, List.mem_of_getElem? hi, hfd⟩)

theorem holder_unique (hs : Apart s) (hi : s.workers[i]? = some pc)
    (hj : s.workers[j]? = some pc') (hfd : fd ∈ pc.holds) (hfd' : fd ∈ pc'.holds) : i = j := by
  have hapart := (List.nodup_flatMap.mp hs.once).2
  obtain ⟨hlt, rfl⟩ := List.getElem?_eq_some_iff.mp hi
  obtain ⟨hlt', rfl⟩ := List.getElem?_eq_some_iff.mp hj
  rcases Nat.lt_trichotomy i j with hij | hij | hij
  · exact absurd hfd' (List.pairwise_iff_getElem.mp hapart i j hlt hlt' hij hfd)
  · exact hij
  · exact absurd hfd (List.pairwise_iff_getElem.mp hapart j i hlt' hlt hij hfd')

end Apart

/-- What the step is to the pool. -/
def DirectoryStep.inPool : DirectoryStep → Option Action
  | .accept fd _ => some (.accept fd)
  | .pool a => some a
  | .call i | .finish i | .close i _ | .closeNone i => some (.worker i)
  | .connect _ | .client _ | .serve _ _ | .serveNone _ => none

/-! ## The invariant -/

variable {s t : Directory} {conn conn' : Connection} {i k : Nat} {fd : Int} {w w' : Work}

/-- The variables of the call of `do_work` that serves the connection: at the start as long as there
is no such call, and at the end when it is over. -/
def ServerEnd.ServedBy (s : Directory) (w : Work) : ServerEnd → Prop
  | .backlog => w = .start
  | .opened fd =>
      (∀ i : Nat, s.pool.workers[i]? = some (.work fd) → s.works i = w) ∧
      (∀ i : Nat, s.pool.workers[i]? = some (.close fd) → w.pc = .returned) ∧
      ((∀ i : Nat, s.pool.workers[i]? ≠ some (.work fd) ∧ s.pool.workers[i]? ≠ some (.close fd)) →
        w = .start)
  | .closed => w.pc = .returned

/-- The session of the connection, with the variables of its call of `do_work`. -/
def Connection.session (conn : Connection) (w : Work) : Session :=
  ⟨conn.client, w, conn.toServer, conn.toClient⟩

/-- The connection has one call of `do_work`, and is in step with it. -/
def Connection.Talks (opendir : List Char → Option (List (List Char))) (s : Directory)
    (conn : Connection) : Prop :=
  ∃ w, conn.server.ServedBy s w ∧
    ((∀ arg ∈ conn.args, Request arg) → ∃ n, InStep opendir conn.args (conn.session w) n)

/-- The connection is open under the descriptor. -/
def Connection.under (fd : Int) (conn : Connection) : Bool := conn.server = .opened fd

/-- The open descriptors are those of the connections, one each. -/
structure Directory.Sound (opendir : List Char → Option (List (List Char))) (s : Directory) :
    Prop where
  pool : Apart s.pool
  opened : ∀ fd, s.connections.countP (Connection.under fd) = s.pool.opened.count fd
  talks : ∀ conn ∈ s.connections, conn.Talks opendir s

namespace Directory

theorem Sound.start : Sound opendir start where
  pool := ⟨List.nodup_nil, fun _ h => h, List.nodup_nil, List.not_mem_nil⟩
  opened fd := rfl
  talks conn h := by cases h

section

variable (hs : s.Sound opendir)
include hs

theorem Sound.talks_at (hk : s.connections[k]? = some conn) : conn.Talks opendir s :=
  hs.talks conn (List.mem_of_getElem? hk)

theorem Sound.alone {l : Nat} (hk : s.connections[k]? = some conn)
    (hl : s.connections[l]? = some conn') (hconn : conn.server = .opened fd)
    (hconn' : conn'.server = .opened fd) : k = l := by
  by_contra hkl
  have htwo := two_le_countP (p := Connection.under fd) hkl hk hl
    (by simp [Connection.under, hconn]) (by simp [Connection.under, hconn'])
  have hone := List.nodup_iff_count_le_one.mp hs.pool.nodup fd
  rw [← hs.opened fd] at hone
  omega

theorem Sound.mem_opened (hk : s.connections[k]? = some conn) (hconn : conn.server = .opened fd) :
    fd ∈ s.pool.opened := by
  apply List.count_pos_iff.mp
  rw [← hs.opened fd]
  exact countP_pos_of_getElem? hk (by simp [Connection.under, hconn])

private theorem Sound.notMem_opened (h : s.Vacant fd) : fd ∉ s.pool.opened := by
  rw [← List.count_eq_zero, ← hs.opened fd, List.countP_eq_zero]
  intro conn hconn
  simpa [Connection.under] using h conn hconn

end

private theorem talks_congr
    (hworkers : ∀ fd q, conn.server = .opened fd → q = .work fd ∨ q = .close fd → ∀ i : Nat,
      t.pool.workers[i]? = some q ↔ s.pool.workers[i]? = some q)
    (hworks : ∀ fd (i : Nat), conn.server = .opened fd → s.pool.workers[i]? = some (.work fd) →
      t.works i = s.works i)
    (h : conn.Talks opendir s) : conn.Talks opendir t := by
  obtain ⟨w, hserved, hsession⟩ := h
  refine ⟨w, ?_, hsession⟩
  cases hconn : conn.server with
  | backlog =>
      rw [hconn] at hserved
      exact hserved
  | closed =>
      rw [hconn] at hserved
      exact hserved
  | opened fd =>
      rw [hconn] at hserved
      obtain ⟨hwork, hclose, hnone⟩ := hserved
      have hworking := hworkers fd (.work fd) hconn (Or.inl rfl)
      have hclosing := hworkers fd (.close fd) hconn (Or.inr rfl)
      refine ⟨fun i hi => ?_, fun i hi => ?_, fun hi => ?_⟩
      · rw [hworking] at hi
        rw [hworks fd i hconn hi]
        exact hwork i hi
      · exact hclose i ((hclosing i).mp hi)
      · apply hnone
        intro i
        rw [Ne, Ne, ← hworking i, ← hclosing i]
        exact hi i

private theorem talks_elsewhere {pc pc' : WorkerPc} (hi : s.pool.workers[i]? = some pc)
    (hworkers : t.pool.workers = s.pool.workers.set i pc')
    (hworks : ∀ j, j ≠ i → t.works j = s.works j)
    (hpc : ∀ fd q, conn.server = .opened fd → q = .work fd ∨ q = .close fd → pc ≠ q ∧ pc' ≠ q)
    (h : conn.Talks opendir s) : conn.Talks opendir t := by
  apply talks_congr (s := s) _ _ h
  · intro fd q hconn hq j
    obtain ⟨hne, hne'⟩ := hpc fd q hconn hq
    rw [hworkers]
    exact getElem?_set_busy hi hne hne'
  · intro fd j hconn hj
    apply hworks
    rintro rfl
    rw [hi] at hj
    exact (hpc fd (.work fd) hconn (Or.inl rfl)).1 (Option.some.inj hj)

/-! ## Steps of a client -/

theorem Sound.connect (hs : s.Sound opendir) (args : List (List Char)) :
    Sound opendir { s with connections := s.connections ++ [.start args] } where
  pool := hs.pool
  opened fd := by
    rw [List.countP_append, hs.opened fd]
    rfl
  talks conn hconn := by
    rcases List.mem_append.mp hconn with hold | hnew
    · exact hs.talks conn hold
    · rw [List.mem_singleton.mp hnew]
      exact ⟨.start, rfl, fun _ => ⟨_, InStep.start opendir args⟩⟩

theorem session_client (calls : Calls) {client client' : ClientState} (input : List Char)
    {rest sent out : List Char}
    (h : client.step sent (w.pc = .returned) = some (client', rest, out)) :
    Session.step calls ⟨client, w, input, sent⟩ .client =
      some ⟨client', w, input ++ out, rest⟩ := by
  rw [Session.step]
  dsimp only
  rw [h, Option.map_some]

theorem session_server {calls : Calls} {client : ClientState} {input rest out : List Char}
    (sent : List Char)
    (h : w.step calls input (client.pc = .closed) = some (w', rest, out)) :
    Session.step calls ⟨client, w, input, sent⟩ .server =
      some ⟨client, w', rest, sent ++ out⟩ := by
  rw [Session.step]
  dsimp only
  rw [h, Option.map_some]

theorem client_step_open {client : ClientState} {rest sent : List Char} {n : Nat}
    (hover : conn.server = .closed → w.pc = .returned)
    (hn : InStep opendir conn.args (conn.session w) n)
    (h : conn.client.step conn.toClient (conn.server = .closed) = some (client, rest, sent)) :
    conn.client.step conn.toClient (w.pc = .returned) = some (client, rest, sent) := by
  have hmore : w.pc ≠ .returned := by
    intro hpc
    have hleft : conn.client.pc = .closed := (hn.follows.returned hpc).1
    simp [ClientState.step, hleft] at h
  have hopen : conn.server ≠ .closed := fun hclosed => hmore (hover hclosed)
  rw [decide_eq_false hmore, ← decide_eq_false hopen]
  exact h

private theorem talks_client (hnames : PlainNames opendir) {client : ClientState}
    {rest sent : List Char} (h : conn.Talks opendir s)
    (hstep : conn.client.step conn.toClient (conn.server = .closed) = some (client, rest, sent)) :
    Connection.Talks opendir s { conn with
      client := client, toClient := rest, toServer := conn.toServer ++ sent } := by
  obtain ⟨w, hserved, hsession⟩ := h
  refine ⟨w, hserved, fun hrequests => ?_⟩
  obtain ⟨n, hn⟩ := hsession hrequests
  have hover : conn.server = .closed → w.pc = .returned := by
    intro hclosed
    rw [hclosed] at hserved
    exact hserved
  have hclient := session_client (.zeroed opendir) conn.toServer
    (client_step_open hover hn hstep)
  obtain ⟨m, -, hm⟩ := hn.client_step hrequests hnames hclient
  exact ⟨m, hm⟩

theorem Sound.client (hs : s.Sound opendir) (hnames : PlainNames opendir)
    {client : ClientState} {rest sent : List Char} (hk : s.connections[k]? = some conn)
    (hstep : conn.client.step conn.toClient (conn.server = .closed) = some (client, rest, sent)) :
    Sound opendir { s with
      connections := s.connections.set k { conn with
        client := client, toClient := rest, toServer := conn.toServer ++ sent } } where
  pool := hs.pool
  opened fd := by
    have hsame := countP_set_same (p := Connection.under fd) (b := { conn with
      client := client, toClient := rest, toServer := conn.toServer ++ sent }) hk rfl
    exact hsame.trans (hs.opened fd)
  talks d hd := by
    rcases of_mem_set hd with rfl | ⟨l, -, hl⟩
    · exact talks_client hnames (hs.talks_at hk) hstep
    · exact hs.talks_at hl

/-! ## Steps of the pool -/

theorem Sound.accept (hs : s.Sound opendir) {pool : Pool} (hapart : Apart pool)
    (hk : s.connections[k]? = some conn) (hconn : conn.server = .backlog)
    (hpool : Lab6.step c (.fifo spurious) s.pool (.accept fd) = some pool) :
    Sound opendir { s with
      pool := pool, connections := s.connections.set k { conn with server := .opened fd } } := by
  obtain ⟨hnew, hfd, hworkers, hopened⟩ : fd ∉ s.pool.opened ∧ fd ≠ -1 ∧
      pool.workers = s.pool.workers ∧ pool.opened = s.pool.opened ++ [fd] := by
    cases step_move hpool with
    | accept _ hnonneg hnew => exact ⟨hnew, by omega, rfl, rfl⟩
  have hnobody : ∀ (i : Nat) (pc : WorkerPc), s.pool.workers[i]? = some pc → fd ∉ pc.holds := by
    intro i pc hi hholds
    exact hnew (hs.pool.opened_of_holds hi hholds)
  constructor
  · exact hapart
  · intro fd'
    change (s.connections.set k _).countP _ = pool.opened.count fd'
    rw [hopened, List.count_append, List.count_singleton]
    have hold := hs.opened fd'
    by_cases heq : fd' = fd
    · subst heq
      have henter := countP_set_enter (b := { conn with server := .opened fd' })
        (p := Connection.under fd') hk (by simp [Connection.under, hconn])
        (by simp [Connection.under])
      rw [henter, hold, if_pos (beq_self_eq_true fd')]
    · have hsame := countP_set_same (b := { conn with server := .opened fd })
        (p := Connection.under fd') hk (by simp [Connection.under, hconn, Ne.symm heq])
      rw [hsame, hold]
      simp [Ne.symm heq]
  · intro d hd
    rcases of_mem_set hd with rfl | ⟨l, -, hl⟩
    · obtain ⟨w, hserved, hsession⟩ := hs.talks_at hk
      rw [hconn] at hserved
      obtain rfl : w = .start := hserved
      refine ⟨.start, ⟨fun i hi => ?_, fun i hi => ?_, fun _ => rfl⟩, hsession⟩
      · rw [hworkers] at hi
        exact absurd (by simp [WorkerPc.holds, hfd]) (hnobody i _ hi)
      · rw [hworkers] at hi
        exact absurd (by simp [WorkerPc.holds, hfd]) (hnobody i _ hi)
    · refine talks_congr (s := s) (fun fd' q _ _ i => ?_) (fun _ _ _ _ => rfl) (hs.talks_at hl)
      rw [hworkers]

theorem Sound.quiet (hs : s.Sound opendir) {pool : Pool} (hapart : Apart pool)
    (hquiet : Quiet s.pool pool) : Sound opendir { s with pool := pool } where
  pool := hapart
  opened fd := by
    change _ = pool.opened.count fd
    rw [hquiet.opened]
    exact hs.opened fd
  talks conn hconn := by
    refine talks_congr (s := s) (fun fd q _ hq i => ?_) (fun _ _ _ _ => rfl)
      (hs.talks conn hconn)
    rcases hq with rfl | rfl
    · exact hquiet.workers _ rfl i
    · exact hquiet.workers _ rfl i

/-! ## Steps of a worker at its descriptor -/

private theorem Sound.ne_neg_one (hs : s.Sound opendir) (hmem : fd ∈ s.pool.opened) :
    fd ≠ -1 := by
  rintro rfl
  exact hs.pool.valid hmem

theorem Sound.sole (hs : s.Sound opendir) {j : Nat} {pc pc' : WorkerPc}
    (hi : s.pool.workers[i]? = some pc) (hpc : fd ∈ pc.holds) (hj : s.pool.workers[j]? = some pc')
    (hpc' : fd ∈ pc'.holds) : j = i ∧ pc' = pc := by
  obtain rfl := hs.pool.holder_unique hi hj hpc hpc'
  rw [hi] at hj
  exact ⟨rfl, (Option.some.inj hj).symm⟩

theorem Sound.call (hs : s.Sound opendir) {client : Int} {pool : Pool} (hapart : Apart pool)
    (hi : s.pool.workers[i]? = some (.unfree client))
    (hpool : Lab6.step c (.fifo spurious) s.pool (.worker i) = some pool) :
    Sound opendir
      { s with pool := pool, works := Function.update s.works i .start } := by
  obtain ⟨hworkers, hopened⟩ : pool.workers = s.pool.workers.set i (.work client) ∧
      pool.opened = s.pool.opened := by
    simp only [Lab6.step, hi, Option.bind_some, workerStep, Option.some_inj] at hpool
    rw [← hpool]
    exact ⟨rfl, rfl⟩
  constructor
  · exact hapart
  · intro fd
    change _ = pool.opened.count fd
    rw [hopened]
    exact hs.opened fd
  · intro conn hconn
    by_cases hserver : conn.server = .opened client
    · obtain ⟨k, hk⟩ := List.mem_iff_getElem?.mp hconn
      have hne := hs.ne_neg_one (hs.mem_opened hk hserver)
      have hhere : client ∈ (WorkerPc.unfree client).holds := by simp [WorkerPc.holds, hne]
      have hwork : client ∈ (WorkerPc.work client).holds := by simp [WorkerPc.holds, hne]
      have hclose : client ∈ (WorkerPc.close client).holds := by simp [WorkerPc.holds, hne]
      obtain ⟨w, hserved, hsession⟩ := hs.talks conn hconn
      rw [hserver] at hserved
      have hout : ∀ j : Nat, s.pool.workers[j]? ≠ some (.work client) ∧
          s.pool.workers[j]? ≠ some (.close client) := by
        intro j
        constructor
        · intro hj
          cases (hs.sole hi hhere hj hwork).2
        · intro hj
          cases (hs.sole hi hhere hj hclose).2
      obtain rfl := hserved.2.2 hout
      refine ⟨.start, ?_, hsession⟩
      rw [hserver]
      refine ⟨fun j hj => ?_, fun j hj => ?_, fun _ => rfl⟩
      · by_cases hji : j = i
        · subst hji
          exact Function.update_self _ _ _
        · rw [hworkers, List.getElem?_set_ne (Ne.symm hji)] at hj
          exact absurd hj (hout j).1
      · rw [hworkers, getElem?_set_busy hi (by simp) (by simp)] at hj
        exact absurd hj (hout j).2
    · refine talks_elsewhere (s := s) hi hworkers (fun j hj => ?_) (fun fd q hfd hq => ?_)
        (hs.talks conn hconn)
      · exact Function.update_of_ne hj _ _
      · have hother : client ≠ fd := fun heq => hserver (heq ▸ hfd)
        rcases hq with rfl | rfl
        · exact ⟨by simp, by simpa using hother⟩
        · exact ⟨by simp, by simp⟩

theorem Sound.finish (hs : s.Sound opendir) {client : Int} {pool : Pool} (hapart : Apart pool)
    (hi : s.pool.workers[i]? = some (.work client)) (hpc : (s.works i).pc = .returned)
    (hpool : Lab6.step c (.fifo spurious) s.pool (.worker i) = some pool) :
    Sound opendir { s with pool := pool } := by
  obtain ⟨hworkers, hopened⟩ : pool.workers = s.pool.workers.set i (.close client) ∧
      pool.opened = s.pool.opened := by
    simp only [Lab6.step, hi, Option.bind_some, workerStep, Option.some_inj] at hpool
    rw [← hpool]
    exact ⟨rfl, rfl⟩
  constructor
  · exact hapart
  · intro fd
    change _ = pool.opened.count fd
    rw [hopened]
    exact hs.opened fd
  · intro conn hconn
    by_cases hserver : conn.server = .opened client
    · obtain ⟨w, hserved, hsession⟩ := hs.talks conn hconn
      rw [hserver] at hserved
      obtain ⟨hwork, -, -⟩ := hserved
      have hw : w.pc = .returned := hwork i hi ▸ hpc
      have hlt := (List.getElem?_eq_some_iff.mp hi).1
      refine ⟨w, ?_, hsession⟩
      rw [hserver]
      refine ⟨fun j hj => ?_, fun _ _ => hw, fun hout => ?_⟩
      · by_cases hji : j = i
        · subst hji
          exact hwork j hi
        · rw [hworkers, List.getElem?_set_ne (Ne.symm hji)] at hj
          exact hwork j hj
      · exact absurd (by rw [hworkers, List.getElem?_set_self hlt]) (hout i).2
    · refine talks_elsewhere (s := s) hi hworkers (fun _ _ => rfl) (fun fd q hfd hq => ?_)
        (hs.talks conn hconn)
      have hother : client ≠ fd := fun heq => hserver (heq ▸ hfd)
      rcases hq with rfl | rfl
      · exact ⟨by simpa using hother, by simp⟩
      · exact ⟨by simp, by simpa using hother⟩

theorem Sound.serve (hs : s.Sound opendir) {client : Int} {rest sent : List Char}
    (hi : s.pool.workers[i]? = some (.work client)) (hk : s.connections[k]? = some conn)
    (hserver : conn.server = .opened client)
    (hstep : (s.works i).step (.zeroed opendir) conn.toServer (conn.client.pc = .closed) =
      some (w, rest, sent)) :
    Sound opendir { s with
      works := Function.update s.works i w
      connections := s.connections.set k { conn with
        toServer := rest, toClient := conn.toClient ++ sent } } where
  pool := hs.pool
  opened fd := by
    have hsame := countP_set_same (p := Connection.under fd) (b := { conn with
      toServer := rest, toClient := conn.toClient ++ sent }) hk rfl
    exact hsame.trans (hs.opened fd)
  talks d hd := by
    have hne := hs.ne_neg_one (hs.mem_opened hk hserver)
    have hhere : client ∈ (WorkerPc.work client).holds := by simp [WorkerPc.holds, hne]
    have hclose : client ∈ (WorkerPc.close client).holds := by simp [WorkerPc.holds, hne]
    rcases of_mem_set hd with rfl | ⟨l, hlk, hl⟩
    · obtain ⟨v, hserved, hsession⟩ := hs.talks_at hk
      rw [hserver] at hserved
      obtain rfl : s.works i = v := hserved.1 i hi
      refine ⟨w, ?_, fun hrequests => ?_⟩
      · change ServerEnd.ServedBy _ w conn.server
        rw [hserver]
        refine ⟨fun j hj => ?_, fun j hj => ?_, fun hout => absurd hi (hout i).1⟩
        · obtain ⟨rfl, -⟩ := hs.sole hi hhere hj hhere
          exact Function.update_self _ _ _
        · cases (hs.sole hi hhere hj hclose).2
      · obtain ⟨n, hn⟩ := hsession hrequests
        have hworker := session_server conn.toClient hstep
        obtain ⟨m, -, hm⟩ := hn.server_step hrequests hworker
        exact ⟨m, hm⟩
    · refine talks_congr (s := s) (fun _ _ _ _ _ => Iff.rfl) (fun fd j hfd hj => ?_)
        (hs.talks_at hl)
      apply Function.update_of_ne
      rintro rfl
      rw [hi] at hj
      cases hj
      exact hlk (hs.alone hl hk hfd hserver)

theorem Sound.serveNone (hs : s.Sound opendir) {client : Int}
    (hi : s.pool.workers[i]? = some (.work client)) (hvacant : s.Vacant client) (w : Work) :
    Sound opendir { s with works := Function.update s.works i w } where
  pool := hs.pool
  opened := hs.opened
  talks conn hconn := by
    refine talks_congr (s := s) (fun _ _ _ _ _ => Iff.rfl) (fun fd j hfd hj => ?_)
      (hs.talks conn hconn)
    apply Function.update_of_ne
    rintro rfl
    rw [hi] at hj
    cases hj
    exact hvacant conn hconn hfd

theorem Sound.close (hs : s.Sound opendir) {client : Int} {pool : Pool} (hapart : Apart pool)
    (hi : s.pool.workers[i]? = some (.close client)) (hk : s.connections[k]? = some conn)
    (hserver : conn.server = .opened client)
    (hpool : Lab6.step c (.fifo spurious) s.pool (.worker i) = some pool) :
    Sound opendir { s with
      pool := pool, connections := s.connections.set k { conn with server := .closed } } := by
  obtain ⟨hworkers, hopened⟩ : pool.workers = s.pool.workers.set i .start ∧
      pool.opened = s.pool.opened.erase client := by
    simp only [Lab6.step, hi, Option.bind_some, workerStep, Option.some_inj] at hpool
    rw [← hpool]
    exact ⟨rfl, rfl⟩
  constructor
  · exact hapart
  · intro fd
    change (s.connections.set k _).countP _ = pool.opened.count fd
    rw [hopened]
    by_cases heq : fd = client
    · subst heq
      have hleave := countP_set_leave (b := { conn with server := .closed })
        (p := Connection.under fd) hk (by simp [Connection.under, hserver])
        (by simp [Connection.under])
      rw [List.count_erase_self, ← hs.opened fd]
      omega
    · have hsame := countP_set_same (b := { conn with server := .closed })
        (p := Connection.under fd) hk (by simp [Connection.under, hserver, Ne.symm heq])
      rw [hsame, hs.opened fd, List.count_erase_of_ne heq]
  · intro d hd
    rcases of_mem_set hd with rfl | ⟨l, hlk, hl⟩
    · obtain ⟨w, hserved, hsession⟩ := hs.talks_at hk
      rw [hserver] at hserved
      exact ⟨w, hserved.2.1 i hi, hsession⟩
    · refine talks_elsewhere (s := s) hi hworkers (fun _ _ => rfl) (fun fd q hfd hq => ?_)
        (hs.talks_at hl)
      have hother : client ≠ fd := by
        rintro rfl
        exact hlk (hs.alone hl hk hfd hserver)
      rcases hq with rfl | rfl
      · exact ⟨by simp, by simp⟩
      · exact ⟨by simpa using hother, by simp⟩

theorem Sound.closeNone (hs : s.Sound opendir) {client : Int} {pool : Pool} (hapart : Apart pool)
    (hi : s.pool.workers[i]? = some (.close client)) (hvacant : s.Vacant client)
    (hpool : Lab6.step c (.fifo spurious) s.pool (.worker i) = some pool) :
    Sound opendir { s with pool := pool } := by
  obtain ⟨hworkers, hopened⟩ : pool.workers = s.pool.workers.set i .start ∧
      pool.opened = s.pool.opened.erase client := by
    simp only [Lab6.step, hi, Option.bind_some, workerStep, Option.some_inj] at hpool
    rw [← hpool]
    exact ⟨rfl, rfl⟩
  constructor
  · exact hapart
  · intro fd
    change _ = pool.opened.count fd
    rw [hopened, List.erase_of_not_mem (hs.notMem_opened hvacant)]
    exact hs.opened fd
  · intro conn hconn
    refine talks_elsewhere (s := s) hi hworkers (fun _ _ => rfl) (fun fd q hfd hq => ?_)
      (hs.talks conn hconn)
    have hother : client ≠ fd := by
      rintro rfl
      exact hvacant conn hconn hfd
    rcases hq with rfl | rfl
    · exact ⟨by simp, by simp⟩
    · exact ⟨by simpa using hother, by simp⟩

/-! ## The steps -/

/-- What a step does. -/
inductive Move (c : Config) (spurious : Bool) (calls : Calls) (s : Directory) :
    DirectoryStep → Directory → Prop
  | connect (args : List (List Char)) :
      Move c spurious calls s (.connect args)
        { s with connections := s.connections ++ [.start args] }
  | client {k : Nat} {conn : Connection} {client : ClientState} {rest sent : List Char}
      (hk : s.connections[k]? = some conn)
      (hmove : conn.client.step conn.toClient (conn.server = .closed) = some (client, rest, sent)) :
      Move c spurious calls s (.client k)
        { s with connections := s.connections.set k { conn with
            client := client, toClient := rest, toServer := conn.toServer ++ sent } }
  | accept {fd : Int} {k : Nat} {conn : Connection} {pool : Pool}
      (hk : s.connections[k]? = some conn) (hserver : conn.server = .backlog)
      (hpool : Lab6.step c (.fifo spurious) s.pool (.accept fd) = some pool) :
      Move c spurious calls s (.accept fd k)
        { s with
          pool := pool, connections := s.connections.set k { conn with server := .opened fd } }
  | pool {a : Action} {pool : Pool} (hplain : plain s.pool a = true)
      (hpool : Lab6.step c (.fifo spurious) s.pool a = some pool) :
      Move c spurious calls s (.pool a) { s with pool := pool }
  | call {i : Nat} {client : Int} {pool : Pool} (hi : s.pool.workers[i]? = some (.unfree client))
      (hpool : Lab6.step c (.fifo spurious) s.pool (.worker i) = some pool) :
      Move c spurious calls s (.call i)
        { s with pool := pool, works := Function.update s.works i .start }
  | serve {i k : Nat} {conn : Connection} {client : Int} {w : Work} {rest sent : List Char}
      (hk : s.connections[k]? = some conn) (hi : s.pool.workers[i]? = some (.work client))
      (hserver : conn.server = .opened client)
      (hmove : (s.works i).step calls conn.toServer (conn.client.pc = .closed) =
        some (w, rest, sent)) :
      Move c spurious calls s (.serve i k)
        { s with
          works := Function.update s.works i w
          connections := s.connections.set k { conn with
            toServer := rest, toClient := conn.toClient ++ sent } }
  | serveNone {i : Nat} {client : Int} {w : Work} (hi : s.pool.workers[i]? = some (.work client))
      (hvacant : s.Vacant client) :
      Move c spurious calls s (.serveNone i) { s with works := Function.update s.works i w }
  | finish {i : Nat} {client : Int} {pool : Pool} (hi : s.pool.workers[i]? = some (.work client))
      (hreturned : (s.works i).pc = .returned)
      (hpool : Lab6.step c (.fifo spurious) s.pool (.worker i) = some pool) :
      Move c spurious calls s (.finish i) { s with pool := pool }
  | close {i k : Nat} {conn : Connection} {client : Int} {pool : Pool}
      (hk : s.connections[k]? = some conn) (hi : s.pool.workers[i]? = some (.close client))
      (hserver : conn.server = .opened client)
      (hpool : Lab6.step c (.fifo spurious) s.pool (.worker i) = some pool) :
      Move c spurious calls s (.close i k)
        { s with
          pool := pool, connections := s.connections.set k { conn with server := .closed } }
  | closeNone {i : Nat} {client : Int} {pool : Pool}
      (hi : s.pool.workers[i]? = some (.close client)) (hvacant : s.Vacant client)
      (hpool : Lab6.step c (.fifo spurious) s.pool (.worker i) = some pool) :
      Move c spurious calls s (.closeNone i) { s with pool := pool }

theorem move_of_step {a : DirectoryStep} (h : s.step c spurious calls a = some t) :
    Move c spurious calls s a t := by
  cases a with simp only [Directory.step] at h
  | connect args =>
      cases h
      exact .connect args
  | client k =>
      obtain ⟨conn, hk, h⟩ := Option.bind_eq_some_iff.mp h
      obtain ⟨⟨client, rest, sent⟩, hmove, rfl⟩ := Option.map_eq_some_iff.mp h
      exact .client hk hmove
  | accept fd k =>
      obtain ⟨conn, hk, h⟩ := Option.bind_eq_some_iff.mp h
      split at h
      · next hserver =>
          obtain ⟨pool, hpool, rfl⟩ := Option.map_eq_some_iff.mp h
          exact .accept hk hserver hpool
      · cases h
  | pool a =>
      split at h
      · next hplain =>
          obtain ⟨pool, hpool, rfl⟩ := Option.map_eq_some_iff.mp h
          exact .pool hplain hpool
      · cases h
  | call i =>
      split at h
      · next client hi =>
          obtain ⟨pool, hpool, rfl⟩ := Option.map_eq_some_iff.mp h
          exact .call hi hpool
      · cases h
  | serve i k =>
      obtain ⟨conn, hk, h⟩ := Option.bind_eq_some_iff.mp h
      split at h
      · next client hi =>
          split at h
          · next hserver =>
              obtain ⟨⟨w, rest, sent⟩, hmove, rfl⟩ := Option.map_eq_some_iff.mp h
              exact .serve hk hi hserver hmove
          · cases h
      · cases h
  | serveNone i =>
      split at h
      · next client hi =>
          split at h
          · next hvacant =>
              obtain ⟨⟨w, rest, sent⟩, -, rfl⟩ := Option.map_eq_some_iff.mp h
              exact .serveNone hi hvacant
          · cases h
      · cases h
  | finish i =>
      split at h
      · next client hi =>
          split at h
          · next hreturned =>
              obtain ⟨pool, hpool, rfl⟩ := Option.map_eq_some_iff.mp h
              exact .finish hi hreturned hpool
          · cases h
      · cases h
  | close i k =>
      obtain ⟨conn, hk, h⟩ := Option.bind_eq_some_iff.mp h
      split at h
      · next client hi =>
          split at h
          · next hserver =>
              obtain ⟨pool, hpool, rfl⟩ := Option.map_eq_some_iff.mp h
              exact .close hk hi hserver hpool
          · cases h
      · cases h
  | closeNone i =>
      split at h
      · next client hi =>
          split at h
          · next hvacant =>
              obtain ⟨pool, hpool, rfl⟩ := Option.map_eq_some_iff.mp h
              exact .closeNone hi hvacant hpool
          · cases h
      · cases h

/-! ## Whole runs -/

/-- The whole server takes the steps of the pool. -/
theorem step_pool {a : DirectoryStep} (h : s.step c spurious calls a = some t) :
    (∀ b, a.inPool = some b → Lab6.step c (.fifo spurious) s.pool b = some t.pool) ∧
      (a.inPool = none → t.pool = s.pool) := by
  cases move_of_step h with
  | connect _ | client _ _ | serve _ _ _ _ | serveNone _ _ =>
      refine ⟨fun b hb => ?_, fun _ => rfl⟩
      cases hb
  | accept _ _ hpool | pool _ hpool | call _ hpool | finish _ _ hpool | close _ _ _ hpool
  | closeNone _ _ hpool =>
      refine ⟨fun b hb => ?_, fun hnone => ?_⟩
      · cases hb
        exact hpool
      · cases hnone

/-- Only its client, `accept`, and a worker in a call for it change a connection. -/
theorem step_connection {a : DirectoryStep} (hk : s.connections[k]? = some conn)
    (h : s.step c spurious calls a = some t) :
    t.connections[k]? = some conn ∨ a = .client k ∨ conn.server = .backlog ∨
      ∃ fd, ∃ i : Nat, conn.server = .opened fd ∧
        (s.pool.workers[i]? = some (.work fd) ∨ s.pool.workers[i]? = some (.close fd)) := by
  have hset : ∀ {l : Nat} {conn' : Connection} (conn'' : Connection),
      s.connections[l]? = some conn' →
        (s.connections.set l conn'')[k]? = some conn ∨ l = k ∧ conn' = conn := by
    intro l conn' conn'' hl
    by_cases hlk : l = k
    · subst hlk
      rw [hk] at hl
      exact Or.inr ⟨rfl, (Option.some.inj hl).symm⟩
    · rw [List.getElem?_set_ne hlk]
      exact Or.inl hk
  cases move_of_step h with
  | connect args =>
      left
      change (s.connections ++ _)[k]? = _
      rw [List.getElem?_append_left (List.getElem?_eq_some_iff.mp hk).1, hk]
  | client hl _ =>
      rcases hset _ hl with hsame | ⟨rfl, -⟩
      · exact Or.inl hsame
      · exact Or.inr (Or.inl rfl)
  | accept hl hserver _ =>
      rcases hset _ hl with hsame | ⟨-, rfl⟩
      · exact Or.inl hsame
      · exact Or.inr (Or.inr (Or.inl hserver))
  | serve hl hi hserver _ =>
      rcases hset _ hl with hsame | ⟨-, rfl⟩
      · exact Or.inl hsame
      · exact Or.inr (Or.inr (Or.inr ⟨_, _, hserver, Or.inl hi⟩))
  | close hl hi hserver _ =>
      rcases hset _ hl with hsame | ⟨-, rfl⟩
      · exact Or.inl hsame
      · exact Or.inr (Or.inr (Or.inr ⟨_, _, hserver, Or.inr hi⟩))
  | pool _ _ | call _ _ | serveNone _ _ | finish _ _ _ | closeNone _ _ _ => exact Or.inl hk

theorem Sound.step {a : DirectoryStep} (hnames : PlainNames opendir) (hs : s.Sound opendir)
    (hapart : Apart t.pool) (h : s.step c spurious (.zeroed opendir) a = some t) :
    t.Sound opendir := by
  cases move_of_step h with
  | connect args => exact hs.connect args
  | client hk hmove => exact hs.client hnames hk hmove
  | accept hk hserver hpool => exact hs.accept hapart hk hserver hpool
  | pool hplain hpool => exact hs.quiet hapart (quiet_of_plain hpool hplain)
  | call hi hpool => exact hs.call hapart hi hpool
  | serve hk hi hserver hmove => exact hs.serve hi hk hserver hmove
  | serveNone hi hvacant => exact hs.serveNone hi hvacant _
  | finish hi hreturned hpool => exact hs.finish hapart hi hreturned hpool
  | close hk hi hserver hpool => exact hs.close hapart hi hk hserver hpool
  | closeNone hi hvacant hpool => exact hs.closeNone hapart hi hvacant hpool

end Directory

end SyssoftLabs.Lab6
