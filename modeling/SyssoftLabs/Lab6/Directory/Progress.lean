import SyssoftLabs.Lab6.Directory.Answers

/-!
# A connection that a worker has taken

From `queue_dequeue` to `close`, a connection needs the steps of its worker and of its client. They
are boundedly many, one of them can be taken at any time, and nobody else gets in their way.
-/

namespace SyssoftLabs.Lab6

open SyssoftLabs.Framework

variable {c : Config} {spurious : Bool} {opendir : List Char → Option (List (List Char))}

/-- The steps of the worker `i` for the connection `k`, and those of the client. -/
def DirectoryStep.attends (i k : Nat) : DirectoryStep → Bool
  | .client l => l = k
  | .serve j l | .close j l => j = i ∧ l = k
  | .pool (.worker j) | .call j | .finish j => j = i
  | _ => false

/-- The steps of a worker up to the `close` of its client, those of `do_work` not counted. -/
def WorkerPc.toClose : WorkerPc → Nat
  | .unlock _ => 5
  | .test _ => 4
  | .unfree _ => 3
  | .work _ => 2
  | .close _ => 1
  | _ => 0

/-- The variables of the call of `do_work`, where those of the worker are `own`. -/
def WorkerPc.Uses (own w : Work) : WorkerPc → Prop
  | .work _ => own = w
  | .close _ => w.pc = .returned
  | _ => w = .start

/-- The worker `i` has taken the connection `k`, and the session is `n` steps before its end. -/
structure Directory.Attends (opendir : List Char → Option (List (List Char))) (s : Directory)
    (i k : Nat) (conn : Connection) (pc : WorkerPc) (w : Work) (n : Nat) : Prop where
  connection : s.connections[k]? = some conn
  worker : s.pool.workers[i]? = some pc
  opened : ∃ fd ∈ pc.holds, conn.server = .opened fd
  uses : pc.Uses (s.works i) w
  session : InStep opendir conn.args (conn.session w) n

/-- So many steps of the two are left before the `close`. -/
def Directory.Attended (opendir : List Char → Option (List (List Char))) (args : List (List Char))
    (s : Directory) (i k left : Nat) : Prop :=
  ∃ conn pc w n, conn.args = args ∧ s.Attends opendir i k conn pc w n ∧ left = pc.toClose + n

/-- Both ends are closed, and the client has read the answers to all its arguments. -/
structure Connection.Served (opendir : List Char → Option (List (List Char)))
    (args : List (List Char)) (conn : Connection) : Prop where
  answers : conn.client.finished = args.map (answer opendir)
  client : conn.client.pc = .closed
  server : conn.server = .closed
  args : conn.args = args

/-! ## The worker -/

private theorem WorkerPc.of_holds {pc : WorkerPc} {fd : Int} (h : fd ∈ pc.holds) :
    fd ≠ -1 ∧ (pc = .unlock fd ∨ pc = .test fd ∨ pc = .unfree fd ∨ pc = .work fd ∨
      pc = .close fd) := by
  cases pc with simp only [WorkerPc.holds, List.not_mem_nil] at h
  | unlock d | test d | unfree d | work d | close d =>
      by_cases hd : d = -1
      · simp [hd] at h
      · rw [if_neg hd] at h
        obtain rfl : fd = d := List.mem_singleton.mp h
        exact ⟨hd, by simp⟩

private theorem WorkerPc.toClose_pos {pc : WorkerPc} {fd : Int} (h : fd ∈ pc.holds) :
    0 < pc.toClose := by
  obtain ⟨-, rfl | rfl | rfl | rfl | rfl⟩ := WorkerPc.of_holds h <;> simp [WorkerPc.toClose]

private theorem taken_stays {s t : Pool} {a : Action} {i : Nat} {pc : WorkerPc} {fd : Int}
    (h : Lab6.step c (.fifo spurious) s a = some t) (ha : a ≠ .worker i)
    (hi : s.workers[i]? = some pc) (hpc : fd ∈ pc.holds) : t.workers[i]? = some pc := by
  have hother : ∀ {j : Nat} {pc' : WorkerPc} (pc'' : WorkerPc), s.workers[j]? = some pc' →
      (j = i → fd ∉ pc'.holds) → (s.workers.set j pc'')[i]? = some pc := by
    intro j pc' pc'' hj hfree
    rw [List.getElem?_set_ne, hi]
    rintro rfl
    rw [hi] at hj
    cases hj
    exact hfree rfl hpc
  have happend : (s.workers ++ [.start])[i]? = some pc := by
    rw [List.getElem?_append_left (List.getElem?_eq_some_iff.mp hi).1, hi]
  cases step_move h with
  | create _ _ | spawn _ => exact happend
  | setPool _ _ | lock _ _ | enqueue _ | unlock _ | serviceNone _ _ | serviceSome _ _ | grow _ _
  | growFull _ _ | signalNobody _ _ | accept _ _ _ => exact hi
  | dequeueAny he _ => cases he
  | signal _ hj | dequeueEmpty hj _ | dequeue hj _ | spurious _ hj =>
      exact hother _ hj fun _ => by simp [WorkerPc.holds]
  | start hj | callWait hj | wake hj _ | workerUnlock hj | retire hj _ | keep hj _ | serve hj _
  | unfree hj | work hj | close hj | leave hj =>
      exact hother _ hj fun hji => absurd (by rw [hji]) ha

private theorem Serving.taken_stays {s t : Serving} {a : Action} {i : Nat} {pc : WorkerPc}
    {fd : Int}
    (h : s.step c spurious a = some t) (ha : a ≠ .worker i) (hi : s.pool.workers[i]? = some pc)
    (hpc : fd ∈ pc.holds) : t.pool.workers[i]? = some pc := by
  obtain hpool | hpool | ⟨j, client, hj, hpool⟩ := Serving.step_cases h
  · exact Lab6.taken_stays hpool ha hi hpc
  · rw [hpool]
    exact hi
  · have hji : j ≠ i := by
      rintro rfl
      rw [hj] at hi
      cases hi
      cases hpc
    rw [hpool]
    exact (List.getElem?_set_ne hji).trans hi

namespace Directory

variable {s t : Directory} {conn : Connection} {args : List (List Char)} {i k n left : Nat}
  {pc : WorkerPc} {w : Work} {fd : Int}

/-! ## Steps of the others -/

theorem Attends.congr (h : s.Attends opendir i k conn pc w n)
    (hk : t.connections[k]? = some conn) (hi : t.pool.workers[i]? = some pc)
    (hworks : t.works i = s.works i) : t.Attends opendir i k conn pc w n :=
  ⟨hk, hi, h.opened, hworks.symm ▸ h.uses, h.session⟩

private theorem Attends.set_ne (h : s.Attends opendir i k conn pc w n) {l : Nat}
    (conn' : Connection) (hlk : l ≠ k) : (s.connections.set l conn')[k]? = some conn := by
  rw [List.getElem?_set_ne hlk, h.connection]

private theorem Attends.stays (h : s.Attends opendir i k conn pc w n) {a : Action} {pool : Pool}
    (hpool : Lab6.step c (.fifo spurious) s.pool a = some pool) (ha : a ≠ .worker i) :
    pool.workers[i]? = some pc := by
  obtain ⟨fd, hfd, -⟩ := h.opened
  exact taken_stays hpool ha h.worker hfd

theorem Attends.names (h : s.Attends opendir i k conn pc w n) {client : Int}
    (hi : s.pool.workers[i]? = some (.work client) ∨ s.pool.workers[i]? = some (.close client)) :
    conn.server = .opened client := by
  obtain ⟨fd, hfd, hopen⟩ := h.opened
  have hclient : fd = client := by
    rw [h.worker, Option.some_inj, Option.some_inj] at hi
    obtain ⟨-, heq⟩ := WorkerPc.of_holds hfd
    rcases hi with rfl | rfl
    · simpa [eq_comm] using heq
    · simpa [eq_comm] using heq
  exact hclient ▸ hopen

theorem Attends.apart (hs : s.Sound opendir) (h : s.Attends opendir i k conn pc w n)
    {j l : Nat} {pc' : WorkerPc} {client : Int} {conn' : Connection}
    (hj : s.pool.workers[j]? = some pc') (hpc' : pc' = .work client ∨ pc' = .close client)
    (hl : s.connections[l]? = some conn') (hconn' : conn'.server = .opened client)
    (hnot : ¬(j = i ∧ l = k)) : j ≠ i ∧ l ≠ k := by
  constructor
  · rintro rfl
    have hopen : conn.server = .opened client := by
      rcases hpc' with rfl | rfl
      · exact h.names (Or.inl hj)
      · exact h.names (Or.inr hj)
    exact hnot ⟨rfl, hs.alone hl h.connection hconn' hopen⟩
  · rintro rfl
    obtain ⟨fd, hfd, hopen⟩ := h.opened
    rw [h.connection] at hl
    cases hl
    rw [hopen] at hconn'
    cases hconn'
    have hne := (WorkerPc.of_holds hfd).1
    have hfd' : client ∈ pc'.holds := by
      rcases hpc' with rfl | rfl
      · simp [WorkerPc.holds, hne]
      · simp [WorkerPc.holds, hne]
    exact hnot ⟨hs.pool.holder_unique hj h.worker hfd' hfd, rfl⟩

private theorem Attends.ne_of_backlog (h : s.Attends opendir i k conn pc w n) {l : Nat}
    {conn' : Connection} (hl : s.connections[l]? = some conn')
    (hserver : conn'.server = .backlog) : l ≠ k := by
  rintro rfl
  rw [h.connection] at hl
  cases hl
  obtain ⟨fd, -, hopen⟩ := h.opened
  rw [hserver] at hopen
  cases hopen

private theorem Attends.ne_of_vacant (h : s.Attends opendir i k conn pc w n) {j : Nat}
    {client : Int}
    (hj : s.pool.workers[j]? = some (.work client) ∨ s.pool.workers[j]? = some (.close client))
    (hvacant : s.Vacant client) : j ≠ i := by
  rintro rfl
  exact hvacant conn (List.mem_of_getElem? h.connection) (h.names hj)

/-- Nobody else changes the connection or the worker. -/
theorem Attends.other {a : DirectoryStep} (hs : s.Sound opendir)
    (h : s.Attends opendir i k conn pc w n) (ha : a.attends i k = false)
    (hstep : s.step c spurious (.zeroed opendir) a = some t) :
    t.Attends opendir i k conn pc w n := by
  cases move_of_step hstep with
  | connect args =>
      refine h.congr ?_ h.worker rfl
      change (s.connections ++ _)[k]? = _
      rw [List.getElem?_append_left (List.getElem?_eq_some_iff.mp h.connection).1, h.connection]
  | client hl _ =>
      exact h.congr (h.set_ne _ (by simpa [DirectoryStep.attends] using ha)) h.worker rfl
  | accept hl hserver hpool =>
      exact h.congr (h.set_ne _ (h.ne_of_backlog hl hserver)) (h.stays hpool (by simp)) rfl
  | pool _ hpool =>
      refine h.congr h.connection (h.stays hpool ?_) rfl
      rintro rfl
      simp [DirectoryStep.attends] at ha
  | @call j _ _ hj hpool =>
      have hji : j ≠ i := by simpa [DirectoryStep.attends] using ha
      exact h.congr h.connection (h.stays hpool (by simpa using hji))
        (Function.update_of_ne hji.symm _ _)
  | @finish j _ _ hj _ hpool =>
      have hji : j ≠ i := by simpa [DirectoryStep.attends] using ha
      exact h.congr h.connection (h.stays hpool (by simpa using hji)) rfl
  | serve hl hj hserver _ =>
      obtain ⟨hji, hlk⟩ := h.apart hs hj (Or.inl rfl) hl hserver
        (by simpa [DirectoryStep.attends] using ha)
      exact h.congr (h.set_ne _ hlk) h.worker (Function.update_of_ne hji.symm _ _)
  | close hl hj hserver hpool =>
      obtain ⟨hji, hlk⟩ := h.apart hs hj (Or.inr rfl) hl hserver
        (by simpa [DirectoryStep.attends] using ha)
      exact h.congr (h.set_ne _ hlk) (h.stays hpool (by simpa using hji)) rfl
  | serveNone hj hvacant =>
      have hji := h.ne_of_vacant (Or.inl hj) hvacant
      exact h.congr h.connection h.worker (Function.update_of_ne hji.symm _ _)
  | closeNone hj hvacant hpool =>
      have hji := h.ne_of_vacant (Or.inr hj) hvacant
      exact h.congr h.connection (h.stays hpool (by simpa using hji)) rfl

/-! ## Steps of the two -/

theorem Attends.client (hnames : PlainNames opendir) (h : s.Attends opendir i k conn pc w n)
    (hrequests : ∀ arg ∈ conn.args, Request arg)
    (hstep : s.step c spurious (.zeroed opendir) (.client k) = some t) :
    ∃ conn' m, conn'.args = conn.args ∧ n = m + 1 ∧ t.Attends opendir i k conn' pc w m := by
  cases move_of_step hstep with
  | @client _ _ client rest sent hk hmove =>
      rw [h.connection] at hk
      cases hk
      obtain ⟨fd, hfd, hopen⟩ := h.opened
      have hover : conn.server = .closed → w.pc = .returned := by
        intro hclosed
        rw [hopen] at hclosed
        cases hclosed
      have hclient := session_client (.zeroed opendir) conn.toServer
        (client_step_open hover h.session hmove)
      obtain ⟨m, hm, hsession⟩ := h.session.client_step hrequests hnames hclient
      have hlt := (List.getElem?_eq_some_iff.mp h.connection).1
      exact ⟨{ conn with client := client, toClient := rest, toServer := conn.toServer ++ sent }, m,
        rfl, hm, List.getElem?_set_self hlt, h.worker, ⟨fd, hfd, hopen⟩, h.uses, hsession⟩

theorem Attends.serve (h : s.Attends opendir i k conn pc w n)
    (hrequests : ∀ arg ∈ conn.args, Request arg)
    (hstep : s.step c spurious (.zeroed opendir) (.serve i k) = some t) :
    ∃ conn' w' m, conn'.args = conn.args ∧ n = m + 1 ∧ t.Attends opendir i k conn' pc w' m := by
  cases move_of_step hstep with
  | @serve _ _ _ _ w' rest sent hk hi hserver hmove =>
      rw [h.connection] at hk
      cases hk
      rw [h.worker] at hi
      cases hi
      obtain rfl : s.works i = w := h.uses
      have hworker := session_server conn.toClient hmove
      obtain ⟨m, hm, hsession⟩ := h.session.server_step hrequests hworker
      have hlt := (List.getElem?_eq_some_iff.mp h.connection).1
      exact ⟨{ conn with toServer := rest, toClient := conn.toClient ++ sent }, w', m, rfl, hm,
        List.getElem?_set_self hlt, h.worker, h.opened, Function.update_self _ _ _, hsession⟩

private theorem Attends.goes {pc' : WorkerPc} {works : Nat → Work} {pool : Pool}
    (h : s.Attends opendir i k conn pc w n) (hworkers : pool.workers = s.pool.workers.set i pc')
    (hholds : pc'.holds = pc.holds) (huses : pc'.Uses (works i) w) :
    Attends opendir { s with pool := pool, works := works } i k conn pc' w n where
  connection := h.connection
  worker := by
    change pool.workers[i]? = some pc'
    rw [hworkers, List.getElem?_set_self (List.getElem?_eq_some_iff.mp h.worker).1]
  opened := hholds ▸ h.opened
  uses := huses
  session := h.session

theorem Attends.pool (h : s.Attends opendir i k conn pc w n)
    (hstep : s.step c spurious (.zeroed opendir) (.pool (.worker i)) = some t) :
    ∃ pc', pc.toClose = pc'.toClose + 1 ∧ t.Attends opendir i k conn pc' w n := by
  cases move_of_step hstep with
  | pool hplain hpool =>
      obtain ⟨fd, hfd, -⟩ := h.opened
      simp only [Lab6.step, h.worker, Option.bind_some] at hpool
      simp only [plain, h.worker, Option.any_some] at hplain
      obtain ⟨hne, rfl | rfl | rfl | rfl | rfl⟩ := WorkerPc.of_holds hfd
      · cases hpool
        exact ⟨.test fd, rfl, h.goes rfl rfl h.uses⟩
      · simp only [workerStep, if_neg hne] at hpool
        cases hpool
        exact ⟨.unfree fd, rfl, h.goes rfl rfl h.uses⟩
      · simp [WorkerPc.calls] at hplain
      · simp [WorkerPc.calls] at hplain
      · simp [WorkerPc.calls] at hplain

theorem Attends.call (h : s.Attends opendir i k conn pc w n)
    (hstep : s.step c spurious (.zeroed opendir) (.call i) = some t) :
    ∃ pc', pc.toClose = pc'.toClose + 1 ∧ t.Attends opendir i k conn pc' w n := by
  cases move_of_step hstep with
  | @call _ client _ hi hpool =>
      rw [h.worker] at hi
      cases hi
      simp only [Lab6.step, h.worker, Option.bind_some, workerStep, Option.some_inj] at hpool
      subst hpool
      obtain rfl : w = .start := h.uses
      exact ⟨.work client, rfl, h.goes rfl rfl (Function.update_self _ _ _)⟩

theorem Attends.finish (h : s.Attends opendir i k conn pc w n)
    (hstep : s.step c spurious (.zeroed opendir) (.finish i) = some t) :
    ∃ pc', pc.toClose = pc'.toClose + 1 ∧ t.Attends opendir i k conn pc' w n := by
  cases move_of_step hstep with
  | @finish _ client _ hi hreturned hpool =>
      rw [h.worker] at hi
      cases hi
      simp only [Lab6.step, h.worker, Option.bind_some, workerStep, Option.some_inj] at hpool
      subst hpool
      obtain rfl : s.works i = w := h.uses
      exact ⟨.close client, rfl, h.goes rfl rfl hreturned⟩

theorem Attends.close (h : s.Attends opendir i k conn pc w n)
    (hstep : s.step c spurious (.zeroed opendir) (.close i k) = some t) :
    ∃ conn', t.connections[k]? = some conn' ∧ conn'.Served opendir conn.args := by
  cases move_of_step hstep with
  | close hk hi _ _ =>
      rw [h.connection] at hk
      cases hk
      rw [h.worker] at hi
      cases hi
      have hreturned : w.pc = .returned := h.uses
      have hfollows := h.session.follows
      have hclosed := (hfollows.returned hreturned).1
      have hlt := (List.getElem?_eq_some_iff.mp h.connection).1
      exact ⟨{ conn with server := .closed }, List.getElem?_set_self hlt, hfollows.closed hclosed,
        hclosed, rfl, rfl⟩

/-- A step of the two is counted, and the others do not show. -/
theorem Attended.step {a : DirectoryStep} (hnames : PlainNames opendir)
    (hrequests : ∀ arg ∈ args, Request arg) (hs : s.Sound opendir)
    (h : s.Attended opendir args i k left)
    (hstep : s.step c spurious (.zeroed opendir) a = some t) :
    (a.attends i k = false ∧ t.Attended opendir args i k left) ∨
      (a.attends i k = true ∧ ∃ m, left = m + 1 ∧ t.Attended opendir args i k m) ∨
      ∃ conn, t.connections[k]? = some conn ∧ conn.Served opendir args := by
  obtain ⟨conn, pc, w, n, rfl, h, rfl⟩ := h
  have hworker : (∃ pc', pc.toClose = pc'.toClose + 1 ∧ t.Attends opendir i k conn pc' w n) →
      ∃ m, pc.toClose + n = m + 1 ∧ t.Attended opendir conn.args i k m := by
    rintro ⟨pc', hpc, ht⟩
    exact ⟨pc'.toClose + n, by omega, conn, pc', w, n, rfl, ht, rfl⟩
  cases ha : a.attends i k with
  | false => exact Or.inl ⟨rfl, conn, pc, w, n, rfl, h.other hs ha hstep, rfl⟩
  | true =>
      right
      cases a with
      | connect _ | accept _ _ | serveNone _ | closeNone _ => cases ha
      | client l =>
          obtain rfl : l = k := by simpa [DirectoryStep.attends] using ha
          obtain ⟨conn', m, hargs, rfl, ht⟩ := h.client hnames hrequests hstep
          exact Or.inl ⟨rfl, pc.toClose + m, rfl, conn', pc, w, m, hargs, ht, rfl⟩
      | serve j l =>
          obtain ⟨rfl, rfl⟩ : j = i ∧ l = k := by simpa [DirectoryStep.attends] using ha
          obtain ⟨conn', w', m, hargs, rfl, ht⟩ := h.serve hrequests hstep
          exact Or.inl ⟨rfl, pc.toClose + m, rfl, conn', pc, w', m, hargs, ht, rfl⟩
      | pool b =>
          cases b with
          | main | accept _ | signal _ | signalNobody | dequeue _ _ | spurious _ => cases ha
          | worker j =>
              obtain rfl : j = i := by simpa [DirectoryStep.attends] using ha
              exact Or.inl ⟨rfl, hworker (h.pool hstep)⟩
      | call j =>
          obtain rfl : j = i := by simpa [DirectoryStep.attends] using ha
          exact Or.inl ⟨rfl, hworker (h.call hstep)⟩
      | finish j =>
          obtain rfl : j = i := by simpa [DirectoryStep.attends] using ha
          exact Or.inl ⟨rfl, hworker (h.finish hstep)⟩
      | close j l =>
          obtain ⟨rfl, rfl⟩ : j = i ∧ l = k := by simpa [DirectoryStep.attends] using ha
          exact Or.inr (h.close hstep)

theorem Attends.enabled (h : s.Attends opendir i k conn pc w n) :
    ∃ a, a.attends i k = true ∧ (s.step c spurious (.zeroed opendir) a).isSome = true := by
  obtain ⟨fd, hfd, hopen⟩ := h.opened
  have hi := h.worker
  obtain ⟨hne, rfl | rfl | rfl | rfl | rfl⟩ := WorkerPc.of_holds hfd
  · refine ⟨.pool (.worker i), by simp [DirectoryStep.attends], ?_⟩
    simp [Directory.step, plain, hi, WorkerPc.calls, Lab6.step, workerStep]
  · refine ⟨.pool (.worker i), by simp [DirectoryStep.attends], ?_⟩
    simp [Directory.step, plain, hi, WorkerPc.calls, Lab6.step, workerStep, hne]
  · refine ⟨.call i, by simp [DirectoryStep.attends], ?_⟩
    simp [Directory.step, hi, Lab6.step, workerStep]
  · obtain rfl : s.works i = w := h.uses
    by_cases hreturned : (s.works i).pc = .returned
    · refine ⟨.finish i, by simp [DirectoryStep.attends], ?_⟩
      simp [Directory.step, hi, Lab6.step, workerStep, hreturned]
    · obtain ⟨peer, u, hu⟩ := h.session.enabled hreturned
      cases peer with
      | client =>
          refine ⟨.client k, by simp [DirectoryStep.attends], ?_⟩
          obtain ⟨v, hv, -⟩ := Option.map_eq_some_iff.mp hu
          have hmove : conn.client.step conn.toClient false = some v := by
            simpa [Connection.session, hreturned] using hv
          simp [Directory.step, h.connection, hopen, hmove]
      | server =>
          refine ⟨.serve i k, by simp [DirectoryStep.attends], ?_⟩
          obtain ⟨v, hv, -⟩ := Option.map_eq_some_iff.mp hu
          have hmove : (s.works i).step (.zeroed opendir) conn.toServer
              (conn.client.pc = .closed) = some v := hv
          simp [Directory.step, h.connection, hopen, hi, hmove]
  · refine ⟨.close i k, by simp [DirectoryStep.attends], ?_⟩
    simp [Directory.step, h.connection, hopen, hi, Lab6.step, workerStep]

theorem Sound.attended (hs : s.Sound opendir) (hk : s.connections[k]? = some conn)
    (hopen : conn.server = .opened fd) (hi : s.pool.workers[i]? = some pc) (hfd : fd ∈ pc.holds)
    (hrequests : ∀ arg ∈ conn.args, Request arg) :
    ∃ left, s.Attended opendir conn.args i k left := by
  obtain ⟨w, hserved, hsession⟩ := hs.talks_at hk
  obtain ⟨n, hn⟩ := hsession hrequests
  rw [hopen] at hserved
  obtain ⟨hwork, hclose, hnone⟩ := hserved
  refine ⟨pc.toClose + n, conn, pc, w, n, rfl, ⟨hk, hi, ⟨fd, hfd, hopen⟩, ?_, hn⟩, rfl⟩
  have hout : pc ≠ .work fd → pc ≠ .close fd → w = .start := by
    intro hpc hpc'
    apply hnone
    intro j
    have hne := (WorkerPc.of_holds hfd).1
    constructor
    · intro hj
      exact hpc (hs.sole hi hfd hj (by simp [WorkerPc.holds, hne])).2.symm
    · intro hj
      exact hpc' (hs.sole hi hfd hj (by simp [WorkerPc.holds, hne])).2.symm
  obtain ⟨-, rfl | rfl | rfl | rfl | rfl⟩ := WorkerPc.of_holds hfd
  · exact hout (by simp) (by simp)
  · exact hout (by simp) (by simp)
  · exact hout (by simp) (by simp)
  · exact hwork i hi
  · exact hclose i hi

end Directory

/-! ## Runs -/

namespace Server

variable {s t : Server} {conn : Connection} {args : List (List Char)} {i k left : Nat}

private theorem attends_not_inQueue {a : DirectoryStep} (ha : a.attends i k = true) :
    a.inQueue = false := by
  cases a with
  | pool b =>
      cases b with
      | main | dequeue _ _ => cases ha
      | accept _ | signal _ | signalNobody | worker _ | spurious _ => rfl
  | connect _ | client _ | accept _ _ | call _ | serve _ _ | serveNone _ | finish _ | close _ _
  | closeNone _ => rfl

private theorem attended_step {a : DirectoryStep} (hnames : PlainNames opendir)
    (hrequests : ∀ arg ∈ args, Request arg) (hs : s.Sound opendir)
    (h : s.directory.Attended opendir args i k left)
    (hstep : s.step c spurious (.zeroed opendir) a = some t) :
    (a.attends i k = false ∧ t.directory.Attended opendir args i k left) ∨
      (a.attends i k = true ∧ ∃ m, left = m + 1 ∧ t.directory.Attended opendir args i k m) ∨
      ∃ conn, t.connections[k]? = some conn ∧ conn.Served opendir args := by
  cases ha : a.inQueue with
  | true =>
      obtain ⟨b, serving, rfl, -, hserving, rfl⟩ := step_inQueue ha hstep
      obtain ⟨conn, pc, w, n, hargs, h, hleft⟩ := h
      obtain ⟨fd, hfd, -⟩ := h.opened
      have hnot : (DirectoryStep.pool b).attends i k = false := by
        cases hb : (DirectoryStep.pool b).attends i k with
        | false => rfl
        | true => cases ha.symm.trans (attends_not_inQueue hb)
      have hb : b ≠ .worker i := by
        rintro rfl
        simp [DirectoryStep.attends] at hnot
      have hworker := Serving.taken_stays hserving hb h.worker hfd
      exact Or.inl ⟨hnot, conn, pc, w, n, hargs, h.congr h.connection hworker rfl, hleft⟩
  | false =>
      rw [step_of_not_inQueue ha] at hstep
      obtain ⟨d, hd, rfl⟩ := Option.map_eq_some_iff.mp hstep
      exact h.step hnames hrequests hs.directory hd

private theorem served_step {a : DirectoryStep} (hk : s.connections[k]? = some conn)
    (h : conn.Served opendir args) (hstep : s.step c spurious (.zeroed opendir) a = some t) :
    t.connections[k]? = some conn := by
  obtain hsame | rfl | hserver | ⟨fd, i, hserver, -⟩ := step_connection hk hstep
  · exact hsame
  · obtain ⟨client, rest, sent, hmove, -⟩ := step_client hk hstep
    simp [ClientState.step, h.client] at hmove
  · rw [h.server] at hserver
    cases hserver
  · rw [h.server] at hserver
    cases hserver

private theorem served_run {steps : List DirectoryStep} (hk : s.connections[k]? = some conn)
    (h : conn.Served opendir args)
    (hrun : run (Server.step c spurious (.zeroed opendir)) s steps = some t) :
    t.connections[k]? = some conn :=
  run_invariant (I := fun u : Server => u.connections[k]? = some conn)
    (fun _ _ _ hu hstep => served_step hu h hstep) hrun hk

private theorem attended_run {steps : List DirectoryStep} (hnames : PlainNames opendir)
    (hrequests : ∀ arg ∈ args, Request arg) (hs : s.Sound opendir)
    (h : s.directory.Attended opendir args i k left)
    (hrun : run (Server.step c spurious (.zeroed opendir)) s steps = some t) :
    (∃ m, left = m + steps.countP (DirectoryStep.attends i k) ∧
      t.directory.Attended opendir args i k m) ∨
      ∃ conn, t.connections[k]? = some conn ∧ conn.Served opendir args := by
  induction steps generalizing s left with
  | nil =>
      cases hrun
      exact Or.inl ⟨left, rfl, h⟩
  | cons a steps ih =>
      rw [run_cons, Option.bind_eq_some_iff] at hrun
      obtain ⟨u, hu, hrun⟩ := hrun
      have hsound := hs.step hnames hu
      rcases attended_step hnames hrequests hs h hu with
        ⟨ha, hother⟩ | ⟨ha, m, rfl, hown⟩ | ⟨conn, hk, hserved⟩
      · rw [List.countP_cons_of_neg (by simp [ha])]
        exact ih hsound hother hrun
      · rw [List.countP_cons_of_pos ha]
        rcases ih hsound hown hrun with ⟨m', rfl, ht⟩ | hserved
        · exact Or.inl ⟨m', by omega, ht⟩
        · exact Or.inr hserved
      · exact Or.inr ⟨conn, served_run hk hserved hrun, hserved⟩

/-- From any reachable state in which a worker holds a connection whose arguments make requests: in
every run of the whole server, until the client has all its answers and both ends are closed, its
steps and those of the worker are boundedly many, and one of them can be taken next. -/
theorem taken_client_is_served {clients : Ptr} {heap : Heap QueueNode} (hnames : PlainNames opendir)
    (hinit : queueInit (Heap.empty fun _ => true) = .ok (clients, heap))
    (h : Reachable (Server.step c spurious (.zeroed opendir)) (Server.start clients heap) s)
    {fd : Int} {pc : WorkerPc} (hk : s.connections[k]? = some conn)
    (hopen : conn.server = .opened fd)
    (hi : s.serving.pool.workers[i]? = some pc) (hfd : fd ∈ pc.holds)
    (hrequests : ∀ arg ∈ conn.args, Request arg) :
    ∃ n, ∀ steps t, run (Server.step c spurious (.zeroed opendir)) s steps = some t →
      (∃ conn', t.connections[k]? = some conn' ∧ conn'.Served opendir conn.args) ∨
        steps.countP (DirectoryStep.attends i k) < n ∧
          ∃ a : DirectoryStep, a.attends i k = true ∧
            (t.step c spurious (.zeroed opendir) a).isSome = true := by
  have hs := Sound.of_reachable hnames hinit h
  obtain ⟨left, hleft⟩ := hs.directory.attended hk hopen hi hfd hrequests
  refine ⟨left, fun steps t hrun => ?_⟩
  rcases attended_run hnames hrequests hs hleft hrun with
    ⟨m, rfl, conn', pc', w, n, -, ht, rfl⟩ | hserved
  · obtain ⟨_, hfd', -⟩ := ht.opened
    have hpos := WorkerPc.toClose_pos hfd'
    have henabled : ∃ a : DirectoryStep, a.attends i k = true ∧
        (t.directory.step c spurious (.zeroed opendir) a).isSome = true := ht.enabled
    obtain ⟨a, ha, hnext⟩ := henabled
    refine Or.inr ⟨by omega, a, ha, ?_⟩
    rw [step_of_not_inQueue (attends_not_inQueue ha), Option.isSome_map]
    exact hnext
  · exact Or.inl hserved

/-- The client of the second worker, when the first has closed its own. -/
theorem taken_client_is_served_second :
    ∃ clients heap s, queueInit (Heap.empty fun _ => true) = .ok (clients, heap) ∧
      run (Server.step ⟨2, 2, by decide, by decide, by decide⟩ false (.zeroed oneEntry))
        (Server.start clients heap) twoClients = some s ∧
      ∃ n, ∀ steps t,
        run (Server.step ⟨2, 2, by decide, by decide, by decide⟩ false (.zeroed oneEntry)) s steps =
          some t →
        (∃ conn, t.connections[1]? = some conn ∧ conn.Served oneEntry [['x']]) ∨
          steps.countP (DirectoryStep.attends 1 1) < n ∧
            ∃ a : DirectoryStep, a.attends 1 1 = true ∧
              (t.step ⟨2, 2, by decide, by decide, by decide⟩ false (.zeroed oneEntry) a).isSome =
                true := by
  have hrun : (match queueInit (Heap.empty fun _ => true) with
      | .ok (clients, heap) =>
          (run (Server.step ⟨2, 2, by decide, by decide, by decide⟩ false (.zeroed oneEntry))
            (Server.start clients heap) twoClients).map fun s =>
              (s.connections[1]?.map fun conn => (conn.args, conn.server),
                s.serving.pool.workers[1]?)
      | .error _ => none) = some (some ([['x']], .opened 5), some (.work 5)) := by decide +kernel
  split at hrun
  · next clients heap hinit =>
      obtain ⟨s, hs, hends⟩ := Option.map_eq_some_iff.mp hrun
      rw [Prod.mk.injEq] at hends
      obtain ⟨conn, hk, hconn⟩ := Option.map_eq_some_iff.mp hends.1
      rw [Prod.mk.injEq] at hconn
      have hrequests : ∀ arg ∈ conn.args, Request arg := by
        rw [hconn.1]
        intro arg harg
        rw [List.mem_singleton.mp harg]
        exact ⟨by decide, by decide, by decide, by decide⟩
      refine ⟨clients, heap, s, hinit, hs, ?_⟩
      rw [← hconn.1]
      exact taken_client_is_served plainNames_oneEntry hinit ⟨_, hs⟩ hk hconn.2 hends.2 (by decide)
        hrequests
  · cases hrun

end Server

end SyssoftLabs.Lab6
