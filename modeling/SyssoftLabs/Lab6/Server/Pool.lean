import SyssoftLabs.Framework.Population
import SyssoftLabs.Framework.Transition

/-!
# The worker pool of the directory server

`main` and any number of `worker` threads of the server as one transition system. The sections
under `pool_size_mutex` and `free_workers_count_mutex` are one step each. `queue_mutex` is kept
explicit: it has no owner, `pthread_cond_wait` releases it whoever locked it and takes it again
before it returns. The queue is an atomic FIFO list unless the environment lets it answer anything.
-/

namespace SyssoftLabs.Lab6

open SyssoftLabs.Framework

/-- The two arguments of the server, as `main` checks them. -/
structure Config where
  n : Nat
  k : Nat
  one_le : 1 ≤ n
  le_twenty : n ≤ 20
  le_k : n ≤ k

/-- What the server does not decide: whether a wait may end without a signal, and whether
`queue_dequeue` may return any client or `-1` instead of the oldest client. -/
structure Env where
  spurious : Bool
  anyAnswer : Bool

/-- The queue as a correct FIFO list. -/
abbrev Env.fifo (spurious : Bool) : Env := ⟨spurious, false⟩

inductive MainPc
  /-- In the loop that creates the first workers, or before `pool_size = n` once `i = n`. -/
  | create (i : Nat)
  | accept
  | lock (fd : Int)
  | enqueue (fd : Int)
  | unlock
  /-- In `service_client`, before `free_workers_count` is read. -/
  | service
  /-- Before `pool_size < k` is tested. -/
  | grow
  /-- Between `++pool_size` and `pthread_create`. -/
  | spawn
  | signal
  | signalAgain
deriving DecidableEq, Repr

inductive WorkerPc
  | start
  | callWait
  /-- Blocked in `pthread_cond_wait`, no wake-up pending. -/
  | waiting
  /-- Woken, `queue_mutex` not taken again yet. -/
  | woken
  | dequeue
  | unlock (client : Int)
  /-- Before `-1 == client` and, if so, `pool_size > n` are tested. -/
  | test (client : Int)
  /-- Before the `--free_workers_count` of the loop. -/
  | unfree (client : Int)
  | work (client : Int)
  | close (client : Int)
  /-- Out of the loop, before the last `--free_workers_count`. -/
  | leave
  | exited
deriving DecidableEq, Repr

/-- The shared state, the program counters, and a history that no step reads. -/
structure Pool where
  main : MainPc
  workers : List WorkerPc
  /-- `queue_mutex` is locked. -/
  locked : Bool
  clients : List Int
  poolSize : Nat
  freeWorkers : Nat
  /-- The descriptors `accept` may not return: those still open. -/
  opened : List Int
  accepted : List Int
  /-- The clients that left the queue, each with the worker that took it. -/
  taken : List (Nat × Int)
  /-- The calls `do_work(client)`, each with its worker. -/
  worked : List (Nat × Int)
  /-- The calls `close(client)`, each with its worker. -/
  closed : List (Nat × Int)
deriving DecidableEq, Repr

def Pool.init : Pool := ⟨.create 0, [], false, [], 0, 0, [], [], [], [], []⟩

/-- `--x` on a `size_t`. -/
def sizeDec (x : Nat) : Nat := if x = 0 then 2 ^ 64 - 1 else x - 1

theorem sizeDec_of_pos {x : Nat} (h : 0 < x) : sizeDec x = x - 1 := if_neg (by omega)

def Pool.goto (s : Pool) (i : Nat) (pc : WorkerPc) : Pool :=
  { s with workers := s.workers.set i pc }

inductive Action
  | main
  | accept (fd : Int)
  /-- The next `pthread_cond_signal` of `main`, which wakes a waiting worker. -/
  | signal (i : Nat)
  /-- The next `pthread_cond_signal` of `main`, with nobody waiting. -/
  | signalNobody
  | worker (i : Nat)
  /-- `queue_dequeue` of a worker, with its answer. -/
  | dequeue (i : Nat) (client : Int)
  /-- A wait that ends without a signal. -/
  | spurious (i : Nat)
deriving DecidableEq, Repr

def mainStep (c : Config) (s : Pool) : Option Pool :=
  match s.main with
  | .create i =>
      if i < c.n then some { s with main := .create (i + 1), workers := s.workers ++ [.start] }
      else some { s with main := .accept, poolSize := c.n }
  | .lock fd => if s.locked then none else some { s with main := .enqueue fd, locked := true }
  | .enqueue fd => some { s with main := .unlock, clients := s.clients ++ [fd] }
  | .unlock => some { s with main := .service, locked := false }
  | .service => some { s with main := if s.freeWorkers = 0 then .grow else .signal }
  | .grow =>
      if s.poolSize < c.k then some { s with main := .spawn, poolSize := s.poolSize + 1 }
      else some { s with main := .signal }
  | .spawn => some { s with main := .signal, workers := s.workers ++ [.start] }
  | .accept | .signal | .signalAgain => none

/-- What follows a `pthread_cond_signal` of `main`. -/
def afterSignal : MainPc → Option MainPc
  | .signal => some .signalAgain
  | .signalAgain => some .accept
  | _ => none

def workerStep (c : Config) (s : Pool) (i : Nat) : WorkerPc → Option Pool
  | .start => some { s.goto i .callWait with freeWorkers := s.freeWorkers + 1 }
  | .callWait => some { s.goto i .waiting with locked := false }
  | .woken => if s.locked then none else some { s.goto i .dequeue with locked := true }
  | .unlock client => some { s.goto i (.test client) with locked := false }
  | .test client =>
      if client = -1 then
        if s.poolSize > c.n then some { s.goto i .leave with poolSize := sizeDec s.poolSize }
        else some (s.goto i (.unfree client))
      else some (s.goto i (.unfree client))
  | .unfree client =>
      some { s.goto i (.work client) with
        freeWorkers := sizeDec s.freeWorkers, worked := s.worked ++ [(i, client)] }
  | .work client => some (s.goto i (.close client))
  | .close client =>
      some { s.goto i .start with
        closed := s.closed ++ [(i, client)], opened := s.opened.erase client }
  | .leave => some { s.goto i .exited with freeWorkers := sizeDec s.freeWorkers }
  | .waiting | .dequeue | .exited => none

/-- `queue_dequeue` with the answer `client`. -/
def dequeueStep (env : Env) (s : Pool) (i : Nat) (client : Int) : Option Pool :=
  match s.clients with
  | [] =>
      if client = -1 ∨ env.anyAnswer then some (s.goto i (.unlock client)) else none
  | fd :: rest =>
      if client = fd then
        some { s.goto i (.unlock fd) with clients := rest, taken := s.taken ++ [(i, fd)] }
      else if env.anyAnswer then some (s.goto i (.unlock client))
      else none

def step (c : Config) (env : Env) (s : Pool) : Action → Option Pool
  | .main => mainStep c s
  | .accept fd =>
      if s.main = .accept ∧ 0 ≤ fd ∧ fd ∉ s.opened then
        some { s with main := .lock fd, opened := s.opened ++ [fd], accepted := s.accepted ++ [fd] }
      else none
  | .signal i =>
      if s.workers[i]? = some .waiting then
        (afterSignal s.main).map fun m => { s.goto i .woken with main := m }
      else none
  | .signalNobody =>
      if .waiting ∈ s.workers then none else (afterSignal s.main).map fun m => { s with main := m }
  | .worker i => (s.workers[i]?).bind (workerStep c s i)
  | .dequeue i client =>
      if s.workers[i]? = some .dequeue then dequeueStep env s i client else none
  | .spurious i =>
      if env.spurious ∧ s.workers[i]? = some .waiting then some (s.goto i .woken) else none

/-- What each step does, with the conditions under which it is taken. -/
inductive Move (c : Config) (env : Env) (s : Pool) : Action → Pool → Prop
  | create {j : Nat} (hm : s.main = .create j) (hj : j < c.n) :
      Move c env s .main { s with main := .create (j + 1), workers := s.workers ++ [.start] }
  | setPool {j : Nat} (hm : s.main = .create j) (hj : ¬j < c.n) :
      Move c env s .main { s with main := .accept, poolSize := c.n }
  | lock {fd : Int} (hm : s.main = .lock fd) (hl : s.locked = false) :
      Move c env s .main { s with main := .enqueue fd, locked := true }
  | enqueue {fd : Int} (hm : s.main = .enqueue fd) :
      Move c env s .main { s with main := .unlock, clients := s.clients ++ [fd] }
  | unlock (hm : s.main = .unlock) : Move c env s .main { s with main := .service, locked := false }
  | serviceNone (hm : s.main = .service) (hf : s.freeWorkers = 0) :
      Move c env s .main { s with main := .grow }
  | serviceSome (hm : s.main = .service) (hf : s.freeWorkers ≠ 0) :
      Move c env s .main { s with main := .signal }
  | grow (hm : s.main = .grow) (hp : s.poolSize < c.k) :
      Move c env s .main { s with main := .spawn, poolSize := s.poolSize + 1 }
  | growFull (hm : s.main = .grow) (hp : ¬s.poolSize < c.k) :
      Move c env s .main { s with main := .signal }
  | spawn (hm : s.main = .spawn) :
      Move c env s .main { s with main := .signal, workers := s.workers ++ [.start] }
  | accept {fd : Int} (hm : s.main = .accept) (hfd : 0 ≤ fd) (hnew : fd ∉ s.opened) :
      Move c env s (.accept fd)
        { s with main := .lock fd, opened := s.opened ++ [fd], accepted := s.accepted ++ [fd] }
  | signal {i : Nat} {m : MainPc} (hm : afterSignal s.main = some m)
      (hi : s.workers[i]? = some .waiting) :
      Move c env s (.signal i) { s.goto i .woken with main := m }
  | signalNobody {m : MainPc} (hm : afterSignal s.main = some m) (hw : .waiting ∉ s.workers) :
      Move c env s .signalNobody { s with main := m }
  | start {i : Nat} (hi : s.workers[i]? = some .start) :
      Move c env s (.worker i) { s.goto i .callWait with freeWorkers := s.freeWorkers + 1 }
  | callWait {i : Nat} (hi : s.workers[i]? = some .callWait) :
      Move c env s (.worker i) { s.goto i .waiting with locked := false }
  | wake {i : Nat} (hi : s.workers[i]? = some .woken) (hl : s.locked = false) :
      Move c env s (.worker i) { s.goto i .dequeue with locked := true }
  | dequeueEmpty {i : Nat} (hi : s.workers[i]? = some .dequeue) (hq : s.clients = []) :
      Move c env s (.dequeue i (-1)) (s.goto i (.unlock (-1)))
  | dequeueAny {i : Nat} {client : Int} (he : env.anyAnswer = true)
      (hi : s.workers[i]? = some .dequeue) :
      Move c env s (.dequeue i client) (s.goto i (.unlock client))
  | dequeue {i : Nat} {fd : Int} {rest : List Int} (hi : s.workers[i]? = some .dequeue)
      (hq : s.clients = fd :: rest) :
      Move c env s (.dequeue i fd)
        { s.goto i (.unlock fd) with clients := rest, taken := s.taken ++ [(i, fd)] }
  | workerUnlock {i : Nat} {client : Int} (hi : s.workers[i]? = some (.unlock client)) :
      Move c env s (.worker i) { s.goto i (.test client) with locked := false }
  | retire {i : Nat} (hi : s.workers[i]? = some (.test (-1))) (hp : c.n < s.poolSize) :
      Move c env s (.worker i) { s.goto i .leave with poolSize := sizeDec s.poolSize }
  | keep {i : Nat} (hi : s.workers[i]? = some (.test (-1))) (hp : ¬c.n < s.poolSize) :
      Move c env s (.worker i) (s.goto i (.unfree (-1)))
  | serve {i : Nat} {client : Int} (hi : s.workers[i]? = some (.test client)) (hc : client ≠ -1) :
      Move c env s (.worker i) (s.goto i (.unfree client))
  | unfree {i : Nat} {client : Int} (hi : s.workers[i]? = some (.unfree client)) :
      Move c env s (.worker i) { s.goto i (.work client) with
        freeWorkers := sizeDec s.freeWorkers, worked := s.worked ++ [(i, client)] }
  | work {i : Nat} {client : Int} (hi : s.workers[i]? = some (.work client)) :
      Move c env s (.worker i) (s.goto i (.close client))
  | close {i : Nat} {client : Int} (hi : s.workers[i]? = some (.close client)) :
      Move c env s (.worker i) { s.goto i .start with
        closed := s.closed ++ [(i, client)], opened := s.opened.erase client }
  | leave {i : Nat} (hi : s.workers[i]? = some .leave) :
      Move c env s (.worker i) { s.goto i .exited with freeWorkers := sizeDec s.freeWorkers }
  | spurious {i : Nat} (he : env.spurious = true) (hi : s.workers[i]? = some .waiting) :
      Move c env s (.spurious i) (s.goto i .woken)

private theorem mainStep_move {c : Config} {env : Env} {s t : Pool} (h : mainStep c s = some t) :
    Move c env s .main t := by
  cases hm : s.main with simp only [mainStep, hm, reduceCtorEq, Option.some.injEq] at h
  | create j =>
      by_cases hj : j < c.n
      · rw [if_pos hj] at h
        cases h
        exact .create hm hj
      · rw [if_neg hj] at h
        cases h
        exact .setPool hm hj
  | lock fd =>
      cases hl : s.locked with simp only [hl, if_true, reduceCtorEq, if_false] at h
      | false =>
          cases h
          exact .lock hm hl
  | enqueue fd =>
      subst h
      exact .enqueue hm
  | unlock =>
      subst h
      exact .unlock hm
  | service =>
      subst h
      by_cases hf : s.freeWorkers = 0
      · rw [if_pos hf]
        exact .serviceNone hm hf
      · rw [if_neg hf]
        exact .serviceSome hm hf
  | grow =>
      by_cases hp : s.poolSize < c.k
      · rw [if_pos hp] at h
        cases h
        exact .grow hm hp
      · rw [if_neg hp] at h
        cases h
        exact .growFull hm hp
  | spawn =>
      subst h
      exact .spawn hm

private theorem workerStep_move {c : Config} {env : Env} {s t : Pool} {i : Nat} {pc : WorkerPc}
    (hi : s.workers[i]? = some pc) (h : workerStep c s i pc = some t) :
    Move c env s (.worker i) t := by
  cases pc with simp only [workerStep, reduceCtorEq, Option.some.injEq] at h
  | start =>
      subst h
      exact .start hi
  | callWait =>
      subst h
      exact .callWait hi
  | woken =>
      cases hl : s.locked with simp only [hl, if_true, reduceCtorEq, if_false] at h
      | false =>
          cases h
          exact .wake hi hl
  | unlock client =>
      subst h
      exact .workerUnlock hi
  | test client =>
      by_cases hc : client = -1
      · subst hc
        by_cases hp : c.n < s.poolSize
        · rw [if_pos rfl, if_pos hp] at h
          cases h
          exact .retire hi hp
        · rw [if_pos rfl, if_neg hp] at h
          cases h
          exact .keep hi hp
      · rw [if_neg hc] at h
        cases h
        exact .serve hi hc
  | unfree client =>
      subst h
      exact .unfree hi
  | work client =>
      subst h
      exact .work hi
  | close client =>
      subst h
      exact .close hi
  | leave =>
      subst h
      exact .leave hi

private theorem dequeueStep_move {c : Config} {env : Env} {s t : Pool} {i : Nat} {client : Int}
    (hi : s.workers[i]? = some .dequeue) (h : dequeueStep env s i client = some t) :
    Move c env s (.dequeue i client) t := by
  cases hq : s.clients with simp only [dequeueStep, hq] at h
  | nil =>
      split at h
      · next hc =>
          cases h
          rcases hc with rfl | he
          · exact .dequeueEmpty hi hq
          · exact .dequeueAny he hi
      · cases h
  | cons fd rest =>
      split at h
      · next hc =>
          cases h
          subst hc
          exact .dequeue hi hq
      · split at h
        · next he =>
            cases h
            exact .dequeueAny he hi
        · cases h

/-- Every step is one of the moves. -/
theorem step_move {c : Config} {env : Env} {s t : Pool} {a : Action} (h : step c env s a = some t) :
    Move c env s a t := by
  cases a with simp only [step] at h
  | main => exact mainStep_move h
  | accept fd =>
      split at h
      · next hg =>
          cases h
          exact .accept hg.1 hg.2.1 hg.2.2
      · cases h
  | signal i =>
      split at h
      · next hi =>
          obtain ⟨m, hm, rfl⟩ := Option.map_eq_some_iff.mp h
          exact .signal hm hi
      · cases h
  | signalNobody =>
      split at h
      · cases h
      · next hw =>
          obtain ⟨m, hm, rfl⟩ := Option.map_eq_some_iff.mp h
          exact .signalNobody hm hw
  | worker i =>
      obtain ⟨pc, hi, h⟩ := Option.bind_eq_some_iff.mp h
      exact workerStep_move hi h
  | dequeue i client =>
      split at h
      · next hi => exact dequeueStep_move hi h
      · cases h
  | spurious i =>
      split at h
      · next hg =>
          cases h
          exact .spurious hg.1 hg.2
      · cases h

/-- The steps `main` takes by itself once it has accepted a client. -/
def Action.ofMain : Action → Bool
  | .main | .signal _ | .signalNobody => true
  | _ => false

theorem main_enabled (c : Config) (env : Env) {s : Pool} (haccept : s.main ≠ .accept)
    (hlock : ∀ fd, s.main = .lock fd → s.locked = false) :
    ∃ a t, a.ofMain = true ∧ step c env s a = some t := by
  have hsignal : ∀ m, afterSignal s.main = some m →
      ∃ a t, a.ofMain = true ∧ step c env s a = some t := by
    intro m hm
    by_cases hw : .waiting ∈ s.workers
    · obtain ⟨i, hi⟩ := List.mem_iff_getElem?.mp hw
      exact ⟨.signal i, { s.goto i .woken with main := m }, rfl, by simp [step, hi, hm]⟩
    · exact ⟨.signalNobody, { s with main := m }, rfl, by simp [step, hw, hm]⟩
  cases hm : s.main with
  | accept => exact absurd hm haccept
  | signal => exact hsignal .signalAgain (by rw [hm]; rfl)
  | signalAgain => exact hsignal .accept (by rw [hm]; rfl)
  | create j =>
      by_cases hj : j < c.n
      · exact ⟨.main, { s with main := .create (j + 1), workers := s.workers ++ [.start] }, rfl,
          by simp [step, mainStep, hm, hj]⟩
      · exact ⟨.main, { s with main := .accept, poolSize := c.n }, rfl,
          by simp [step, mainStep, hm, hj]⟩
  | grow =>
      by_cases hp : s.poolSize < c.k
      · exact ⟨.main, { s with main := .spawn, poolSize := s.poolSize + 1 }, rfl,
          by simp [step, mainStep, hm, hp]⟩
      · exact ⟨.main, { s with main := .signal }, rfl, by simp [step, mainStep, hm, hp]⟩
  | lock fd => exact ⟨.main, _, rfl, by simp [step, mainStep, hm, hlock fd hm]; rfl⟩
  | enqueue fd | unlock | service | spawn =>
      exact ⟨.main, _, rfl, by simp [step, mainStep, hm]; rfl⟩

end SyssoftLabs.Lab6
