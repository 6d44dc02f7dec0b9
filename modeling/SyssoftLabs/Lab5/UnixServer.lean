import SyssoftLabs.Framework.Transition
import SyssoftLabs.Lab5.Status

/-!
# The status over a socket

The server takes one connection after the other, waits for the next second and writes its state. The
clients of the connections read and close in any order and between any two steps of the server. A
`connect` that waits for room in the backlog has not happened yet. `time`, `getloadavg` and `accept`
do not fail.
-/

namespace SyssoftLabs.Lab5

open SyssoftLabs.Framework

variable {Load : Type}

inductive UnixPc
  | accept
  /-- In the loop `while (!update());`. -/
  | update (cfd : Nat)
  | write (cfd : Nat)
  | close (cfd : Nat)
  /-- Behind an `_exit`. -/
  | exited (status : Nat)
  /-- Ended by a signal without a handler. -/
  | killed
deriving DecidableEq, Repr

structure Connection (Load : Type) where
  clientOpen : Bool
  serverOpen : Bool
  /-- What is written and not read yet. -/
  sent : List (Status Load)
  received : List (Status Load)
deriving DecidableEq, Repr

/-- A connection is named by its number; they are accepted in this order. -/
structure UnixServer (Load : Type) where
  pc : UnixPc
  state : Status Load
  connections : List (Connection Load)
  /-- The connection to be accepted next. -/
  next : Nat
deriving DecidableEq, Repr

/-- What a client does, or a step of the server with a reading of the clock and the load averages,
which only `update` looks at. -/
inductive UnixAction (Load : Type)
  | connect
  | read (client : Nat)
  | close (client : Nat)
  | server (currentTime : Int) (loadavg : Vector Load 3)
deriving DecidableEq, Repr

def sigusr1 : Nat := 10
def sigpipe : Nat := 13

namespace UnixServer

/-- The status with which `sighandler` exits; `none` where it returns. -/
def sighandler (signo : Nat) : Option Nat := if signo = sigusr1 then none else some 0

/-- What a signal does to the server, which handles those from 1 to 29. -/
def raise (signo : Nat) : Option UnixPc :=
  if 1 ≤ signo ∧ signo < 30 then (sighandler signo).map .exited else some .killed

/-- At the first `accept`. -/
def start (startTime : Int) (pid uid gid : Nat) (loadavg : Vector Load 3) : UnixServer Load where
  pc := .accept
  state := ⟨startTime, 0, pid, uid, gid, loadavg⟩
  connections := []
  next := 0

/-- The system closes what the server has open. -/
def finish (s : UnixServer Load) (pc : UnixPc) : UnixServer Load :=
  { s with pc := pc, connections := s.connections.map fun c => { c with serverOpen := false } }

def step (s : UnixServer Load) : UnixAction Load → Option (UnixServer Load)
  | .connect =>
      match s.pc with
      | .exited _ | .killed => none
      | _ => some { s with connections := s.connections ++ [⟨true, true, [], []⟩] }
  | .read i =>
      match s.connections[i]? with
      | some ⟨true, serverOpen, state :: sent, received⟩ =>
          some { s with
            connections := s.connections.set i ⟨true, serverOpen, sent, received ++ [state]⟩ }
      -- the end of the stream
      | some ⟨true, false, [], _⟩ => some s
      | _ => none
  | .close i =>
      match s.connections[i]? with
      | some ⟨true, serverOpen, sent, received⟩ =>
          some { s with connections := s.connections.set i ⟨false, serverOpen, sent, received⟩ }
      | _ => none
  | .server currentTime loadavg =>
      match s.pc with
      | .accept =>
          if s.next < s.connections.length then
            some { s with pc := .update s.next, next := s.next + 1 }
          else none
      | .update cfd =>
          match Lab5.update s.state currentTime loadavg with
          | (state, true) => some { s with pc := .write cfd, state := state }
          | (state, false) => some { s with state := state }
      | .write cfd =>
          match s.connections[cfd]? with
          | some ⟨true, serverOpen, sent, received⟩ =>
              some { s with
                pc := .close cfd,
                connections :=
                  s.connections.set cfd ⟨true, serverOpen, sent ++ [s.state], received⟩ }
          | some ⟨false, _, _, _⟩ =>
              -- `write` raises `SIGPIPE`, and fails if the handler returns
              some (s.finish ((raise sigpipe).getD (.exited 4)))
          | none => none
      | .close cfd =>
          some { s with
            pc := .accept,
            connections := s.connections.modify cfd fun c => { c with serverOpen := false } }
      | .exited _ | .killed => none

/-- No `_exit` has been reached. -/
def Running (s : UnixServer Load) : Prop := ∀ status, s.pc ≠ .exited status

/-- A write meets a client that has not closed its end. -/
def Attended (s : UnixServer Load) : UnixAction Load → Prop
  | .server _ _ =>
      ∀ cfd c, s.pc = .write cfd → s.connections[cfd]? = some c → c.clientOpen = true
  | _ => True

/-- A client closes its end only when it has read something. -/
def Patient (s : UnixServer Load) : UnixAction Load → Prop
  | .close i => ∀ c, s.connections[i]? = some c → c.received ≠ []
  | _ => True

section

variable {s t : UnixServer Load} {a : UnixAction Load}

/-! ## What a step can do -/

theorem step_connect (h : step s .connect = some t) :
    t = { s with connections := s.connections ++ [⟨true, true, [], []⟩] } := by
  simp only [step] at h
  split at h
  · cases h
  · cases h
  · cases h
    rfl

theorem step_read {i : Nat} (h : step s (.read i) = some t) :
    t = s ∨ ∃ serverOpen state sent received,
      s.connections[i]? = some ⟨true, serverOpen, state :: sent, received⟩ ∧
      t = { s with
        connections := s.connections.set i ⟨true, serverOpen, sent, received ++ [state]⟩ } := by
  simp only [step] at h
  split at h
  · next serverOpen state sent received hc =>
      cases h
      exact .inr ⟨serverOpen, state, sent, received, hc, rfl⟩
  · cases h
    exact .inl rfl
  · cases h

theorem step_close {i : Nat} (h : step s (.close i) = some t) :
    ∃ serverOpen sent received,
      s.connections[i]? = some ⟨true, serverOpen, sent, received⟩ ∧
      t = { s with connections := s.connections.set i ⟨false, serverOpen, sent, received⟩ } := by
  simp only [step] at h
  split at h
  · next serverOpen sent received hc =>
      cases h
      exact ⟨serverOpen, sent, received, hc, rfl⟩
  · cases h

theorem step_server {currentTime : Int} {loadavg : Vector Load 3}
    (h : step s (.server currentTime loadavg) = some t) :
    (s.pc = .accept ∧ t = { s with pc := .update s.next, next := s.next + 1 }) ∨
    (∃ cfd pc state, s.pc = .update cfd ∧ (pc = .update cfd ∨ pc = .write cfd) ∧
      t = { s with pc := pc, state := state }) ∨
    (∃ cfd serverOpen sent received, s.pc = .write cfd ∧
      s.connections[cfd]? = some ⟨true, serverOpen, sent, received⟩ ∧
      t = { s with
        pc := .close cfd,
        connections := s.connections.set cfd ⟨true, serverOpen, sent ++ [s.state], received⟩ }) ∨
    (∃ cfd c, s.pc = .write cfd ∧ s.connections[cfd]? = some c ∧ c.clientOpen = false ∧
      t = s.finish (.exited 0)) ∨
    (∃ cfd, s.pc = .close cfd ∧ t = { s with
      pc := .accept,
      connections := s.connections.modify cfd fun c => { c with serverOpen := false } }) := by
  cases hpc : s.pc with
  | accept =>
      simp only [step, hpc] at h
      split at h
      · cases h
        exact .inl ⟨rfl, rfl⟩
      · cases h
  | update cfd =>
      simp only [step, hpc] at h
      split at h
      · next state _ =>
          cases h
          exact .inr (.inl ⟨cfd, .write cfd, state, rfl, .inr rfl, rfl⟩)
      · next state _ =>
          cases h
          exact .inr (.inl ⟨cfd, .update cfd, state, rfl, .inl rfl, rfl⟩)
  | write cfd =>
      simp only [step, hpc] at h
      split at h
      · next serverOpen sent received hc =>
          cases h
          exact .inr (.inr (.inl ⟨cfd, serverOpen, sent, received, rfl, hc, rfl⟩))
      · next hc =>
          cases h
          exact .inr (.inr (.inr (.inl ⟨cfd, _, rfl, hc, rfl, rfl⟩)))
      · cases h
  | close cfd =>
      simp only [step, hpc] at h
      cases h
      exact .inr (.inr (.inr (.inr ⟨cfd, rfl, rfl⟩)))
  | exited status => simp [step, hpc] at h
  | killed => simp [step, hpc] at h

/-! ## The clients -/

private theorem attended_of_pc {currentTime : Int} {loadavg : Vector Load 3}
    (hpc : ∀ cfd, s.pc ≠ .write cfd) : s.Attended (.server currentTime loadavg) := by
  intro cfd c hwrite
  exact absurd hwrite (hpc cfd)

private theorem step_running_iff (hs : s.Running) (h : step s a = some t) :
    t.Running ↔ s.Attended a := by
  cases a with
  | connect =>
      rw [step_connect h]
      exact iff_of_true hs trivial
  | read i =>
      rcases step_read h with rfl | ⟨serverOpen, state, sent, received, -, rfl⟩
      · exact iff_of_true hs trivial
      · exact iff_of_true hs trivial
  | close i =>
      obtain ⟨serverOpen, sent, received, -, rfl⟩ := step_close h
      exact iff_of_true hs trivial
  | server currentTime loadavg =>
      rcases step_server h with ⟨hpc, rfl⟩ | ⟨cfd, pc, state, hpc, hnext, rfl⟩ |
        ⟨cfd, serverOpen, sent, received, hpc, hc, rfl⟩ | ⟨cfd, c, hpc, hc, hclosed, rfl⟩ |
        ⟨cfd, hpc, rfl⟩
      · exact iff_of_true (by simp [Running]) (attended_of_pc (by simp [hpc]))
      · refine iff_of_true ?_ (attended_of_pc (by simp [hpc]))
        rcases hnext with rfl | rfl <;> simp [Running]
      · refine iff_of_true (by simp [Running]) ?_
        intro cfd' c' hwrite hc'
        rw [hpc] at hwrite
        cases hwrite
        rw [hc] at hc'
        cases hc'
        rfl
      · refine iff_of_false (fun hrunning => hrunning 0 rfl) ?_
        intro hattended
        have hopen := hattended cfd c hpc hc
        rw [hclosed] at hopen
        cases hopen
      · exact iff_of_true (by simp [Running]) (attended_of_pc (by simp [hpc]))

/-- Nothing has happened yet to the connections the server has not written to. -/
structure Waiting (s : UnixServer Load) : Prop where
  current : ∀ cfd, (s.pc = .update cfd ∨ s.pc = .write cfd ∨ s.pc = .close cfd) → cfd < s.next
  fresh : ∀ i c, s.connections[i]? = some c → (s.next ≤ i ∨ s.pc = .update i ∨ s.pc = .write i) →
    c = ⟨true, true, [], []⟩

theorem Waiting.attended (hs : s.Waiting) (a : UnixAction Load) : s.Attended a := by
  cases a with
  | connect | read i | close i => trivial
  | server currentTime loadavg =>
      intro cfd c hpc hc
      rw [hs.fresh cfd c hc (.inr (.inr hpc))]

theorem Waiting.set (hs : s.Waiting) {i : Nat} {c d : Connection Load}
    (hc : s.connections[i]? = some c) (hne : c ≠ ⟨true, true, [], []⟩) :
    Waiting { s with connections := s.connections.set i d } where
  current := hs.current
  fresh := by
    intro j e he hj
    by_cases hij : j = i
    · subst j
      exact absurd (hs.fresh i c hc hj) hne
    · replace he : (s.connections.set i d)[j]? = some e := he
      rw [List.getElem?_set_ne (Ne.symm hij)] at he
      exact hs.fresh j e he hj

theorem Waiting.step (hs : s.Waiting) (ha : s.Patient a) (h : step s a = some t) : t.Waiting := by
  cases a with
  | connect =>
      rw [step_connect h]
      refine ⟨hs.current, fun i c hc hi => ?_⟩
      replace hc : (s.connections ++ [⟨true, true, [], []⟩])[i]? = some c := hc
      by_cases hlt : i < s.connections.length
      · rw [List.getElem?_append_left hlt] at hc
        exact hs.fresh i c hc hi
      · rw [List.getElem?_append_right (by omega)] at hc
        simpa using (List.mem_of_getElem? hc)
  | read i =>
      rcases step_read h with rfl | ⟨serverOpen, state, sent, received, hc, rfl⟩
      · exact hs
      · exact hs.set hc (by simp)
  | close i =>
      obtain ⟨serverOpen, sent, received, hc, rfl⟩ := step_close h
      have hreceived := ha _ hc
      exact hs.set hc (by simpa using fun _ _ => hreceived)
  | server currentTime loadavg =>
      rcases step_server h with ⟨hpc, rfl⟩ | ⟨cfd, pc, state, hpc, hnext, rfl⟩ |
        ⟨cfd, serverOpen, sent, received, hpc, hc, rfl⟩ | ⟨cfd, c, hpc, hc, hclosed, -⟩ |
        ⟨cfd, hpc, rfl⟩
      · constructor
        · simp
        · intro i c hc hi
          apply hs.fresh i c hc
          simp only [UnixPc.update.injEq, reduceCtorEq, or_false] at hi
          omega
      · have hcurrent := hs.current cfd (.inl hpc)
        constructor
        · rcases hnext with rfl | rfl <;> simpa using hcurrent
        · intro i c hc hi
          apply hs.fresh i c hc
          rcases hnext with rfl | rfl <;> simpa [hpc] using hi
      · have hcurrent := hs.current cfd (.inr (.inl hpc))
        constructor
        · simpa using hcurrent
        · intro i c hi' hi
          simp only [reduceCtorEq, or_false] at hi
          have hne : cfd ≠ i := by omega
          dsimp only at hi'
          rw [List.getElem?_set_ne hne] at hi'
          exact hs.fresh i c hi' (.inl hi)
      · rw [hs.fresh cfd c hc (.inr (.inr hpc))] at hclosed
        cases hclosed
      · have hcurrent := hs.current cfd (.inr (.inr hpc))
        constructor
        · simp
        · intro i c hi' hi
          simp only [reduceCtorEq, or_false] at hi
          have hne : cfd ≠ i := by omega
          dsimp only at hi'
          rw [List.getElem?_modify_ne _ _ hne] at hi'
          exact hs.fresh i c hi' (.inl hi)

end

/-- The server keeps running exactly in the runs in which it writes to no client that has closed its
end. -/
theorem unixserver_runs_iff {startTime : Int} {pid uid gid : Nat} {loadavg : Vector Load 3}
    {as : List (UnixAction Load)} {t : UnixServer Load}
    (h : run step (start startTime pid uid gid loadavg) as = some t) :
    Throughout step Running (start startTime pid uid gid loadavg) as ↔
      Guarded step Attended (start startTime pid uid gid loadavg) as := by
  have hstart : Running (start startTime pid uid gid loadavg) := by
    intro status hpc
    cases hpc
  exact throughout_iff_guarded (J := fun _ => True) (fun _ _ _ _ _ => trivial)
    (fun s a t _ hs ht => step_running_iff hs ht) h trivial hstart

/-- A client that waits for its answer. -/
theorem unixserver_runs_once :
    (Throughout step Running (start 0 7 0 0 #v[0, 0, 0]) [.connect, .server 0 #v[0, 0, 0],
        .server 1 #v[5, 0, 0], .server 1 #v[5, 0, 0], .read 0] ↔
      Guarded step Attended (start 0 7 0 0 #v[0, 0, 0]) [.connect, .server 0 #v[0, 0, 0],
        .server 1 #v[5, 0, 0], .server 1 #v[5, 0, 0], .read 0]) :=
  unixserver_runs_iff (t := ⟨.close 0, ⟨0, 1, 7, 0, 0, #v[5, 0, 0]⟩,
    [⟨true, true, [], [⟨0, 1, 7, 0, 0, #v[5, 0, 0]⟩]⟩], 1⟩) (by decide)

/-- A client that closes while the server waits for the next second. -/
theorem unixserver_runs_fails :
    ¬∀ (as : List (UnixAction Nat)) (t : UnixServer Nat),
      run step (start 0 7 0 0 #v[0, 0, 0]) as = some t → t.Running := by
  intro h
  have hrunning := h [.connect, .server 0 #v[0, 0, 0], .close 0, .server 1 #v[5, 0, 0],
    .server 1 #v[5, 0, 0]] ⟨.exited 0, ⟨0, 1, 7, 0, 0, #v[5, 0, 0]⟩, [⟨false, false, [], []⟩], 1⟩
    (by decide)
  exact hrunning 0 rfl

/-- Clients that read first cannot stop the server. -/
theorem patient_clients_keep_running {startTime : Int} {pid uid gid : Nat}
    {loadavg : Vector Load 3} {as : List (UnixAction Load)}
    (h : Guarded step Patient (start startTime pid uid gid loadavg) as) :
    Throughout step Running (start startTime pid uid gid loadavg) as := by
  have hwaiting : Waiting (start startTime pid uid gid loadavg) := by
    constructor
    · simp [start]
    · simp [start]
  have hrunning : Running (start startTime pid uid gid loadavg) := by simp [Running, start]
  have hboth := throughout_of_guarded (I := fun s => Waiting s ∧ Running s)
    (fun s a t hs ha ht =>
      ⟨hs.1.step ha ht, (step_running_iff hs.2 ht).mpr (hs.1.attended a)⟩) h ⟨hwaiting, hrunning⟩
  exact hboth.imp fun _ hs => hs.2

end UnixServer

end SyssoftLabs.Lab5
