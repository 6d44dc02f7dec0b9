import SyssoftLabs.Lab6.Directory.Sound
import SyssoftLabs.Lab6.Server.Lost

/-!
# The server over the queue of the code

The clients, the workers with their calls of `do_work`, and `queue_enqueue` and `queue_dequeue`
themselves. A step that does not touch the queue is one of the server with a correct queue, and
every step is one of the pool over the queue of the code.
-/

namespace SyssoftLabs.Lab6

open SyssoftLabs.Framework

structure Server where
  serving : Serving
  /-- The variables of `do_work` in each worker. -/
  works : Nat → Work
  connections : List Connection

/-- A call of `queue_enqueue` or `queue_dequeue`, or another step of `main`. -/
def DirectoryStep.inQueue : DirectoryStep → Bool
  | .pool .main | .pool (.dequeue _ _) => true
  | _ => false

namespace Server

def start (clients : Ptr) (heap : Heap QueueNode) : Server :=
  ⟨.start clients heap, fun _ => .start, []⟩

/-- Without the memory of the queue. -/
def directory (s : Server) : Directory := ⟨s.serving.pool, s.works, s.connections⟩

/-- Behind a step that leaves the queue alone. -/
def after (s : Server) (d : Directory) : Server :=
  ⟨{ s.serving with pool := d.pool }, d.works, d.connections⟩

@[simp] theorem after_directory (s : Server) (d : Directory) : (s.after d).directory = d := rfl

variable (c : Config) (spurious : Bool) (calls : Calls)

def step (s : Server) : DirectoryStep → Option Server
  | .pool a =>
      if Directory.plain s.serving.pool a then
        (s.serving.step c spurious a).map fun serving => { s with serving := serving }
      else none
  | a => (s.directory.step c spurious calls a).map s.after

variable {c spurious calls}

/-! ## Its two sides -/

variable {s t : Server} {a : DirectoryStep}

private theorem other_of_inPool {u : Serving} {b : Action} (ha : a.inQueue = false)
    (hb : a.inPool = some b) : u.step c spurious b = u.other c spurious b := by
  cases b with
  | accept _ | signal _ | signalNobody | worker _ | spurious _ => rfl
  | main | dequeue _ _ =>
      cases a with simp only [DirectoryStep.inPool, Option.some_inj, reduceCtorEq] at hb
      | pool b =>
          rw [hb] at ha
          cases ha

theorem step_of_not_inQueue (ha : a.inQueue = false) :
    s.step c spurious calls a = (s.directory.step c spurious calls a).map s.after := by
  cases a with
  | pool b =>
      rw [Server.step, other_of_inPool ha rfl]
      have hdirectory : s.directory.step c spurious calls (.pool b) =
          if Directory.plain s.serving.pool b then
            (Lab6.step c (.fifo spurious) s.serving.pool b).map fun pool =>
              ⟨pool, s.works, s.connections⟩
          else none := rfl
      rw [hdirectory]
      by_cases hplain : Directory.plain s.serving.pool b = true
      · rw [if_pos hplain, if_pos hplain, Serving.other, Option.map_map, Option.map_map]
        rfl
      · rw [if_neg hplain, if_neg hplain, Option.map_none]
  | connect _ | client _ | accept _ _ | call _ | serve _ _ | serveNone _ | finish _ | close _ _
  | closeNone _ => rfl

theorem step_inQueue (ha : a.inQueue = true) (h : s.step c spurious calls a = some t) :
    ∃ b serving, a = .pool b ∧ Directory.plain s.serving.pool b = true ∧
      s.serving.step c spurious b = some serving ∧ t = { s with serving := serving } := by
  cases a with
  | pool b =>
      rw [Server.step] at h
      split at h
      · next hplain =>
          obtain ⟨serving, hserving, rfl⟩ := Option.map_eq_some_iff.mp h
          exact ⟨b, serving, rfl, hplain, hserving, rfl⟩
      · cases h
  | connect _ | client _ | accept _ _ | call _ | serve _ _ | serveNone _ | finish _ | close _ _
  | closeNone _ => cases ha

theorem step_serving (h : s.step c spurious calls a = some t) :
    (∀ b, a.inPool = some b → s.serving.step c spurious b = some t.serving) ∧
      (a.inPool = none → t.serving = s.serving) := by
  cases ha : a.inQueue with
  | true =>
      obtain ⟨b, serving, rfl, -, hserving, rfl⟩ := step_inQueue ha h
      refine ⟨fun b' hb => ?_, fun hnone => by cases hnone⟩
      cases hb
      exact hserving
  | false =>
      rw [step_of_not_inQueue ha] at h
      obtain ⟨d, hd, rfl⟩ := Option.map_eq_some_iff.mp h
      obtain ⟨hsome, hnone⟩ := Directory.step_pool hd
      refine ⟨fun b hb => ?_, fun hb => ?_⟩
      · rw [other_of_inPool ha hb]
        exact Option.map_eq_some_iff.mpr ⟨d.pool, hsome b hb, rfl⟩
      · change { s.serving with pool := d.pool } = s.serving
        rw [hnone hb]
        rfl

theorem step_connection {conn : Connection} {k : Nat} (hk : s.connections[k]? = some conn)
    (h : s.step c spurious calls a = some t) :
    t.connections[k]? = some conn ∨ a = .client k ∨ conn.server = .backlog ∨
      ∃ fd, ∃ i : Nat, conn.server = .opened fd ∧ (s.serving.pool.workers[i]? = some (.work fd) ∨
        s.serving.pool.workers[i]? = some (.close fd)) := by
  cases ha : a.inQueue with
  | true =>
      obtain ⟨b, serving, -, -, -, rfl⟩ := step_inQueue ha h
      exact Or.inl hk
  | false =>
      rw [step_of_not_inQueue ha] at h
      obtain ⟨d, hd, rfl⟩ := Option.map_eq_some_iff.mp h
      exact Directory.step_connection (s := s.directory) hk hd

theorem step_client {conn : Connection} {k : Nat} (hk : s.connections[k]? = some conn)
    (h : s.step c spurious calls (.client k) = some t) :
    ∃ client rest sent,
      conn.client.step conn.toClient (conn.server = .closed) = some (client, rest, sent) ∧
      t = { s with connections := s.connections.set k { conn with
        client := client, toClient := rest, toServer := conn.toServer ++ sent } } := by
  rw [step_of_not_inQueue rfl] at h
  obtain ⟨d, hd, rfl⟩ := Option.map_eq_some_iff.mp h
  obtain ⟨conn', hk', hd⟩ := Option.bind_eq_some_iff.mp hd
  cases hk.symm.trans hk'
  obtain ⟨⟨client, rest, sent⟩, hmove, rfl⟩ := Option.map_eq_some_iff.mp hd
  exact ⟨client, rest, sent, hmove, rfl⟩

end Server

/-! ## The pool over the queue of the code -/

namespace Serving

variable {c : Config} {spurious : Bool} {s t : Serving} {held : Option Int}

theorem Accounted.apart (h : s.Accounted held) : Apart s.pool where
  nodup := h.nodup
  held _ hfd := h.opened.mem_iff.mpr (List.mem_append_right _ hfd)
  once := (List.nodup_append.mp (h.opened.nodup_iff.mp h.nodup)).2.1
  valid := by
    intro hmem
    have hnonneg := h.nonneg (-1) hmem
    omega

/-- A step in the queue moves `main`, or a worker that comes from `queue_dequeue`. -/
theorem step_cases {a : Action} (h : s.step c spurious a = some t) :
    Lab6.step c (.fifo spurious) s.pool a = some t.pool ∨
      t.pool = { s.pool with main := .unlock } ∨
      ∃ i client, s.pool.workers[i]? = some .dequeue ∧ t.pool = s.pool.goto i (.unlock client) := by
  have hother : s.other c spurious a = some t →
      Lab6.step c (.fifo spurious) s.pool a = some t.pool := by
    intro hother
    obtain ⟨pool, hpool, rfl⟩ := Option.map_eq_some_iff.mp hother
    exact hpool
  cases a with
  | main =>
      rw [Serving.step] at h
      split at h
      · rw [Serving.enqueue] at h
        split at h
        · cases h
          exact Or.inr (Or.inl rfl)
        · cases h
      · exact Or.inl (hother h)
  | dequeue i client =>
      rw [Serving.step] at h
      split at h
      · next hi =>
          rw [Serving.dequeue] at h
          split at h
          · split at h
            · cases h
              exact Or.inr (Or.inr ⟨i, _, hi, rfl⟩)
            · cases h
          · cases h
      · cases h
  | accept _ | signal _ | signalNobody | worker _ | spurious _ => exact Or.inl (hother h)

theorem quiet_of_plain {a : Action} (h : s.step c spurious a = some t)
    (hplain : Directory.plain s.pool a = true) : Quiet s.pool t.pool := by
  obtain hpool | hpool | ⟨i, client, hi, hpool⟩ := step_cases h
  · exact Lab6.quiet_of_plain hpool hplain
  · rw [hpool]
    exact ⟨fun _ _ _ => Iff.rfl, rfl⟩
  · rw [hpool]
    refine ⟨fun q hq j => getElem?_set_busy hi ?_ ?_, rfl⟩
    · rintro rfl
      cases hq
    · rintro rfl
      cases hq

end Serving

/-! ## Whole runs -/

namespace Server

variable {c : Config} {spurious : Bool} {opendir : List Char → Option (List (List Char))}
  {s t : Server} {clients : Ptr} {heap : Heap QueueNode}

structure Sound (opendir : List Char → Option (List (List Char))) (s : Server) : Prop where
  serving : ∃ held, s.serving.Accounted held
  directory : s.directory.Sound opendir

theorem Sound.start (hinit : queueInit (Heap.empty fun _ => true) = .ok (clients, heap)) :
    (start clients heap).Sound opendir :=
  ⟨⟨none, .start hinit⟩, Directory.Sound.start⟩

theorem Sound.step {a : DirectoryStep} (hnames : PlainNames opendir) (hs : s.Sound opendir)
    (h : s.step c spurious (.zeroed opendir) a = some t) : t.Sound opendir := by
  obtain ⟨held, hserving⟩ := hs.serving
  obtain ⟨hsome, hnone⟩ := step_serving h
  have hserving' : ∃ held, t.serving.Accounted held := by
    cases ha : a.inPool with
    | none => exact ⟨held, (hnone ha).symm ▸ hserving⟩
    | some b => exact hserving.step (hsome b ha)
  refine ⟨hserving', ?_⟩
  obtain ⟨held', haccounted⟩ := hserving'
  cases ha : a.inQueue with
  | true =>
      obtain ⟨b, serving, -, hplain, hstep, rfl⟩ := step_inQueue ha h
      exact hs.directory.quiet haccounted.apart (Serving.quiet_of_plain hstep hplain)
  | false =>
      rw [step_of_not_inQueue ha] at h
      obtain ⟨d, hd, rfl⟩ := Option.map_eq_some_iff.mp h
      exact hs.directory.step hnames haccounted.apart hd

theorem Sound.of_reachable (hnames : PlainNames opendir)
    (hinit : queueInit (Heap.empty fun _ => true) = .ok (clients, heap))
    (h : Reachable (Server.step c spurious (.zeroed opendir)) (Server.start clients heap) s) :
    s.Sound opendir :=
  h.invariant (fun _ _ _ hs hstep => hs.step hnames hstep) (.start hinit)

end Server

end SyssoftLabs.Lab6
