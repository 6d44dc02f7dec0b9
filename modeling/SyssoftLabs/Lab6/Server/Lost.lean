import SyssoftLabs.Framework.LiveCells
import SyssoftLabs.Lab6.Queue
import SyssoftLabs.Lab6.Server.Service

/-!
# The pool over the queue of the code

The worker pool with `queue_enqueue` and `queue_dequeue` themselves in place of a correct queue,
each of them one step. No allocation fails. The server runs all the time: no `accept` fails and no
signal comes, either of which would end it by `cleanup`.
-/

namespace SyssoftLabs.Lab6

open SyssoftLabs.Framework

/-- The pool, whose own list of clients stays empty, and the memory of the queue. -/
structure Serving where
  pool : Pool
  heap : Heap QueueNode
  clients : Ptr
  /-- The clients `queue_dequeue` has returned, each with the worker, kept for the statements. -/
  got : List (Nat × Int)
  /-- The clients enqueued behind another one, kept for the statements. -/
  behind : List Int

namespace Serving

/-- After `queue_init`. -/
def start (clients : Ptr) (heap : Heap QueueNode) : Serving := ⟨.init, heap, clients, [], []⟩

/-- `queue_enqueue` takes its second branch. -/
def occupied (s : Serving) : Bool :=
  (s.clients.bind s.heap.cell).any fun header => header.tail.isSome

/-- Behind `queue_enqueue` of `main`. -/
def enqueued (s : Serving) (fd : Int) (heap : Heap QueueNode) : Serving :=
  { s with
    pool := { s.pool with main := .unlock }
    heap := heap
    behind := if s.occupied then s.behind ++ [fd] else s.behind }

/-- Behind `queue_dequeue` of a worker. -/
def dequeued (s : Serving) (i : Nat) (client : Int) (heap : Heap QueueNode) : Serving :=
  { s with
    pool := s.pool.goto i (.unlock client)
    heap := heap
    got := if client = -1 then s.got else s.got ++ [(i, client)] }

def enqueue (s : Serving) (fd : Int) : Option Serving :=
  match queueEnqueue s.clients fd s.heap with
  | .ok ((), heap) => some (s.enqueued fd heap)
  | .error _ => none

def dequeue (s : Serving) (i : Nat) (client : Int) : Option Serving :=
  match queueDequeue s.clients s.heap with
  | .ok (e, heap) => if e = client then some (s.dequeued i e heap) else none
  | .error _ => none

variable (c : Config) (spurious : Bool)

def other (s : Serving) (a : Action) : Option Serving :=
  (Lab6.step c (.fifo spurious) s.pool a).map fun pool => { s with pool := pool }

def step (s : Serving) : Action → Option Serving
  | .main =>
      match s.pool.main with
      | .enqueue fd => s.enqueue fd
      | _ => s.other c spurious .main
  | .dequeue i client =>
      if s.pool.workers[i]? = some .dequeue then s.dequeue i client else none
  | a => s.other c spurious a

end Serving

/-! ## The memory of the queue -/

private theorem queueInit_adds : Adds 1 queueInit := by
  unfold queueInit
  apply (Adds.malloc _).before
  intro q
  apply Adds.ite (Adds.pure _)
  apply (Adds.store _ _).after
  intro _
  apply (Adds.store _ _).after
  intro _
  exact Adds.pure _

private theorem queueEnqueue_adds (q : Nat) (e : Int) : Adds 1 (queueEnqueue (some q) e) := by
  unfold queueEnqueue
  simp only [reduceCtorEq, if_false]
  apply (Adds.load _).after
  intro header
  apply Adds.ite
  · apply queueInit_adds.before
    intro node
    apply (Adds.store _ _).after
    intro _
    apply (Adds.store _ _).after
    intro _
    apply (Adds.load _).after
    intro header
    apply Adds.ite (Adds.pure _)
    apply (Adds.load _).after
    intro header
    apply (Adds.store _ _).after
    intro _
    exact Adds.pure _
  · apply queueInit_adds.before
    intro node
    apply (Adds.load _).after
    intro header
    apply (Adds.store _ _).after
    intro _
    apply (Adds.load _).after
    intro header
    apply (Adds.load _).after
    intro last
    apply (Adds.store _ _).after
    intro _
    apply (Adds.load _).after
    intro header
    apply (Adds.load _).after
    intro last
    exact Adds.store _ _

private theorem queueDequeue_card {h h' : Heap QueueNode} {q : Nat} {s : Option Int} {e : Int}
    (hg : h.Grants) (hs : Holds h q s) (hrun : queueDequeue (some q) h = .ok (e, h')) :
    h'.live.card + s.toList.length = h.live.card := by
  unfold queueDequeue at hrun
  simp only [reduceCtorEq, if_false] at hrun
  cases s with
  | none =>
      obtain ⟨x, hq⟩ := hs
      rw [bind_ok (load_live hq)] at hrun
      cases hrun
      rfl
  | some v =>
      obtain ⟨a, b, x, t, y, hq, ha, hb, haq, hbq⟩ := hs
      rw [bind_ok (load_live hq)] at hrun
      simp only [reduceCtorEq, if_false] at hrun
      rw [bind_ok (load_live hq), bind_ok (load_live ha)] at hrun
      dsimp only at hrun
      rw [bind_ok (load_live hq), bind_ok (load_live ha), bind_ok (load_live hq),
        bind_ok (free_live ha)] at hrun
      have hfreed : ∀ rest : HeapM QueueNode Int, Adds 0 rest →
          rest (h.erase a) = .ok (e, h') → h'.live.card + 1 = h.live.card := by
        intro rest hrest hend
        have hgrants : (h.erase a).Grants := hg
        have hcard := (hrest hgrants hend).2
        have herase := Heap.erase_card ha
        omega
      refine hfreed _ ?_ hrun
      apply (Adds.store _ _).after
      intro _
      apply (Adds.load _).after
      intro header
      apply Adds.ite
      · apply (Adds.store _ _).after
        intro _
        exact Adds.pure _
      · exact Adds.pure _

/-! ## Where the clients are -/

/-- Every client that was accepted is with `main`, has left the queue, is the one that the queue
returns next, or was enqueued behind another one. -/
structure Serving.Accounted (s : Serving) (held : Option Int) : Prop where
  queue : ∃ q, s.clients = some q ∧ Holds s.heap q held
  accepted : s.pool.accepted.Perm
    (s.pool.main.hand ++ held.toList ++ s.behind ++ s.got.map Prod.snd)
  opened : s.pool.opened.Perm
    (s.pool.main.hand ++ held.toList ++ s.behind ++ s.pool.workers.flatMap WorkerPc.holds)
  nodup : s.pool.opened.Nodup
  nonneg : ∀ fd ∈ s.pool.opened, 0 ≤ fd
  grants : s.heap.Grants
  nodes : s.heap.live.card = 1 + held.toList.length + s.behind.length

/-- What a step of the pool that does not touch the queue does to the descriptors. -/
inductive Touches (s t : Pool) : Prop
  | nothing (accepted : t.accepted = s.accepted) (hand : t.main.hand = s.main.hand)
      (opened : t.opened = s.opened)
      (holds : (t.workers.flatMap WorkerPc.holds).Perm (s.workers.flatMap WorkerPc.holds))
  | accept {fd : Int} (nonneg : 0 ≤ fd) (new : fd ∉ s.opened) (empty : s.main.hand = [])
      (accepted : t.accepted = s.accepted ++ [fd]) (hand : t.main.hand = [fd])
      (opened : t.opened = s.opened ++ [fd]) (workers : t.workers = s.workers)
  | close {d : Int} (accepted : t.accepted = s.accepted) (hand : t.main.hand = s.main.hand)
      (opened : t.opened = s.opened.erase d)
      (holds : ((if d = -1 then [] else [d]) ++ t.workers.flatMap WorkerPc.holds).Perm
        (s.workers.flatMap WorkerPc.holds))

private theorem touches_of_move {c : Config} {b : Bool} {s t : Pool} {a : Action}
    (h : Move c (.fifo b) s a t) (hmain : a = .main → ∀ fd, s.main ≠ .enqueue fd)
    (hdequeue : ∀ i client, a ≠ .dequeue i client) : Touches s t := by
  have hgoto : ∀ {i : Nat} {pc pc' : WorkerPc}, s.workers[i]? = some pc → pc'.holds = pc.holds →
      ((s.workers.set i pc').flatMap WorkerPc.holds).Perm (s.workers.flatMap WorkerPc.holds) := by
    intro i pc pc' hi hsame
    have hperm := flatMap_set_perm (b := pc') WorkerPc.holds hi
    rw [hsame] at hperm
    exact (List.perm_append_right_iff _).mp hperm
  cases h with
  | create hm _ | spawn hm =>
      refine .nothing rfl (by rw [hm]; rfl) rfl ?_
      simp [WorkerPc.holds]
  | setPool hm _ | unlock hm | serviceNone hm _ | serviceSome hm _ | grow hm _ | growFull hm _
  | lock hm _ => exact .nothing rfl (by rw [hm]; rfl) rfl (List.Perm.refl _)
  | enqueue hm => exact absurd hm (hmain rfl _)
  | accept hm hfd hnew => exact .accept hfd hnew (by rw [hm]; rfl) rfl rfl rfl rfl
  | signal hm hi =>
      refine .nothing rfl ?_ rfl (hgoto hi rfl)
      cases hmain : s.main <;> rw [hmain] at hm <;> cases hm <;> rfl
  | signalNobody hm _ =>
      refine .nothing rfl ?_ rfl (List.Perm.refl _)
      cases hmain : s.main <;> rw [hmain] at hm <;> cases hm <;> rfl
  | dequeueEmpty _ _ | dequeueAny _ _ | dequeue _ _ => exact absurd rfl (hdequeue _ _)
  | close hi =>
      have hperm := flatMap_set_perm (b := .start) WorkerPc.holds hi
      simp only [WorkerPc.holds, List.append_nil] at hperm
      exact .close rfl rfl rfl (List.perm_append_comm.trans hperm)
  | start hi | callWait hi | wake hi _ | workerUnlock hi | retire hi _ | keep hi _ | serve hi _
  | unfree hi | work hi | leave hi | spurious _ hi =>
      exact .nothing rfl rfl rfl (hgoto hi rfl)

namespace Serving

variable {c : Config} {b : Bool} {s t : Serving} {held : Option Int}

theorem Accounted.occupied (h : s.Accounted held) : s.occupied = held.isSome := by
  obtain ⟨q, hq, hholds⟩ := h.queue
  cases held with
  | none =>
      obtain ⟨x, hcell⟩ := hholds
      simp [Serving.occupied, hq, hcell]
  | some v =>
      obtain ⟨a, b, x, t, y, hcell, -⟩ := hholds
      simp [Serving.occupied, hq, hcell]

/-- An element behind another one is not kept by the queue, but its node is. -/
theorem Accounted.enqueue {fd : Int} (h : s.Accounted held) (hmain : s.pool.main = .enqueue fd) :
    ∃ t, s.enqueue fd = some t ∧ t.Accounted (held.or (some fd)) := by
  obtain ⟨q, hq, hholds⟩ := h.queue
  obtain ⟨heap, hrun, -, -, hholds'⟩ := queueEnqueue_holds fd (h.grants _) hholds
  obtain ⟨hgrants, hcard⟩ := queueEnqueue_adds q fd h.grants hrun
  have hoccupied := h.occupied
  have haccepted := h.accepted
  have hopened := h.opened
  have hnodes := h.nodes
  rw [hmain] at haccepted hopened
  rw [← hq] at hrun
  refine ⟨s.enqueued fd heap, by rw [Serving.enqueue, hrun], ⟨q, hq, hholds'⟩, ?_, ?_, h.nodup,
    h.nonneg, hgrants, ?_⟩
  · refine haccepted.trans (List.perm_iff_count.mpr fun x => ?_)
    cases held with
    | none => simp [MainPc.hand, enqueued, hoccupied]
    | some v =>
        simp only [MainPc.hand, enqueued, hoccupied, Option.isSome_some, if_true, Option.or_some,
          Option.getD_some, List.count_append, List.count_nil]
        omega
  · refine hopened.trans (List.perm_iff_count.mpr fun x => ?_)
    cases held with
    | none => simp [MainPc.hand, enqueued, hoccupied]
    | some v =>
        simp only [MainPc.hand, enqueued, hoccupied, Option.isSome_some, if_true, Option.or_some,
          Option.getD_some, List.count_append, List.count_nil]
        omega
  · cases held with
    | none =>
        simp [enqueued, hoccupied] at hnodes ⊢
        omega
    | some v =>
        simp [enqueued, hoccupied] at hnodes ⊢
        omega

theorem Accounted.dequeue {i : Nat} (h : s.Accounted held)
    (hi : s.pool.workers[i]? = some .dequeue) :
    ∃ heap, queueDequeue s.clients s.heap = .ok (held.getD (-1), heap) ∧
      (s.dequeued i (held.getD (-1)) heap).Accounted none := by
  obtain ⟨q, hq, hholds⟩ := h.queue
  obtain ⟨heap, hrun, hgrants, -, hholds'⟩ := queueDequeue_holds hholds
  have hcard := queueDequeue_card h.grants hholds hrun
  have haccepted := h.accepted
  have hopened := h.opened
  have hnodes := h.nodes
  have hperm := flatMap_set_perm (b := .unlock (held.getD (-1))) WorkerPc.holds hi
  refine ⟨heap, hq ▸ hrun, ⟨q, hq, hholds'⟩, ?_, ?_, h.nodup, h.nonneg,
    fun n => (congrFun hgrants n).trans (h.grants n), ?_⟩
  · refine haccepted.trans (List.perm_iff_count.mpr fun x => ?_)
    cases held with
    | none => simp [dequeued, Pool.goto]
    | some v =>
        have hne : v ≠ -1 := by
          have hnonneg := h.nonneg v (hopened.mem_iff.mpr (by simp))
          omega
        simp only [dequeued, Pool.goto, Option.getD_some, if_neg hne, List.map_append,
          List.map_cons, List.map_nil, Option.toList_some, Option.toList_none, List.count_append,
          List.count_nil]
        omega
  · refine hopened.trans (List.perm_iff_count.mpr fun x => ?_)
    have hcount := hperm.count_eq x
    cases held with
    | none =>
        simp [WorkerPc.holds] at hcount
        simp [dequeued, Pool.goto, hcount]
    | some v =>
        have hne : v ≠ -1 := by
          have hnonneg := h.nonneg v (hopened.mem_iff.mpr (by simp))
          omega
        simp only [WorkerPc.holds, Option.getD_some, if_neg hne, List.append_nil,
          List.count_append] at hcount
        simp only [dequeued, Pool.goto, Option.getD_some, Option.toList_some, Option.toList_none,
          List.count_append, List.count_nil, hcount]
        omega
  · cases held with
    | none =>
        simp [dequeued] at hnodes hcard ⊢
        omega
    | some v =>
        simp [dequeued] at hnodes hcard ⊢
        omega

theorem Accounted.other {a : Action} (h : s.Accounted held) (ht : s.other c b a = some t)
    (hmain : a = .main → ∀ fd, s.pool.main ≠ .enqueue fd)
    (hdequeue : ∀ i client, a ≠ .dequeue i client) :
    t.Accounted held := by
  obtain ⟨pool, hpool, rfl⟩ := Option.map_eq_some_iff.mp ht
  have haccepted := h.accepted
  have hopened := h.opened
  cases touches_of_move (step_move hpool) hmain hdequeue with
  | nothing hacc hhand hopen hholds =>
      refine ⟨h.queue, ?_, ?_, ?_, ?_, h.grants, h.nodes⟩
      · rw [hacc, hhand]
        exact haccepted
      · rw [hopen, hhand]
        exact hopened.trans (hholds.symm.append_left _)
      · rw [hopen]
        exact h.nodup
      · rw [hopen]
        exact h.nonneg
  | @accept fd hfd hnew hempty hacc hhand hopen hworkers =>
      rw [hempty] at haccepted hopened
      refine ⟨h.queue, ?_, ?_, ?_, ?_, h.grants, h.nodes⟩
      · rw [hacc, hhand]
        exact List.perm_append_comm.trans (haccepted.append_left [fd])
      · rw [hopen, hhand, hworkers]
        exact List.perm_append_comm.trans (hopened.append_left [fd])
      · rw [hopen]
        exact List.nodup_append_comm.mp (List.nodup_cons.mpr ⟨hnew, h.nodup⟩)
      · rw [hopen]
        intro x hx
        rcases List.mem_append.mp hx with hx | hx
        · exact h.nonneg x hx
        · rw [List.mem_singleton.mp hx]
          exact hfd
  | @close d hacc hhand hopen hholds =>
      refine ⟨h.queue, ?_, ?_, ?_, ?_, h.grants, h.nodes⟩
      · rw [hacc, hhand]
        exact haccepted
      · rw [hopen, hhand]
        by_cases hd : d = -1
        · rw [if_pos hd] at hholds
          rw [List.erase_of_not_mem]
          · exact hopened.trans (hholds.symm.append_left _)
          · intro hmem
            have hnonneg := h.nonneg d hmem
            omega
        · rw [if_neg hd] at hholds
          have hfront : s.pool.opened.Perm (d :: (s.pool.main.hand ++ held.toList ++ s.behind ++
              pool.workers.flatMap WorkerPc.holds)) :=
            (hopened.trans (hholds.symm.append_left _)).trans List.perm_middle
          have herase := hfront.erase d
          rwa [List.erase_cons_head] at herase
      · rw [hopen]
        exact h.nodup.erase d
      · rw [hopen]
        exact fun x hx => h.nonneg x (List.mem_of_mem_erase hx)

theorem Accounted.start {clients : Ptr} {heap : Heap QueueNode}
    (hinit : queueInit (Heap.empty fun _ => true) = .ok (clients, heap)) :
    (start clients heap).Accounted none := by
  have hgrants : (Heap.empty fun _ => true : Heap QueueNode).Grants := fun _ => rfl
  obtain ⟨hgrants', hcard⟩ := queueInit_adds hgrants hinit
  obtain ⟨heap', hrun, -, -, hcell⟩ := queueInit_granted (hgrants 0)
  have hqueue : Holds heap' 0 none := ⟨none, by rw [hcell]; rfl⟩
  cases hrun.symm.trans hinit
  refine ⟨⟨0, rfl, hqueue⟩, List.Perm.refl _, List.Perm.refl _, List.nodup_nil, ?_, hgrants', hcard⟩
  intro fd hfd
  cases hfd

theorem Accounted.step {a : Action} (h : s.Accounted held) (ht : s.step c b a = some t) :
    ∃ held', t.Accounted held' := by
  cases a with
  | main =>
      rw [Serving.step] at ht
      split at ht
      · next fd hmain =>
          obtain ⟨u, hu, haccounted⟩ := h.enqueue hmain
          cases ht.symm.trans hu
          exact ⟨_, haccounted⟩
      · next hmain => exact ⟨held, h.other ht (fun _ => hmain) (by simp)⟩
  | dequeue i client =>
      rw [Serving.step] at ht
      split at ht
      · next hi =>
          obtain ⟨heap, hrun, haccounted⟩ := h.dequeue hi
          rw [Serving.dequeue, hrun] at ht
          dsimp only at ht
          split at ht
          · cases ht
            exact ⟨none, haccounted⟩
          · cases ht
      · cases ht
  | accept _ | signal _ | signalNobody | worker _ | spurious _ =>
      exact ⟨held, h.other ht (by simp) (by simp)⟩

theorem Accounted.of_reachable {clients : Ptr} {heap : Heap QueueNode}
    (hinit : queueInit (Heap.empty fun _ => true) = .ok (clients, heap))
    (h : Reachable (Serving.step c b) (Serving.start clients heap) s) :
    ∃ held, s.Accounted held := by
  apply h.invariant (I := fun s => ∃ held, s.Accounted held)
  · rintro s a t ⟨held, hs⟩ hstep
    exact hs.step hstep
  · exact ⟨none, .start hinit⟩

/-- The queue loses every client that is enqueued while it has another one: of the clients that were
accepted, `main` has one at most, the workers have got those that `queue_dequeue` has returned, the
next call returns one at most, and the others stay open without being in the queue. Each of these
also leaves a node behind. No call of the two faults. -/
theorem clients_accounted {clients : Ptr} {heap : Heap QueueNode}
    (hinit : queueInit (Heap.empty fun _ => true) = .ok (clients, heap))
    (h : Reachable (Serving.step c b) (Serving.start clients heap) s) :
    ∃ held : Option Int,
      (∃ after, queueDequeue s.clients s.heap = .ok (held.getD (-1), after)) ∧
      (∀ fd, ∃ after, queueEnqueue s.clients fd s.heap = .ok ((), after)) ∧
      s.pool.accepted.Perm
        (s.pool.main.hand ++ held.toList ++ s.behind ++ s.got.map Prod.snd) ∧
      s.pool.opened.Perm
        (s.pool.main.hand ++ held.toList ++ s.behind ++ s.pool.workers.flatMap WorkerPc.holds) ∧
      s.pool.opened.Nodup ∧
      s.heap.live.card = 1 + held.toList.length + s.behind.length := by
  obtain ⟨held, hs⟩ := Accounted.of_reachable hinit h
  obtain ⟨q, hq, hholds⟩ := hs.queue
  obtain ⟨after, hrun, -⟩ := queueDequeue_holds hholds
  refine ⟨held, ⟨after, hq ▸ hrun⟩, fun fd => ?_, hs.accepted, hs.opened, hs.nodup, hs.nodes⟩
  obtain ⟨after', hrun', -⟩ := queueEnqueue_holds fd (hs.grants _) hholds
  exact ⟨after', hq ▸ hrun'⟩

/-- Client 5 is enqueued while no worker has taken client 4 yet. -/
def secondClient : List Action :=
  [.main, .main, .accept 4, .main, .main, .main, .main, .main, .signalNobody, .signalNobody,
    .accept 5, .main, .main]

/-- The only worker takes client 4 then. -/
def firstServed : List Action :=
  [.main, .main, .main, .worker 0, .worker 0, .signal 0, .worker 0, .dequeue 0 4, .worker 0,
    .worker 0, .worker 0]

private theorem exists_secondClient : ∃ clients heap s t,
    queueInit (Heap.empty fun _ => true) = .ok (clients, heap) ∧
    run (Serving.step ⟨1, 1, by decide, by decide, by decide⟩ false) (Serving.start clients heap)
      secondClient = some s ∧
    run (Serving.step ⟨1, 1, by decide, by decide, by decide⟩ false) s firstServed = some t ∧
    s.behind = [5] ∧ t.got = [(0, 4)] := by
  have hrun : (match queueInit (Heap.empty fun _ => true) with
      | .ok (clients, heap) =>
          (run (Serving.step ⟨1, 1, by decide, by decide, by decide⟩ false)
            (Serving.start clients heap) secondClient).bind fun s =>
              (run (Serving.step ⟨1, 1, by decide, by decide, by decide⟩ false) s firstServed).map
                fun t => (s.behind, t.got)
      | .error _ => none) = some ([5], [(0, 4)]) := by decide +kernel
  split at hrun
  · next clients heap hinit =>
      obtain ⟨s, hs, hrest⟩ := Option.bind_eq_some_iff.mp hrun
      obtain ⟨t, ht, heq⟩ := Option.map_eq_some_iff.mp hrest
      rw [Prod.mk.injEq] at heq
      exact ⟨clients, heap, s, t, hinit, hs, ht, heq.1, heq.2⟩
  · cases hrun

theorem clients_accounted_second : ∃ s : Serving, s.behind = [5] ∧ ∃ held : Option Int,
    (∃ after, queueDequeue s.clients s.heap = .ok (held.getD (-1), after)) ∧
    (∀ fd, ∃ after, queueEnqueue s.clients fd s.heap = .ok ((), after)) ∧
    s.pool.accepted.Perm (s.pool.main.hand ++ held.toList ++ s.behind ++ s.got.map Prod.snd) ∧
    s.pool.opened.Perm
      (s.pool.main.hand ++ held.toList ++ s.behind ++ s.pool.workers.flatMap WorkerPc.holds) ∧
    s.pool.opened.Nodup ∧ s.heap.live.card = 1 + held.toList.length + s.behind.length := by
  obtain ⟨clients, heap, s, t, hinit, hs, -, hbehind, -⟩ := exists_secondClient
  exact ⟨s, hbehind, clients_accounted hinit ⟨_, hs⟩⟩

/-! ## Lost for good -/

private theorem called_of_move {s t : Pool} {a : Action} (h : Move c (.fifo b) s a t) :
    (t.worked = s.worked ∨ ∃ i d, s.workers[i]? = some (.unfree d) ∧
        t.worked = s.worked ++ [(i, d)]) ∧
      (t.closed = s.closed ∨ ∃ i d, s.workers[i]? = some (.close d) ∧
        t.closed = s.closed ++ [(i, d)]) := by
  cases h with
  | unfree hi => exact ⟨Or.inr ⟨_, _, hi, rfl⟩, Or.inl rfl⟩
  | close hi => exact ⟨Or.inl rfl, Or.inr ⟨_, _, hi, rfl⟩⟩
  | create _ _ | setPool _ _ | lock _ _ | enqueue _ | unlock _ | serviceNone _ _ | serviceSome _ _
  | grow _ _ | growFull _ _ | spawn _ | accept _ _ _ | signal _ _ | signalNobody _ _ | start _
  | callWait _ | wake _ _ | dequeueEmpty _ _ | dequeueAny _ _ | dequeue _ _ | workerUnlock _
  | retire _ _ | keep _ _ | serve _ _ | work _ | leave _ | spurious _ _ =>
      exact ⟨Or.inl rfl, Or.inl rfl⟩

theorem Accounted.behind_opened {fd : Int} (h : s.Accounted held) (hfd : fd ∈ s.behind) :
    fd ∈ s.pool.opened := by
  rw [h.opened.mem_iff]
  simp [hfd]

theorem Accounted.behind_notHeld {fd : Int} {pc : WorkerPc} (h : s.Accounted held)
    (hfd : fd ∈ s.behind) (hpc : pc ∈ s.pool.workers) : fd ∉ pc.holds := by
  intro hholds
  have hnodup := h.opened.nodup_iff.mp h.nodup
  rw [List.nodup_append] at hnodup
  exact hnodup.2.2 fd (by simp [hfd]) fd (List.mem_flatMap.mpr ⟨pc, hpc, hholds⟩) rfl

private theorem count_concat_ne (l : List (Nat × Int)) {i j : Nat} {d fd : Int} (h : d ≠ fd) :
    (l ++ [(i, d)]).count (j, fd) = l.count (j, fd) := by
  rw [List.count_append, List.count_cons_of_ne (by simp [h])]
  rfl

/-- The calls on a descriptor are as many as before, and it is still behind. -/
structure Left (s : Serving) (fd : Int) (t : Serving) : Prop where
  behind : fd ∈ t.behind
  worked : ∀ i, t.pool.worked.count (i, fd) = s.pool.worked.count (i, fd)
  closed : ∀ i, t.pool.closed.count (i, fd) = s.pool.closed.count (i, fd)

theorem Left.step {u : Serving} {fd : Int} {a : Action} (ht : t.Accounted held) (hl : s.Left fd t)
    (hu : t.step c b a = some u) : s.Left fd u := by
  have hother : ∀ {a : Action}, t.other c b a = some u → s.Left fd u := by
    intro a hu
    obtain ⟨pool, hpool, rfl⟩ := Option.map_eq_some_iff.mp hu
    have hne : ∀ {i : Nat} {d : Int} {pc : WorkerPc}, t.pool.workers[i]? = some pc →
        pc.holds = (if d = -1 then [] else [d]) → d ≠ fd := by
      rintro i d pc hi hholds rfl
      have hnonneg := ht.nonneg d (ht.behind_opened hl.behind)
      apply ht.behind_notHeld hl.behind (List.mem_of_getElem? hi)
      rw [hholds, if_neg (by omega)]
      exact List.mem_singleton_self d
    obtain ⟨hworked, hclosed⟩ := called_of_move (step_move hpool)
    refine ⟨hl.behind, fun j => ?_, fun j => ?_⟩
    · rcases hworked with hsame | ⟨i, d, hi, hnew⟩
      · rw [hsame]
        exact hl.worked j
      · have hd := hne (d := d) hi rfl
        rw [hnew, count_concat_ne _ hd]
        exact hl.worked j
    · rcases hclosed with hsame | ⟨i, d, hi, hnew⟩
      · rw [hsame]
        exact hl.closed j
      · have hd := hne (d := d) hi rfl
        rw [hnew, count_concat_ne _ hd]
        exact hl.closed j
  cases a with
  | main =>
      rw [Serving.step] at hu
      split at hu
      · next d hmain =>
          rw [Serving.enqueue] at hu
          split at hu
          · cases hu
            refine ⟨?_, hl.worked, hl.closed⟩
            rw [enqueued]
            split
            · exact List.mem_append_left _ hl.behind
            · exact hl.behind
          · cases hu
      · exact hother hu
  | dequeue i client =>
      rw [Serving.step] at hu
      split at hu
      · rw [Serving.dequeue] at hu
        split at hu
        · split at hu
          · cases hu
            exact ⟨hl.behind, hl.worked, hl.closed⟩
          · cases hu
        · cases hu
      · cases hu
  | accept _ | signal _ | signalNobody | worker _ | spurious _ => exact hother hu

/-- While the server runs, a client enqueued behind another one is never served and never closed,
whatever else happens, and its descriptor is never free again. -/
theorem behind_is_lost {clients : Ptr} {heap : Heap QueueNode} {fd : Int}
    (hinit : queueInit (Heap.empty fun _ => true) = .ok (clients, heap))
    (hs : Reachable (Serving.step c b) (Serving.start clients heap) s) (hfd : fd ∈ s.behind)
    (ht : Reachable (Serving.step c b) s t) :
    fd ∈ t.pool.opened ∧
      ∀ i, t.pool.worked.count (i, fd) = s.pool.worked.count (i, fd) ∧
        t.pool.closed.count (i, fd) = s.pool.closed.count (i, fd) := by
  have hsound : (∃ held, t.Accounted held) ∧ s.Left fd t := by
    apply ht.invariant (I := fun t => (∃ held, t.Accounted held) ∧ s.Left fd t)
    · rintro t a u ⟨⟨held, hacc⟩, hleft⟩ hstep
      exact ⟨hacc.step hstep, hleft.step hacc hstep⟩
    · exact ⟨Accounted.of_reachable hinit hs, hfd, fun _ => rfl, fun _ => rfl⟩
  obtain ⟨⟨held, hacc⟩, hleft⟩ := hsound
  exact ⟨hacc.behind_opened hleft.behind, fun i => ⟨hleft.worked i, hleft.closed i⟩⟩

theorem behind_is_lost_second : ∃ s t : Serving, s.behind = [5] ∧ t.got = [(0, 4)] ∧
    5 ∈ t.pool.opened ∧
      ∀ i, t.pool.worked.count (i, 5) = s.pool.worked.count (i, 5) ∧
        t.pool.closed.count (i, 5) = s.pool.closed.count (i, 5) := by
  obtain ⟨clients, heap, s, t, hinit, hs, ht, hbehind, hgot⟩ := exists_secondClient
  exact ⟨s, t, hbehind, hgot,
    behind_is_lost hinit ⟨_, hs⟩ (by rw [hbehind]; exact List.mem_singleton_self 5)
      ⟨_, ht⟩⟩

end Serving

end SyssoftLabs.Lab6
