import Mathlib.Data.List.Count
import SyssoftLabs.Lab6.Server.Pool

/-!
# Who serves a connection

The queue is a FIFO list here. Every client taken from it goes to one worker, which serves and
closes it once. A worker that was woken for nothing and is kept calls `do_work(-1)`.
-/

namespace SyssoftLabs.Lab6

open SyssoftLabs.Framework

/-- The descriptor `main` has accepted and not enqueued yet. -/
def MainPc.hand : MainPc → List Int
  | .lock fd | .enqueue fd => [fd]
  | _ => []

/-- The worker has taken the client and not called `do_work` yet. -/
def WorkerPc.carries (client : Int) : WorkerPc → Nat
  | .unlock d | .test d | .unfree d => if d = client then 1 else 0
  | _ => 0

/-- The worker is in `do_work(client)` or before `close(client)`. -/
def WorkerPc.serves (client : Int) : WorkerPc → Nat
  | .work d | .close d => if d = client then 1 else 0
  | _ => 0

/-- The descriptors a worker holds, from the removal to the `close`. -/
def WorkerPc.holds : WorkerPc → List Int
  | .unlock d | .test d | .unfree d | .work d | .close d => if d = -1 then [] else [d]
  | _ => []

/-- A number read off worker `i`, zero when there is none. -/
def Pool.read (s : Pool) (f : WorkerPc → Nat) (i : Nat) : Nat := (s.workers[i]?).elim 0 f

private theorem read_goto {s : Pool} {f : WorkerPc → Nat} {i j : Nat} {pc pc' : WorkerPc}
    (hj : s.workers[j]? = some pc) :
    (s.goto j pc').read f i = if i = j then f pc' else s.read f i := by
  by_cases hij : i = j
  · subst hij
    simp [Pool.read, Pool.goto, (List.getElem?_eq_some_iff.mp hj).1]
  · simp [Pool.read, Pool.goto, hij, List.getElem?_set_ne (Ne.symm hij)]

private theorem read_goto_same {s : Pool} {f : WorkerPc → Nat} {i j : Nat} {pc : WorkerPc}
    (pc' : WorkerPc) (hj : s.workers[j]? = some pc) (hf : f pc' = f pc) :
    (s.goto j pc').read f i = s.read f i := by
  rw [read_goto hj]
  by_cases hij : i = j
  · subst hij
    simp [Pool.read, hj, hf]
  · rw [if_neg hij]

private theorem read_spawn {s t : Pool} {f : WorkerPc → Nat} {i : Nat} (hf : f .start = 0)
    (ht : t.workers = s.workers ++ [.start]) : t.read f i = s.read f i := by
  rw [Pool.read, Pool.read, ht, List.getElem?_append]
  split
  · rfl
  · next hi =>
      rw [List.getElem?_eq_none (Nat.not_lt.mp hi)]
      cases hz : ([WorkerPc.start])[i - s.workers.length]? with
      | none => rfl
      | some pc =>
          obtain rfl : pc = .start := by simpa using List.mem_of_getElem? hz
          exact hf

/-- The queue hands the accepted descriptors out in the order in which they came. -/
structure InOrder (s : Pool) : Prop where
  accepted : s.accepted = s.taken.map Prod.snd ++ s.clients ++ s.main.hand
  nonneg : ∀ fd ∈ s.accepted, 0 ≤ fd

private theorem inOrder_step {c : Config} {b : Bool} {s t : Pool} {a : Action}
    (h : Move c (.fifo b) s a t) (hs : InOrder s) : InOrder t := by
  have hacc := hs.accepted
  cases h with
  | create hm _ | setPool hm _ | unlock hm | serviceNone hm _ | serviceSome hm _ | grow hm _
  | growFull hm _ | spawn hm =>
      rw [hm] at hacc
      exact ⟨hacc, hs.nonneg⟩
  | lock hm _ =>
      rw [hm] at hacc
      exact ⟨hacc, hs.nonneg⟩
  | enqueue hm =>
      rw [hm] at hacc
      refine ⟨?_, hs.nonneg⟩
      simpa [MainPc.hand] using hacc
  | @accept fd hm hfd hnew =>
      rw [hm] at hacc
      refine ⟨?_, ?_⟩
      · change s.accepted ++ [fd] = s.taken.map Prod.snd ++ s.clients ++ [fd]
        rw [hacc]
        simp [MainPc.hand]
      · intro fd' hmem
        rcases List.mem_append.mp hmem with hmem | hmem
        · exact hs.nonneg fd' hmem
        · obtain rfl := List.mem_singleton.mp hmem
          exact hfd
  | signal hm _ | signalNobody hm _ =>
      refine ⟨?_, hs.nonneg⟩
      cases hmain : s.main <;> rw [hmain] at hm hacc <;> cases hm <;> exact hacc
  | @dequeue i fd rest hi hq =>
      refine ⟨?_, hs.nonneg⟩
      change s.accepted = (s.taken ++ [(i, fd)]).map Prod.snd ++ rest ++ s.main.hand
      rw [hacc, hq]
      simp
  | dequeueAny he _ => cases he
  | start _ | callWait _ | wake _ _ | dequeueEmpty _ _ | workerUnlock _ | retire _ _ | keep _ _
  | serve _ _ | unfree _ | work _ | close _ | leave _ | spurious _ _ =>
      exact ⟨hacc, hs.nonneg⟩

private theorem InOrder.queued_nonneg {s : Pool} (hs : InOrder s) {fd : Int}
    (h : fd ∈ s.main.hand ++ s.clients) : 0 ≤ fd := by
  apply hs.nonneg
  rw [hs.accepted]
  rcases List.mem_append.mp h with h | h <;> simp [h]

/-- What was taken is served by the worker that took it, and closed by it. -/
structure Histories (s : Pool) : Prop where
  taken : ∀ i client, client ≠ -1 →
    s.taken.count (i, client) = s.worked.count (i, client) + s.read (WorkerPc.carries client) i
  worked : ∀ i client,
    s.worked.count (i, client) = s.closed.count (i, client) + s.read (WorkerPc.serves client) i

private theorem count_append_pair (l : List (Nat × Int)) (i j : Nat) (c d : Int) :
    (l ++ [(j, d)]).count (i, c) = l.count (i, c) + if i = j ∧ d = c then 1 else 0 := by
  rw [List.count_append, List.count_singleton]
  by_cases hij : i = j
  · by_cases hdc : d = c <;> simp [hij, hdc]
  · simp [hij, Ne.symm hij]

private theorem note_enter (l : List (Nat × Int)) (i : Nat) (pc' : WorkerPc) {s : Pool}
    {f : WorkerPc → Nat} {j : Nat} {c d : Int} {pc : WorkerPc} (hj : s.workers[j]? = some pc)
    (hf : f pc = 0) (hf' : f pc' = if d = c then 1 else 0) :
    (l ++ [(j, d)]).count (i, c) + s.read f i = l.count (i, c) + (s.goto j pc').read f i := by
  rw [count_append_pair, read_goto hj]
  by_cases hij : i = j
  · subst hij
    simp [Pool.read, hj, hf, hf']
  · simp [hij]

private theorem note_leave (l : List (Nat × Int)) (i : Nat) (pc' : WorkerPc) {s : Pool}
    {f : WorkerPc → Nat} {j : Nat} {c d : Int} {pc : WorkerPc} (hj : s.workers[j]? = some pc)
    (hf : f pc = if d = c then 1 else 0) (hf' : f pc' = 0) :
    (l ++ [(j, d)]).count (i, c) + (s.goto j pc').read f i = l.count (i, c) + s.read f i := by
  rw [count_append_pair, read_goto hj]
  by_cases hij : i = j
  · subst hij
    simp [Pool.read, hj, hf, hf']
  · simp [hij]

private theorem histories_step {c : Config} {env : Env} {s t : Pool} {a : Action}
    (h : Move c env s a t) (he : env.anyAnswer = false) (hs : Histories s) : Histories t := by
  cases h with
  | create _ _ | spawn _ =>
      refine ⟨fun i client hc => ?_, fun i client => ?_⟩
      · rw [read_spawn rfl rfl]
        exact hs.taken i client hc
      · rw [read_spawn rfl rfl]
        exact hs.worked i client
  | setPool _ _ | lock _ _ | enqueue _ | unlock _ | serviceNone _ _ | serviceSome _ _ | grow _ _
  | growFull _ _ | accept _ _ _ | signalNobody _ _ => exact ⟨hs.taken, hs.worked⟩
  | dequeueAny hany _ =>
      rw [he] at hany
      cases hany
  | @dequeue j fd rest hj hq =>
      refine ⟨fun i client hc => ?_, fun i client => ?_⟩
      · change (s.taken ++ [(j, fd)]).count (i, client) =
          s.worked.count (i, client) + (s.goto j (.unlock fd)).read _ i
        have hnote := note_enter (f := WorkerPc.carries client) s.taken i (.unlock fd) hj rfl rfl
        have htaken := hs.taken i client hc
        omega
      · exact (hs.worked i client).trans
          (congrArg _ (read_goto_same (.unlock fd) hj rfl).symm)
  | @dequeueEmpty j hj hq =>
      refine ⟨fun i client hc => ?_, fun i client => ?_⟩
      · rw [read_goto_same _ hj (by simp [WorkerPc.carries, Ne.symm hc])]
        exact hs.taken i client hc
      · rw [read_goto_same _ hj (by rfl)]
        exact hs.worked i client
  | @unfree j d hj =>
      refine ⟨fun i client hc => ?_, fun i client => ?_⟩
      · change s.taken.count (i, client) =
          (s.worked ++ [(j, d)]).count (i, client) + (s.goto j (.work d)).read _ i
        have hnote := note_leave (f := WorkerPc.carries client) s.worked i (.work d) hj rfl rfl
        have htaken := hs.taken i client hc
        omega
      · change (s.worked ++ [(j, d)]).count (i, client) =
          s.closed.count (i, client) + (s.goto j (.work d)).read _ i
        have hnote := note_enter (f := WorkerPc.serves client) s.worked i (.work d) hj rfl rfl
        have hworked := hs.worked i client
        omega
  | @close j d hj =>
      refine ⟨fun i client hc => ?_, fun i client => ?_⟩
      · exact (hs.taken i client hc).trans
          (congrArg _ (read_goto_same .start hj rfl).symm)
      · change s.worked.count (i, client) =
          (s.closed ++ [(j, d)]).count (i, client) + (s.goto j .start).read _ i
        have hnote := note_leave (f := WorkerPc.serves client) s.closed i .start hj rfl rfl
        have hworked := hs.worked i client
        omega
  | @retire j hj hp =>
      refine ⟨fun i client hc => ?_, fun i client => ?_⟩
      · exact (hs.taken i client hc).trans
          (congrArg _ (read_goto_same .leave hj (by simp [WorkerPc.carries, Ne.symm hc])).symm)
      · exact (hs.worked i client).trans
          (congrArg _ (read_goto_same .leave hj rfl).symm)
  | signal _ hj | start hj | callWait hj | wake hj _ | workerUnlock hj | keep hj _ | serve hj _
  | work hj | leave hj | spurious _ hj =>
      refine ⟨fun i client hc => ?_, fun i client => ?_⟩
      · exact (hs.taken i client hc).trans (congrArg _ (read_goto_same _ hj (by rfl)).symm)
      · exact (hs.worked i client).trans (congrArg _ (read_goto_same _ hj (by rfl)).symm)

/-- The open descriptors, without repetition: in the hands of `main`, in the queue, or held by
one worker. -/
structure OpenOnce (s : Pool) : Prop where
  nodup : s.opened.Nodup
  held : s.opened.Perm (s.main.hand ++ s.clients ++ s.workers.flatMap WorkerPc.holds)

private theorem OpenOnce.neg_one_notMem {s : Pool} (hs : OpenOnce s) (hin : InOrder s) :
    (-1 : Int) ∉ s.opened := by
  intro hmem
  rcases List.mem_append.mp (hs.held.mem_iff.mp hmem) with hqueued | hheld
  · have hnonneg := hin.queued_nonneg hqueued
    omega
  · obtain ⟨pc, _, hpc⟩ := List.mem_flatMap.mp hheld
    cases pc with simp only [WorkerPc.holds, List.not_mem_nil] at hpc
    | unlock d | test d | unfree d | work d | close d =>
        by_cases hd : d = -1
        · simp [hd] at hpc
        · rw [if_neg hd] at hpc
          exact hd (List.mem_singleton.mp hpc).symm

private theorem holds_goto {s : Pool} {j : Nat} {pc : WorkerPc} (pc' : WorkerPc)
    (hj : s.workers[j]? = some pc) (hh : pc'.holds = pc.holds) :
    (s.workers.set j pc').flatMap WorkerPc.holds |>.Perm (s.workers.flatMap WorkerPc.holds) := by
  have hperm := flatMap_set_perm (b := pc') WorkerPc.holds hj
  rw [hh] at hperm
  exact (List.perm_append_right_iff _).mp hperm

private theorem openOnce_step {c : Config} {b : Bool} {s t : Pool} {a : Action}
    (h : Move c (.fifo b) s a t) (hin : InOrder s) (hs : OpenOnce s) : OpenOnce t := by
  have hheld := hs.held
  cases h with
  | create hm _ | spawn hm =>
      rw [hm] at hheld
      exact ⟨hs.nodup, by simpa [WorkerPc.holds, MainPc.hand] using hheld⟩
  | setPool hm _ | unlock hm | serviceNone hm _ | serviceSome hm _ | grow hm _ | growFull hm _
  | lock hm _ =>
      rw [hm] at hheld
      exact ⟨hs.nodup, hheld⟩
  | @enqueue fd hm =>
      rw [hm] at hheld
      refine ⟨hs.nodup, hheld.trans ?_⟩
      change ([fd] ++ s.clients ++ _).Perm ([] ++ (s.clients ++ [fd]) ++ _)
      exact List.perm_append_comm.append_right _
  | @accept fd hm hfd hnew =>
      rw [hm] at hheld
      refine ⟨?_, ?_⟩
      · change (s.opened ++ [fd]).Nodup
        rw [List.nodup_append]
        refine ⟨hs.nodup, by simp, ?_⟩
        intro x hx y hy hxy
        obtain rfl := List.mem_singleton.mp hy
        exact hnew (hxy ▸ hx)
      · change (s.opened ++ [fd]).Perm ([fd] ++ s.clients ++ _)
        exact List.perm_append_comm.trans (hheld.append_left [fd])
  | signal hm hi =>
      have hperm := holds_goto .woken hi rfl
      refine ⟨hs.nodup, hheld.trans ?_⟩
      cases hmain : s.main <;> rw [hmain] at hm <;> cases hm <;>
        exact (hperm.symm.append_left _)
  | signalNobody hm _ =>
      refine ⟨hs.nodup, ?_⟩
      cases hmain : s.main <;> rw [hmain] at hm hheld <;> cases hm <;> exact hheld
  | dequeueAny he _ => cases he
  | @dequeue j fd rest hj hq =>
      refine ⟨hs.nodup, hheld.trans ?_⟩
      have hne : fd ≠ -1 := by
        have hnonneg := hin.queued_nonneg (show fd ∈ s.main.hand ++ s.clients by simp [hq])
        omega
      have hperm := flatMap_set_perm (b := .unlock fd) WorkerPc.holds hj
      simp only [WorkerPc.holds, List.append_nil, if_neg hne] at hperm
      change (s.main.hand ++ s.clients ++ s.workers.flatMap WorkerPc.holds).Perm
        (s.main.hand ++ rest ++ (s.workers.set j (.unlock fd)).flatMap WorkerPc.holds)
      rw [hq, List.append_assoc, List.append_assoc]
      refine List.Perm.append_left _ ?_
      calc (fd :: rest ++ s.workers.flatMap WorkerPc.holds).Perm
            (rest ++ (fd :: s.workers.flatMap WorkerPc.holds)) := List.perm_middle.symm
        _ |>.Perm (rest ++ (s.workers.flatMap WorkerPc.holds ++ [fd])) :=
            (List.perm_append_singleton fd _).symm.append_left _
        _ |>.Perm _ := hperm.symm.append_left _
  | @close j d hj =>
      have hperm := flatMap_set_perm (b := .start) WorkerPc.holds hj
      refine ⟨hs.nodup.erase d, ?_⟩
      change (s.opened.erase d).Perm
        (s.main.hand ++ s.clients ++ (s.workers.set j .start).flatMap WorkerPc.holds)
      by_cases hd : d = -1
      · subst hd
        have hnot := hs.neg_one_notMem hin
        simp only [WorkerPc.holds, if_true, List.append_nil] at hperm
        rw [List.erase_of_not_mem hnot]
        exact hheld.trans (hperm.symm.append_left _)
      · simp only [WorkerPc.holds, if_neg hd, List.append_nil] at hperm
        have hall : s.opened.Perm (d :: (s.main.hand ++ s.clients ++
            (s.workers.set j .start).flatMap WorkerPc.holds)) :=
          hheld.trans ((hperm.symm.trans List.perm_append_comm).append_left _ |>.trans
            List.perm_middle)
        have herase := hall.erase d
        rwa [List.erase_cons_head] at herase
  | start hj | callWait hj | wake hj _ | dequeueEmpty hj _ | workerUnlock hj | retire hj _
  | keep hj _ | serve hj _ | unfree hj | work hj | leave hj | spurious _ hj =>
      exact ⟨hs.nodup, hheld.trans ((holds_goto _ hj (by rfl)).symm.append_left _)⟩

private theorem reachable_inOrder {c : Config} {b : Bool} {s : Pool}
    (h : Reachable (step c (.fifo b)) Pool.init s) : InOrder s :=
  h.invariant (fun _ _ _ hs ha => inOrder_step (step_move ha) hs)
    ⟨rfl, fun fd hmem => by cases hmem⟩

private theorem reachable_histories {c : Config} {b : Bool} {s : Pool}
    (h : Reachable (step c (.fifo b)) Pool.init s) : Histories s :=
  h.invariant (fun _ _ _ hs ha => histories_step (step_move ha) rfl hs)
    ⟨fun _ _ _ => rfl, fun _ _ => rfl⟩

private theorem reachable_openOnce {c : Config} {b : Bool} {s : Pool}
    (h : Reachable (step c (.fifo b)) Pool.init s) : OpenOnce s := by
  have hboth : InOrder s ∧ OpenOnce s :=
    h.invariant (I := fun s => InOrder s ∧ OpenOnce s)
      (fun _ _ _ hs ha =>
        ⟨inOrder_step (step_move ha) hs.1, openOnce_step (step_move ha) hs.1 hs.2⟩)
      ⟨⟨rfl, fun fd hmem => by cases hmem⟩, ⟨List.nodup_nil, List.Perm.refl _⟩⟩
  exact hboth.2

/-! ## Workers that are woken for nothing -/

/-- A worker that found the queue empty tests `pool_size` while it is larger than `n`. -/
def RetiresWhenEmpty (c : Config) (s : Pool) : Action → Prop
  | .worker i => s.workers[i]? = some (.test (-1)) → c.n < s.poolSize
  | _ => True

instance (c : Config) (s : Pool) : ∀ a, Decidable (RetiresWhenEmpty c s a)
  | .worker _ => inferInstanceAs (Decidable (_ → _))
  | .main | .accept _ | .signal _ | .signalNobody | .dequeue .. | .spurious _ =>
      inferInstanceAs (Decidable True)

/-- The worker is about to call `do_work` or `close` with `-1`, or is in such a call. -/
def WorkerPc.idle : WorkerPc → Bool
  | .unfree d | .work d | .close d => d == -1
  | _ => false

structure NoIdleService (s : Pool) : Prop where
  now : s.workers.countP WorkerPc.idle = 0
  worked : ∀ i, (i, (-1 : Int)) ∉ s.worked

private theorem noIdleService_step {c : Config} {env : Env} {s t : Pool} {a : Action}
    (h : Move c env s a t) (hok : RetiresWhenEmpty c s a) (hs : NoIdleService s) :
    NoIdleService t := by
  cases h with
  | create _ _ | spawn _ => exact ⟨by simp [hs.now, WorkerPc.idle], hs.worked⟩
  | setPool _ _ | lock _ _ | enqueue _ | unlock _ | serviceNone _ _ | serviceSome _ _ | grow _ _
  | growFull _ _ | accept _ _ _ | signalNobody _ _ => exact ⟨hs.now, hs.worked⟩
  | keep hi hp => exact absurd (hok hi) hp
  | @serve i client hi hc =>
      have hidle : WorkerPc.idle (.unfree client) = false := by simpa [WorkerPc.idle] using hc
      exact ⟨(countP_set_same hi (by rw [hidle]; rfl)).trans hs.now, hs.worked⟩
  | @unfree i client hi =>
      have hc : client ≠ -1 := by
        intro hc
        have hpos := countP_pos_of_getElem? (p := WorkerPc.idle) hi (by simp [WorkerPc.idle, hc])
        have hnow := hs.now
        omega
      refine ⟨(countP_set_same hi (by rfl)).trans hs.now, ?_⟩
      intro j hmem
      rcases List.mem_append.mp hmem with hmem | hmem
      · exact hs.worked j hmem
      · simp only [List.mem_singleton, Prod.mk.injEq] at hmem
        exact hc hmem.2.symm
  | @close i client hi =>
      refine ⟨?_, hs.worked⟩
      have hcount := countP_set_add (b := .start) WorkerPc.idle hi
      have hnow := hs.now
      change (s.workers.set i .start).countP _ = 0
      simp only [WorkerPc.idle, Bool.false_eq_true, if_false] at hcount
      omega
  | signal _ hi | start hi | callWait hi | wake hi _ | dequeueEmpty hi _ | dequeueAny _ hi
  | dequeue hi _ | workerUnlock hi | retire hi _ | work hi | leave hi | spurious _ hi =>
      exact ⟨(countP_set_same hi (by rfl)).trans hs.now, hs.worked⟩

/-- Every call of `do_work` and of `close` is for a client that was accepted, enqueued and taken
by the calling worker, one call of each for each time it was taken, never for `-1`; and no open
descriptor is held by two workers. -/
structure ServedOnce (s : Pool) : Prop where
  accepted : s.accepted = s.taken.map Prod.snd ++ s.clients ++ s.main.hand
  worked : ∀ i client, s.worked.count (i, client) ≤ s.taken.count (i, client)
  closed : ∀ i client, s.closed.count (i, client) ≤ s.worked.count (i, client)
  neverIdle : ∀ i, (i, (-1 : Int)) ∉ s.worked ∧ (i, (-1 : Int)) ∉ s.closed
  apart : (s.main.hand ++ s.clients ++ s.workers.flatMap WorkerPc.holds).Nodup

/-- In every run in which each worker woken for nothing retires. -/
theorem each_client_served_once (c : Config) (spurious : Bool) (as : List Action) {s : Pool}
    (h : run (step c (.fifo spurious)) Pool.init as = some s)
    (hok : Guarded (step c (.fifo spurious)) (RetiresWhenEmpty c) Pool.init as) :
    ServedOnce s := by
  have hreach : Reachable (step c (.fifo spurious)) Pool.init s := ⟨as, h⟩
  have hhist := reachable_histories hreach
  have hopen := reachable_openOnce hreach
  have hidle : NoIdleService s :=
    run_invariant_of_guarded
      (fun _ _ _ hs ha hst => noIdleService_step (step_move hst) ha hs) h hok
      ⟨rfl, fun _ hmem => by cases hmem⟩
  have hclosed : ∀ i client, s.closed.count (i, client) ≤ s.worked.count (i, client) := by
    intro i client
    rw [hhist.worked]
    exact Nat.le_add_right _ _
  refine ⟨(reachable_inOrder hreach).accepted, ?_, hclosed, ?_, hopen.held.nodup_iff.mp hopen.nodup⟩
  · intro i client
    by_cases hc : client = -1
    · subst hc
      rw [List.count_eq_zero_of_not_mem (hidle.worked i)]
      exact Nat.zero_le _
    · rw [hhist.taken i client hc]
      exact Nat.le_add_right _ _
  · intro i
    refine ⟨hidle.worked i, ?_⟩
    intro hmem
    have hpos := List.count_pos_iff.mpr hmem
    have hle := hclosed i (-1)
    rw [List.count_eq_zero_of_not_mem (hidle.worked i)] at hle
    omega

/-- Both workers of a server with `n = 2` wait; the second signal for the first client wakes the
worker for which there is nothing to do. -/
def idleRun : List Action :=
  [.main, .main, .main, .worker 0, .worker 0, .worker 1, .worker 1,
    .accept 4, .main, .main, .main, .main, .signal 0, .signal 1,
    .worker 0, .dequeue 0 4, .worker 0, .worker 1, .dequeue 1 (-1), .worker 1,
    .worker 1, .worker 1, .worker 1, .worker 1]

/-- `do_work(-1)` and `close(-1)` are called. -/
theorem each_client_served_once_fails :
    ¬∀ (c : Config) (s : Pool), Reachable (step c (.fifo false)) Pool.init s → ServedOnce s := by
  intro h
  have hrun : ((run (step ⟨2, 2, by decide, by decide, by decide⟩ (.fifo false)) Pool.init
      idleRun).map fun s => (s.worked, s.closed)) = some ([(1, -1)], [(1, -1)]) := by decide
  obtain ⟨s, hs, hcalls⟩ := Option.map_eq_some_iff.mp hrun
  have hnever := (h _ s ⟨idleRun, hs⟩).neverIdle 1
  rw [Prod.mk.injEq] at hcalls
  rw [hcalls.1] at hnever
  simp at hnever

/-- One worker serves the first client and closes it. -/
theorem each_client_served_once_first :
    ServedOnce ⟨.accept, [.start], false, [], 1, 0, [], [4], [(0, 4)], [(0, 4)], [(0, 4)]⟩ :=
  each_client_served_once ⟨1, 1, by decide, by decide, by decide⟩ false
    [.main, .main, .worker 0, .worker 0, .accept 4, .main, .main, .main, .main, .signal 0,
      .signalNobody, .worker 0, .dequeue 0 4, .worker 0, .worker 0, .worker 0, .worker 0,
      .worker 0] (by decide) (by decide)

/-- A worker that found the queue empty and is kept goes on to call `do_work(-1)`. -/
theorem idle_service_of_not_retiresWhenEmpty {c : Config} {env : Env} {s t : Pool} {a : Action}
    (h : step c env s a = some t) (hbad : ¬RetiresWhenEmpty c s a) :
    ∃ i u, Reachable (step c env) t u ∧ (i, (-1 : Int)) ∈ u.worked := by
  cases a with
  | worker i =>
      simp only [RetiresWhenEmpty, Classical.not_imp] at hbad
      obtain ⟨hi, hp⟩ := hbad
      have ht : t = s.goto i (.unfree (-1)) := by
        simpa [step, hi, workerStep, hp] using h.symm
      have hself : t.workers[i]? = some (.unfree (-1)) := by
        rw [ht, Pool.goto, List.getElem?_set_self (List.getElem?_eq_some_iff.mp hi).1]
      refine ⟨i, { t.goto i (.work (-1)) with
        freeWorkers := sizeDec t.freeWorkers, worked := t.worked ++ [(i, -1)] },
        Reachable.single (a := .worker i) ?_, by simp⟩
      simp [step, hself, workerStep]
  | main | accept _ | signal _ | signalNobody | dequeue _ _ | spurious _ =>
      exact absurd trivial hbad

end SyssoftLabs.Lab6
