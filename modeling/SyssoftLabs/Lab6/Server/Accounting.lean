import SyssoftLabs.Lab6.Server.Pool

/-!
# Worker-pool accounting

The two counters of the server against the program counters of its threads, in every interleaving
and whatever the queue answers.
-/

namespace SyssoftLabs.Lab6

open SyssoftLabs.Framework

/-- Between `++free_workers_count` and the matching `--free_workers_count`. -/
def WorkerPc.countedFree : WorkerPc → Bool
  | .start | .work _ | .close _ | .exited => false
  | .callWait | .waiting | .woken | .dequeue | .unlock _ | .test _ | .unfree _ | .leave => true

/-- The exit decrement of `pool_size` is still to come, if it ever comes. -/
def WorkerPc.inPool : WorkerPc → Bool
  | .leave | .exited => false
  | _ => true

/-- `pool_size` has been incremented for a thread that is not created yet. -/
def Pool.spawning (s : Pool) : Nat := if s.main = .spawn then 1 else 0

private theorem freeWorkers_step {c : Config} {env : Env} {s t : Pool} {a : Action}
    (h : Move c env s a t) (hs : s.freeWorkers = s.workers.countP WorkerPc.countedFree) :
    t.freeWorkers = t.workers.countP WorkerPc.countedFree := by
  cases h with
  | create _ _ | spawn _ => simpa [WorkerPc.countedFree] using hs
  | setPool _ _ | lock _ _ | enqueue _ | unlock _ | serviceNone _ _ | serviceSome _ _ | grow _ _
  | growFull _ _ | accept _ _ _ | signalNobody _ _ => exact hs
  | start hi =>
      change s.freeWorkers + 1 = _
      rw [hs]
      exact (countP_set_enter hi (by rfl) (by rfl)).symm
  | @unfree i client hi =>
      change sizeDec s.freeWorkers = (s.workers.set i (.work client)).countP _
      have hcount := countP_set_leave hi (b := .work client) (p := WorkerPc.countedFree) rfl rfl
      rw [sizeDec_of_pos (by omega)]
      omega
  | @leave i hi =>
      change sizeDec s.freeWorkers = (s.workers.set i .exited).countP _
      have hcount := countP_set_leave hi (b := .exited) (p := WorkerPc.countedFree) rfl rfl
      rw [sizeDec_of_pos (by omega)]
      omega
  | signal _ hi | callWait hi | wake hi _ | dequeueEmpty hi _ | dequeueAny _ hi | dequeue hi _
  | workerUnlock hi | retire hi _ | keep hi _ | serve hi _ | work hi | close hi | spurious _ hi =>
      exact hs.trans (countP_set_same hi (by rfl)).symm

/-- While the first workers are created `pool_size` is still zero and no worker retires;
afterwards it stays between `n` and `k` and counts the workers that have not retired. -/
structure PoolCounted (c : Config) (s : Pool) : Prop where
  creating : ∀ j, s.main = .create j →
    j ≤ c.n ∧ s.poolSize = 0 ∧ s.workers.countP WorkerPc.inPool = j
  set : (∀ j, s.main ≠ .create j) → c.n ≤ s.poolSize ∧ s.poolSize ≤ c.k ∧
    s.poolSize = s.workers.countP WorkerPc.inPool + s.spawning

private theorem PoolCounted.frame {c : Config} {s t : Pool} (hs : PoolCounted c s)
    (hp : t.poolSize = s.poolSize)
    (hw : t.workers.countP WorkerPc.inPool = s.workers.countP WorkerPc.inPool)
    (hm : t.main = s.main ∨
      ((∀ j, s.main ≠ .create j) ∧ (∀ j, t.main ≠ .create j) ∧ t.spawning = s.spawning)) :
    PoolCounted c t := by
  rcases hm with hm | ⟨hs', ht', hspawn⟩
  · constructor
    · intro j hj
      rw [hp, hw]
      exact hs.creating j (hm ▸ hj)
    · intro hset
      rw [hp, hw, Pool.spawning, hm]
      exact hs.set (hm ▸ hset)
  · constructor
    · intro j hj
      exact absurd hj (ht' j)
    · intro _
      rw [hp, hw, hspawn]
      exact hs.set hs'

theorem poolCounted_step {c : Config} {env : Env} {s t : Pool} {a : Action}
    (h : Move c env s a t) (hs : PoolCounted c s) : PoolCounted c t := by
  cases h with
  | @create j hm hj =>
      obtain ⟨_, hzero, hcount⟩ := hs.creating j hm
      constructor
      · intro j' hj'
        cases hj'
        exact ⟨hj, hzero, by simp [hcount, WorkerPc.inPool]⟩
      · intro hset
        exact absurd rfl (hset (j + 1))
  | @setPool j hm hj =>
      obtain ⟨hle, _, hcount⟩ := hs.creating j hm
      constructor
      · intro j' hj'
        cases hj'
      · intro _
        refine ⟨Nat.le_refl _, c.le_k, ?_⟩
        change c.n = s.workers.countP WorkerPc.inPool + 0
        omega
  | grow hm hp =>
      obtain ⟨hn, hk, hcount⟩ := hs.set (by simp [hm])
      constructor
      · intro j hj
        cases hj
      · intro _
        simp only [Pool.spawning, hm, reduceCtorEq, if_false] at hcount
        refine ⟨Nat.le_succ_of_le hn, hp, ?_⟩
        change s.poolSize + 1 = s.workers.countP WorkerPc.inPool + 1
        omega
  | spawn hm =>
      obtain ⟨hn, hk, hcount⟩ := hs.set (by simp [hm])
      constructor
      · intro j hj
        cases hj
      · intro _
        simp only [Pool.spawning, hm, if_true] at hcount
        refine ⟨hn, hk, ?_⟩
        simp [Pool.spawning, WorkerPc.inPool, hcount]
  | @retire i hi hp =>
      have hleave := countP_set_leave hi (b := .leave) (p := WorkerPc.inPool) rfl rfl
      have hset : ∀ j, s.main ≠ .create j := by
        intro j hj
        have hzero := (hs.creating j hj).2.1
        omega
      obtain ⟨hn, hk, hcount⟩ := hs.set hset
      have hdec := sizeDec_of_pos (x := s.poolSize) (by omega)
      constructor
      · intro j hj
        exact absurd hj (hset j)
      · intro _
        change c.n ≤ sizeDec s.poolSize ∧ sizeDec s.poolSize ≤ c.k ∧ sizeDec s.poolSize =
          (s.workers.set i .leave).countP WorkerPc.inPool + s.spawning
        rw [hdec]
        omega
  | lock hm _ | enqueue hm | unlock hm | serviceNone hm _ | serviceSome hm _ | growFull hm _
  | accept hm _ _ =>
      exact hs.frame rfl rfl (Or.inr ⟨by simp [hm], by simp, by simp [Pool.spawning, hm]⟩)
  | @signal i m hm hi =>
      refine hs.frame rfl (countP_set_same hi (by rfl)) (Or.inr ?_)
      cases hmain : s.main <;> rw [hmain] at hm <;> cases hm <;> simp [Pool.spawning, hmain]
  | @signalNobody m hm _ =>
      refine hs.frame rfl rfl (Or.inr ?_)
      cases hmain : s.main <;> rw [hmain] at hm <;> cases hm <;> simp [Pool.spawning, hmain]
  | start hi | callWait hi | wake hi _ | dequeueEmpty hi _ | dequeueAny _ hi | dequeue hi _
  | workerUnlock hi | keep hi _ | serve hi _ | unfree hi | work hi | close hi | leave hi
  | spurious _ hi =>
      exact hs.frame rfl (countP_set_same hi (by rfl)) (Or.inl rfl)

private theorem reachable_freeWorkers {c : Config} {env : Env} {s : Pool}
    (h : Reachable (step c env) Pool.init s) :
    s.freeWorkers = s.workers.countP WorkerPc.countedFree :=
  h.invariant (fun _ _ _ hs ha => freeWorkers_step (step_move ha) hs) rfl

theorem reachable_poolCounted {c : Config} {env : Env} {s : Pool}
    (h : Reachable (step c env) Pool.init s) : PoolCounted c s :=
  h.invariant (fun _ _ _ hs ha => poolCounted_step (step_move ha) hs)
    ⟨by intro j hj; cases hj; simp [Pool.init], fun hset => absurd rfl (hset 0)⟩

theorem PoolCounted.le_k {c : Config} {s : Pool} (hs : PoolCounted c s) : s.poolSize ≤ c.k := by
  cases hm : s.main with
  | create j =>
      rw [(hs.creating j hm).2.1]
      exact Nat.zero_le _
  | _ => exact (hs.set (by simp [hm])).2.1

/-- The counters once `pool_size` is set, and that no decrement meets a zero counter. -/
theorem worker_pool_accounting (c : Config) (env : Env) {s : Pool}
    (h : Reachable (step c env) Pool.init s) (hset : ∀ j, s.main ≠ .create j) :
    (c.n ≤ s.poolSize ∧ s.poolSize ≤ c.k) ∧
    s.poolSize = s.workers.countP WorkerPc.inPool + s.spawning ∧
    s.freeWorkers = s.workers.countP WorkerPc.countedFree ∧
    (∀ (i : Nat) (client : Int), s.workers[i]? = some (WorkerPc.unfree client) ∨
      s.workers[i]? = some WorkerPc.leave → 0 < s.freeWorkers) ∧
    0 < s.poolSize := by
  obtain ⟨hn, hk, hcount⟩ := (reachable_poolCounted h).set hset
  have hfree := reachable_freeWorkers h
  refine ⟨⟨hn, hk⟩, hcount, hfree, ?_, Nat.lt_of_lt_of_le c.one_le hn⟩
  intro i client hi
  rw [hfree]
  rcases hi with hi | hi
  · exact countP_pos_of_getElem? hi (by rfl)
  · exact countP_pos_of_getElem? hi (by rfl)

/-- The first client of a server with `n = 1` and `k = 2` whose worker has not started yet: `main`
is about to create a second worker. -/
theorem worker_pool_accounting_spawn :
    let s : Pool := ⟨.spawn, [.start], false, [4], 2, 0, [4], [4], [], [], []⟩
    s.poolSize = s.workers.countP WorkerPc.inPool + s.spawning ∧
      s.freeWorkers = s.workers.countP WorkerPc.countedFree := by
  have h := worker_pool_accounting ⟨1, 2, by decide, by decide, by decide⟩ ⟨true, true⟩
    (s := ⟨.spawn, [.start], false, [4], 2, 0, [4], [4], [], [], []⟩)
    ⟨[.main, .main, .accept 4, .main, .main, .main, .main, .main], by decide⟩ (by simp)
  exact ⟨h.2.1, h.2.2.1⟩

end SyssoftLabs.Lab6
