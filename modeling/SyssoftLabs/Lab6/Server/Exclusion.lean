import Mathlib.Data.Fintype.EquivFin
import SyssoftLabs.Lab6.Server.Pool

/-!
# Mutual exclusion on the client queue

A worker calls `pthread_cond_wait` without having locked `queue_mutex`, so that the call releases
a mutex that another thread may hold. Exclusion holds as long as no such call is made while a
thread that could be joined by another one is inside a queue operation.
-/

namespace SyssoftLabs.Lab6

open SyssoftLabs.Framework

/-- Between the lock and the unlock around `queue_enqueue`. -/
def MainPc.inside : MainPc → Bool
  | .enqueue _ | .unlock => true
  | _ => false

/-- Between the return of `pthread_cond_wait` and the unlock after `queue_dequeue`. -/
def WorkerPc.inside : WorkerPc → Bool
  | .dequeue | .unlock _ => true
  | _ => false

/-- The number of threads inside a queue operation. -/
def Pool.inside (s : Pool) : Nat := s.main.inside.toNat + s.workers.countP WorkerPc.inside

/-- A call of `pthread_cond_wait` is made while no worker is inside a queue operation, and while
`main` is inside only if no worker is woken or can wake before `main` leaves. -/
def WaitsApart (env : Env) (s : Pool) : Action → Prop
  | .worker i => s.workers[i]? = some .callWait →
      s.workers.countP WorkerPc.inside = 0 ∧
        (s.main.inside = true → env.spurious = false ∧ .woken ∉ s.workers)
  | _ => True

instance (env : Env) (s : Pool) : ∀ a, Decidable (WaitsApart env s a)
  | .worker _ => inferInstanceAs (Decidable (_ → _))
  | .main | .accept _ | .signal _ | .signalNobody | .dequeue .. | .spurious _ =>
      inferInstanceAs (Decidable True)

/-- A thread inside holds the mutex, or `main` is inside without it and nobody can follow. -/
structure Excluded (env : Env) (s : Pool) : Prop where
  one : s.inside ≤ 1
  worker : 0 < s.workers.countP WorkerPc.inside → s.locked = true
  main : s.main.inside = true →
    s.locked = true ∨ env.spurious = false ∧ .woken ∉ s.workers

/-- Steps that move nobody in or out and leave the mutex alone. A worker may be woken only while
`main` is outside or where wake-ups may be spurious. -/
private theorem Excluded.keep {env : Env} {s t : Pool} (hs : Excluded env s)
    (hm : t.main.inside = s.main.inside)
    (hw : t.workers.countP WorkerPc.inside = s.workers.countP WorkerPc.inside)
    (hl : t.locked = s.locked)
    (hwoken : s.main.inside = true → env.spurious = false → .woken ∈ t.workers →
      .woken ∈ s.workers) :
    Excluded env t := by
  refine ⟨?_, ?_, ?_⟩
  · rw [Pool.inside, hm, hw]
    exact hs.one
  · rw [hw, hl]
    exact hs.worker
  · rw [hm, hl]
    intro hmain
    exact (hs.main hmain).imp_right fun h => ⟨h.1, fun hmem => h.2 (hwoken hmain h.1 hmem)⟩

private theorem Excluded.frame {env : Env} {s t : Pool} (hs : Excluded env s)
    (hm : t.main.inside = s.main.inside)
    (hw : t.workers.countP WorkerPc.inside = s.workers.countP WorkerPc.inside)
    (hl : t.locked = s.locked) (hwoken : .woken ∈ t.workers → .woken ∈ s.workers) :
    Excluded env t :=
  hs.keep hm hw hl fun _ _ => hwoken

private theorem Excluded.of_outside {env : Env} {t : Pool} (hm : t.main.inside = false)
    (hw : t.workers.countP WorkerPc.inside = 0) : Excluded env t := by
  refine ⟨?_, ?_, ?_⟩
  · simp [Pool.inside, hm, hw]
  · intro h
    omega
  · intro h
    rw [hm] at h
    cases h

private theorem woken_mem_set {l : List WorkerPc} {i : Nat} {pc : WorkerPc}
    (hpc : pc ≠ .woken) (h : .woken ∈ l.set i pc) : .woken ∈ l :=
  (List.mem_or_eq_of_mem_set h).resolve_right (Ne.symm hpc)

private theorem afterSignal_outside {m m' : MainPc} (h : afterSignal m = some m') :
    m.inside = false ∧ m'.inside = false := by
  cases m <;> cases h <;> exact ⟨rfl, rfl⟩

private theorem Excluded.nobody {env : Env} {s : Pool} (hs : Excluded env s)
    (hl : s.locked = false) :
    s.workers.countP WorkerPc.inside = 0 := by
  by_contra hne
  have hlocked := hs.worker (Nat.pos_of_ne_zero hne)
  rw [hl] at hlocked
  cases hlocked

private theorem excluded_step {c : Config} {env : Env} {s t : Pool} {a : Action}
    (h : Move c env s a t) (hok : WaitsApart env s a) (hs : Excluded env s) :
    Excluded env t := by
  cases h with
  | create hm _ | spawn hm =>
      exact hs.frame (by rw [hm]; rfl) (by simp [WorkerPc.inside]) rfl (by simp)
  | setPool hm _ | serviceNone hm _ | serviceSome hm _ | grow hm _ | growFull hm _
  | accept hm _ _ =>
      exact hs.frame (by rw [hm]; rfl) rfl rfl id
  | enqueue hm => exact hs.frame (by rw [hm]; rfl) rfl rfl id
  | lock hm hl =>
      have hw := hs.nobody hl
      refine ⟨?_, fun _ => rfl, fun _ => Or.inl rfl⟩
      simp [Pool.inside, MainPc.inside, hw]
  | unlock hm =>
      have hone := hs.one
      rw [Pool.inside, hm] at hone
      have hw : s.workers.countP WorkerPc.inside = 0 := by
        simp only [MainPc.inside, Bool.toNat_true] at hone
        omega
      exact Excluded.of_outside rfl hw
  | signal hm hi =>
      obtain ⟨hmain, hmain'⟩ := afterSignal_outside hm
      refine hs.keep (hmain'.trans hmain.symm) (countP_set_same hi rfl) rfl ?_
      intro hin
      rw [hmain] at hin
      cases hin
  | signalNobody hm _ =>
      obtain ⟨hmain, hmain'⟩ := afterSignal_outside hm
      exact hs.frame (hmain'.trans hmain.symm) rfl rfl id
  | @callWait i hi =>
      obtain ⟨hzero, hfree⟩ := hok hi
      have hw := countP_set_same hi (b := .waiting) (p := WorkerPc.inside) rfl
      have hzero' : (s.workers.set i .waiting).countP WorkerPc.inside = 0 := by rw [hw, hzero]
      refine ⟨?_, ?_, ?_⟩
      · change s.main.inside.toNat + (s.workers.set i .waiting).countP _ ≤ 1
        rw [hzero']
        cases s.main.inside <;> decide
      · intro hpos
        change 0 < (s.workers.set i .waiting).countP _ at hpos
        omega
      · intro hmain
        obtain ⟨hspur, hnone⟩ := hfree hmain
        exact Or.inr ⟨hspur, fun hmem => hnone (woken_mem_set (by simp) hmem)⟩
  | @wake i hi hl =>
      have hzero := hs.nobody hl
      have hmain : s.main.inside = false := by
        by_contra hin
        rcases hs.main (by simpa using hin) with hlocked | hnone
        · rw [hl] at hlocked
          cases hlocked
        · exact hnone.2 (List.mem_of_getElem? hi)
      have hw := countP_set_enter hi (b := .dequeue) (p := WorkerPc.inside) rfl rfl
      refine ⟨?_, fun _ => rfl, fun _ => Or.inl rfl⟩
      change s.main.inside.toNat + (s.workers.set i .dequeue).countP _ ≤ 1
      rw [hmain, hw, hzero]
      decide
  | @workerUnlock i client hi =>
      have hpos : 0 < s.workers.countP WorkerPc.inside := countP_pos_of_getElem? hi rfl
      have hw := countP_set_leave hi (b := .test client) (p := WorkerPc.inside) rfl rfl
      have hone := hs.one
      rw [Pool.inside] at hone
      apply Excluded.of_outside
      · change s.main.inside = false
        cases hmain : s.main.inside with
        | false => rfl
        | true =>
            rw [hmain, Bool.toNat_true] at hone
            omega
      · change (s.workers.set i (.test client)).countP _ = 0
        omega
  | @spurious i hspur hi =>
      refine hs.keep rfl (countP_set_same hi rfl) rfl ?_
      intro _ hno
      rw [hno] at hspur
      cases hspur
  | start hi | dequeueEmpty hi _ | dequeueAny _ hi | dequeue hi _ | retire hi _ | keep hi _
  | serve hi _ | unfree hi | work hi | close hi | leave hi =>
      exact hs.frame rfl (countP_set_same hi (by rfl)) rfl (woken_mem_set (by simp))

theorem locked_step {c : Config} {env : Env} {s t : Pool} {a : Action} (h : Move c env s a t)
    (hs : s.locked = true → 0 < s.inside) (hl : t.locked = true) : 0 < t.inside := by
  cases h with
  | create hm _ | spawn hm =>
      have hin := hs hl
      simp only [Pool.inside, hm] at hin
      simpa [Pool.inside, MainPc.inside, WorkerPc.inside] using hin
  | setPool hm _ | serviceNone hm _ | serviceSome hm _ | grow hm _ | growFull hm _
  | accept hm _ _ =>
      have hin := hs hl
      simp only [Pool.inside, hm] at hin
      exact hin
  | lock _ _ | enqueue _ => exact Nat.lt_of_lt_of_le Nat.zero_lt_one (Nat.le_add_right 1 _)
  | signal hm hi =>
      obtain ⟨hmain, hmain'⟩ := afterSignal_outside hm
      have hw := countP_set_same hi (b := .woken) (p := WorkerPc.inside) rfl
      have hin := hs hl
      rw [Pool.inside, hmain, ← hw, ← hmain'] at hin
      exact hin
  | signalNobody hm _ =>
      obtain ⟨hmain, hmain'⟩ := afterSignal_outside hm
      have hin := hs hl
      rw [Pool.inside, hmain, ← hmain'] at hin
      exact hin
  | @wake i hi _ =>
      have hw := countP_set_enter hi (b := .dequeue) (p := WorkerPc.inside) rfl rfl
      change 0 < s.main.inside.toNat + (s.workers.set i .dequeue).countP _
      omega
  | unlock _ | callWait _ | workerUnlock _ => cases hl
  | start hi | dequeueEmpty hi _ | dequeueAny _ hi | dequeue hi _ | retire hi _ | keep hi _
  | serve hi _ | unfree hi | work hi | close hi | leave hi | spurious _ hi =>
      refine Nat.lt_of_lt_of_le (hs hl) (Nat.add_le_add_left (Nat.le_of_eq ?_) _)
      exact (countP_set_same hi (by rfl)).symm

/-- At most one thread is inside a queue operation in every run whose calls of
`pthread_cond_wait` meet the condition. -/
theorem queue_mutual_exclusion (c : Config) (env : Env) (as : List Action) {s : Pool}
    (h : run (step c env) Pool.init as = some s)
    (hok : Guarded (step c env) (WaitsApart env) Pool.init as) : s.inside ≤ 1 := by
  have hinit : Excluded env Pool.init := Excluded.of_outside rfl rfl
  exact (run_invariant_of_guarded
    (fun _ _ _ hs ha hst => excluded_step (step_move hst) ha hs) h hok hinit).one

/-- The second client comes while a worker holds the mutex and the other one calls
`pthread_cond_wait`. -/
def crowdingRun : List Action :=
  [.main, .main, .main, .worker 0, .worker 0, .worker 1, .worker 1,
    .accept 4, .main, .main, .main, .main, .signal 0, .signal 1,
    .worker 0, .dequeue 0 4, .worker 0, .worker 0, .worker 0, .worker 0, .worker 0,
    .worker 1, .worker 0, .worker 0, .accept 5, .main]

/-- `main` and a worker are inside at the same time, without any spurious wake-up. -/
theorem queue_mutual_exclusion_fails :
    ¬∀ (c : Config) (s : Pool), Reachable (step c (.fifo false)) Pool.init s → s.inside ≤ 1 := by
  intro h
  have hrun : ((run (step ⟨2, 2, by decide, by decide, by decide⟩ (.fifo false)) Pool.init
      crowdingRun).map Pool.inside) = some 2 := by decide
  obtain ⟨s, hs, htwo⟩ := Option.map_eq_some_iff.mp hrun
  have hone := h _ s ⟨crowdingRun, hs⟩
  omega

/-- The first client of a server with one worker, up to the removal. -/
theorem queue_mutual_exclusion_first_client :
    Pool.inside ⟨.accept, [.unlock 4], true, [], 1, 1, [4], [4], [(0, 4)], [], []⟩ ≤ 1 :=
  queue_mutual_exclusion ⟨1, 1, by decide, by decide, by decide⟩ (.fifo false)
    [.main, .main, .worker 0, .worker 0, .accept 4, .main, .main, .main, .main, .signal 0,
      .signalNobody, .worker 0, .dequeue 0 4] (by decide) (by decide)

/-! ## The condition leaves out only calls that lose exclusion -/

section Crowding

variable {c : Config} {env : Env}

/-- The steps of `main` until it is inside, if nobody holds the mutex. -/
private def MainPc.toEnter (c : Config) : MainPc → Nat
  | .enqueue _ | .unlock => 0
  | .lock _ => 1
  | .accept => 2
  | .signalAgain => 3
  | .signal => 4
  | .spawn => 5
  | .grow => 6
  | .service => 7
  | .create j => 3 + (c.n - j)

private theorem Move.enters {s t : Pool} {a : Action} (h : Move c env s a t)
    (ha : a.ofMain = true ∨ ∃ fd, a = .accept fd) (hl : s.locked = false)
    (hin : s.main.inside = false) :
    t.workers.countP WorkerPc.inside = s.workers.countP WorkerPc.inside ∧
      (t.main.inside = true ∨ t.locked = false) ∧ t.main.toEnter c < s.main.toEnter c := by
  cases h with
  | create hm hj =>
      refine ⟨by simp [WorkerPc.inside], Or.inr hl, ?_⟩
      simp only [hm, MainPc.toEnter]
      omega
  | setPool hm _ =>
      refine ⟨rfl, Or.inr hl, ?_⟩
      simp only [hm, MainPc.toEnter]
      omega
  | lock hm _ => exact ⟨rfl, Or.inl rfl, by simp [hm, MainPc.toEnter]⟩
  | enqueue hm | unlock hm =>
      rw [hm] at hin
      cases hin
  | accept hm _ _ | serviceNone hm _ | serviceSome hm _ | grow hm _ | growFull hm _ =>
      exact ⟨rfl, Or.inr hl, by simp [hm, MainPc.toEnter]⟩
  | spawn hm => exact ⟨by simp [WorkerPc.inside], Or.inr hl, by simp [hm, MainPc.toEnter]⟩
  | signal hm hi =>
      refine ⟨countP_set_same hi rfl, Or.inr hl, ?_⟩
      cases hmain : s.main <;> rw [hmain] at hm <;> cases hm <;> simp [MainPc.toEnter]
  | signalNobody hm _ =>
      refine ⟨rfl, Or.inr hl, ?_⟩
      cases hmain : s.main <;> rw [hmain] at hm <;> cases hm <;> simp [MainPc.toEnter]
  | start _ | callWait _ | wake _ _ | dequeueEmpty _ _ | dequeueAny _ _ | dequeue _ _
  | workerUnlock _ | retire _ _ | keep _ _ | serve _ _ | unfree _ | work _ | close _ | leave _
  | spurious _ _ =>
      rcases ha with ha | ⟨_, ha⟩ <;> cases ha

private theorem exists_new_descriptor (opened : List Int) : ∃ fd : Int, 0 ≤ fd ∧ fd ∉ opened := by
  obtain ⟨m, hm⟩ := Infinite.exists_notMem_finset (opened.map Int.toNat).toFinset
  refine ⟨m, Int.natCast_nonneg m, ?_⟩
  intro hmem
  apply hm
  simpa using ⟨(m : Int), hmem, Int.toNat_natCast m⟩

private theorem main_next (c : Config) (env : Env) {s : Pool} (hl : s.locked = false) :
    ∃ a t, (a.ofMain = true ∨ ∃ fd, a = .accept fd) ∧ step c env s a = some t := by
  by_cases hm : s.main = .accept
  · obtain ⟨fd, hfd, hnew⟩ := exists_new_descriptor s.opened
    exact ⟨.accept fd, _, Or.inr ⟨fd, rfl⟩, if_pos ⟨hm, hfd, hnew⟩⟩
  · obtain ⟨a, t, ha, ht⟩ := main_enabled c env hm fun _ _ => hl
    exact ⟨a, t, Or.inl ha, ht⟩

private theorem main_can_enter (c : Config) (env : Env) {s : Pool} (hl : s.locked = false) :
    ∃ t, Reachable (step c env) s t ∧ t.main.inside = true ∧
      t.workers.countP WorkerPc.inside = s.workers.countP WorkerPc.inside := by
  have hexists : ∃ t, Reachable (step c env) s t ∧
      (t.workers.countP WorkerPc.inside = s.workers.countP WorkerPc.inside ∧
        (t.main.inside = true ∨ t.locked = false)) ∧ t.main.inside = true := by
    refine reachable_of_decreasing (fun t => t.main.toEnter c) ?_ ⟨rfl, Or.inr hl⟩
    rintro t ⟨hw, hfree⟩ hout
    have hl := hfree.resolve_left hout
    obtain ⟨a, u, ha, hu⟩ := main_next c env hl
    obtain ⟨hw', hfree', hlt⟩ := (step_move hu).enters ha hl (by simpa using hout)
    exact ⟨a, u, hu, ⟨hw'.trans hw, hfree'⟩, hlt⟩
  obtain ⟨t, hreach, ⟨hw, _⟩, hin⟩ := hexists
  exact ⟨t, hreach, hin, hw⟩

private theorem woken_joins (c : Config) (env : Env) {t : Pool} {i : Nat}
    (hi : t.workers[i]? = some .woken) (hl : t.locked = false) (hm : t.main.inside = true) :
    ∃ u, Reachable (step c env) t u ∧ 2 ≤ u.inside := by
  refine ⟨{ t.goto i .dequeue with locked := true },
    Reachable.single (a := .worker i) (by simp [step, hi, workerStep, hl]), ?_⟩
  have hw := countP_set_enter hi (b := .dequeue) (p := WorkerPc.inside) rfl rfl
  change 2 ≤ t.main.inside.toNat + (t.workers.set i .dequeue).countP _
  rw [hm, Bool.toNat_true]
  omega

/-- After a call of `pthread_cond_wait` that does not meet the condition two threads can come to
be inside a queue operation. -/
theorem inside_twice_of_not_waitsApart {s t : Pool} {a : Action}
    (h : step c env s a = some t) (hbad : ¬WaitsApart env s a) :
    ∃ u, Reachable (step c env) t u ∧ 2 ≤ u.inside := by
  cases a with
  | worker i =>
      simp only [WaitsApart, Classical.not_imp, not_and_or] at hbad
      obtain ⟨hi, hbad⟩ := hbad
      have ht : t = { s.goto i .waiting with locked := false } := by
        simpa [step, hi, workerStep] using h.symm
      subst ht
      have hself : (s.workers.set i .waiting)[i]? = some .waiting := by
        rw [List.getElem?_set_self (List.getElem?_eq_some_iff.mp hi).1]
      rcases hbad with hw | hmain
      · have hcount := countP_set_same hi (b := .waiting) (p := WorkerPc.inside) rfl
        obtain ⟨u, hreach, hin, hu⟩ :=
          main_can_enter c env (s := { s.goto i .waiting with locked := false }) rfl
        refine ⟨u, hreach, ?_⟩
        change u.workers.countP _ = (s.workers.set i .waiting).countP _ at hu
        rw [Pool.inside, hin, Bool.toNat_true]
        omega
      · obtain ⟨hin, hwake⟩ := hmain
        rcases hwake with hspur | hwoken
        · have hstep : step c env { s.goto i .waiting with locked := false } (.spurious i) =
              some { (s.goto i .waiting).goto i .woken with locked := false } := by
            have henv : env.spurious = true := by simpa using hspur
            simp [step, Pool.goto, henv, hself]
          obtain ⟨u, hreach, hu⟩ := woken_joins c env (i := i)
            (t := { (s.goto i .waiting).goto i .woken with locked := false })
            (by simp [Pool.goto, (List.getElem?_eq_some_iff.mp hi).1]) rfl hin
          exact ⟨u, (Reachable.single hstep).trans hreach, hu⟩
        · obtain ⟨j, hj⟩ := List.mem_iff_getElem?.mp (not_not.mp hwoken)
          have hij : i ≠ j := by
            intro he
            subst he
            rw [hi] at hj
            cases hj
          refine woken_joins c env (i := j) (t := { s.goto i .waiting with locked := false })
            ?_ rfl hin
          change (s.workers.set i .waiting)[j]? = _
          rw [List.getElem?_set_ne hij, hj]
  | main | accept _ | signal _ | signalNobody | dequeue _ _ | spurious _ =>
      exact absurd trivial hbad

end Crowding

end SyssoftLabs.Lab6
