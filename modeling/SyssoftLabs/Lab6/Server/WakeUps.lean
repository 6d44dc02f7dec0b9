import SyssoftLabs.Lab6.Server.Accounting
import SyssoftLabs.Lab6.Server.Exclusion

/-!
# Lost wake-ups

A worker waits without looking at the queue again, and a signal given while nobody waits is
forgotten. A queued client is covered when a woken worker is on its way to the queue or a signal
is still to come. The three steps at which a client can lose its cover are named. In a run without
them a client stays queued only while the pool is exhausted; after one of them the server can come
to rest with a client that nobody serves.
-/

namespace SyssoftLabs.Lab6

open SyssoftLabs.Framework

def WorkerPc.blocked : WorkerPc → Bool
  | .waiting => true
  | _ => false

/-- Woken, and not yet past its `queue_dequeue`. -/
def WorkerPc.onItsWay : WorkerPc → Bool
  | .woken | .dequeue => true
  | _ => false

/-- The signals `main` still gives before it blocks in `accept`. -/
def MainPc.signalsLeft : MainPc → Nat
  | .create _ | .accept => 0
  | .lock _ | .enqueue _ | .unlock | .service | .grow | .spawn | .signal => 2
  | .signalAgain => 1

/-- The clients in the queue and the one `main` is about to put there. -/
def Pool.queued (s : Pool) : Nat :=
  s.clients.length + match s.main with | .lock _ | .enqueue _ => 1 | _ => 0

def Pool.waiting (s : Pool) : Nat := s.workers.countP WorkerPc.blocked

def Pool.onItsWay (s : Pool) : Nat := s.workers.countP WorkerPc.onItsWay

/-- The step loses no wake-up. The second signal for a client leaves every queued client with a
worker on its way, unless `pool_size = k`. A worker starts to wait only if the signals left are
enough for the queued clients without a worker on its way, or for all waiting workers and this
one. No worker retires while `main` is in `accept` and a queued client has no worker on its
way. -/
def KeepsCover (c : Config) (s : Pool) : Action → Prop
  | .signal _ => s.main = .signalAgain → s.poolSize = c.k ∨ s.queued ≤ s.onItsWay + 1
  | .signalNobody => s.main = .signalAgain → s.poolSize = c.k ∨ s.queued ≤ s.onItsWay
  | .worker i =>
      (s.workers[i]? = some .callWait →
        s.queued ≤ s.onItsWay + s.main.signalsLeft ∨ s.waiting < s.main.signalsLeft) ∧
      (s.workers[i]? = some (.test (-1)) → c.n < s.poolSize →
        s.main.signalsLeft = 0 → s.queued ≤ s.onItsWay)
  | _ => True

instance (c : Config) (s : Pool) : ∀ a, Decidable (KeepsCover c s a)
  | .worker _ => inferInstanceAs (Decidable (_ ∧ _))
  | .signal _ | .signalNobody => inferInstanceAs (Decidable (_ → _))
  | .main | .accept _ | .dequeue .. | .spurious _ => inferInstanceAs (Decidable True)

/-- Every queued client is covered, or every waiting worker is about to be woken; and the latter
with nobody waiting and `pool_size = k` once `main` has no signal left. -/
def Covered (c : Config) (s : Pool) : Prop :=
  s.queued ≤ s.onItsWay + s.main.signalsLeft ∨
    (s.waiting ≤ s.main.signalsLeft ∧ (s.main.signalsLeft = 0 → s.poolSize = c.k))

/-- Nobody is queued while the first workers are created. -/
def NoEarlyClients (s : Pool) : Prop := ∀ j, s.main = .create j → s.clients = []

private theorem noEarlyClients_step {c : Config} {env : Env} {s t : Pool} {a : Action}
    (h : Move c env s a t) (hs : NoEarlyClients s) : NoEarlyClients t := by
  intro j hj
  cases h with
  | create hm _ => exact hs _ hm
  | setPool _ _ | lock _ _ | enqueue _ | unlock _ | serviceNone _ _ | serviceSome _ _ | grow _ _
  | growFull _ _ | spawn _ | accept _ _ _ => cases hj
  | signal hm _ | signalNobody hm _ =>
      cases hmain : s.main <;> rw [hmain] at hm <;> cases hm <;> cases hj
  | dequeue _ hq =>
      have hnone := hs j hj
      rw [hq] at hnone
      cases hnone
  | start _ | callWait _ | wake _ _ | dequeueEmpty _ _ | dequeueAny _ _ | workerUnlock _
  | retire _ _ | keep _ _ | serve _ _ | unfree _ | work _ | close _ | leave _ | spurious _ _ =>
      exact hs j hj

/-- What the cover of the clients rests on in every run. -/
structure Orderly (c : Config) (s : Pool) : Prop where
  counted : PoolCounted c s
  early : NoEarlyClients s
  locked : s.locked = true → 0 < s.inside

private theorem orderly_step {c : Config} {env : Env} {s t : Pool} {a : Action}
    (h : Move c env s a t) (hs : Orderly c s) : Orderly c t :=
  ⟨poolCounted_step h hs.counted, noEarlyClients_step h hs.early, locked_step h hs.locked⟩

private theorem orderly_init (c : Config) : Orderly c Pool.init := by
  refine ⟨reachable_poolCounted (Reachable.refl (step c ⟨false, false⟩) _), fun _ _ => rfl, ?_⟩
  intro hl
  cases hl

/-- A step that brings no new client and wakes nobody without a signal. -/
def Action.settles : Action → Bool
  | .accept _ | .spurious _ => false
  | _ => true

private theorem Action.settles_of_ofMain {a : Action} (ha : a.ofMain = true) :
    a.settles = true := by
  cases a with
  | accept _ | spurious _ => cases ha
  | _ => rfl

private theorem covered_congr {c : Config} {s t : Pool} {P : Prop} (hok : P)
    (hq : t.queued + s.onItsWay = s.queued + t.onItsWay) (hw : t.waiting = s.waiting)
    (hleft : t.main.signalsLeft = s.main.signalsLeft)
    (hp : t.main.signalsLeft = 0 → t.poolSize = s.poolSize) : Covered c t ↔ Covered c s ∧ P := by
  rw [and_iff_left hok, Covered, Covered, hw, hleft]
  rw [hleft] at hp
  omega

private theorem keepsCover_worker {c : Config} {s : Pool} {i : Nat} {pc : WorkerPc}
    (hi : s.workers[i]? = some pc) (hcall : pc ≠ .callWait)
    (htest : pc = .test (-1) → ¬c.n < s.poolSize) : KeepsCover c s (.worker i) := by
  rw [KeepsCover, hi]
  refine ⟨fun h => absurd (Option.some.inj h) hcall, fun h hsize => ?_⟩
  exact absurd hsize (htest (Option.some.inj h))

private theorem covered_step_iff {c : Config} {b : Bool} {s t : Pool} {a : Action}
    (h : Move c (.fifo b) s a t) (ha : a.settles = true) (hs : Orderly c s) :
    Covered c t ↔ Covered c s ∧ KeepsCover c s a := by
  cases h with
  | @create j hm _ =>
      have hzero := hs.early j hm
      refine covered_congr trivial ?_ ?_ ?_ fun _ => rfl
      all_goals simp [Pool.queued, Pool.onItsWay, Pool.waiting, WorkerPc.blocked,
        WorkerPc.onItsWay, MainPc.signalsLeft, hm, hzero]
  | @setPool j hm _ =>
      have hzero := hs.early j hm
      refine iff_of_true (Or.inl ?_) ⟨Or.inl ?_, trivial⟩
      all_goals simp [Pool.queued, hm, hzero]
  | spawn hm =>
      refine covered_congr trivial ?_ ?_ ?_ fun h => by cases h
      all_goals simp [Pool.queued, Pool.onItsWay, Pool.waiting, WorkerPc.blocked,
        WorkerPc.onItsWay, MainPc.signalsLeft, hm]
  | lock hm _ | enqueue hm | unlock hm | serviceNone hm _ | serviceSome hm _ | growFull hm _
  | grow hm _ =>
      refine covered_congr trivial ?_ rfl ?_ fun h => by cases h
      all_goals simp [Pool.queued, Pool.onItsWay, MainPc.signalsLeft, hm]
  | @signal i m hm hi =>
      have hw := countP_set_leave hi (b := .woken) (p := WorkerPc.blocked) rfl rfl
      have hp := countP_set_enter hi (b := .woken) (p := WorkerPc.onItsWay) rfl rfl
      cases hmain : s.main with (rw [hmain] at hm; cases hm)
      | signal | signalAgain =>
          simp only [Covered, KeepsCover, Pool.queued, Pool.onItsWay, Pool.waiting, Pool.goto,
            MainPc.signalsLeft, hmain, reduceCtorEq, forall_const, false_imp_iff, and_true]
          omega
  | @signalNobody m hm hw =>
      have hnone : s.waiting = 0 := by
        rw [Pool.waiting, List.countP_eq_zero]
        intro pc hmem hblocked
        cases pc <;> simp [WorkerPc.blocked] at hblocked
        exact hw hmem
      rw [Pool.waiting] at hnone
      cases hmain : s.main with (rw [hmain] at hm; cases hm)
      | signal | signalAgain =>
          simp only [Covered, KeepsCover, Pool.queued, Pool.onItsWay, Pool.waiting,
            MainPc.signalsLeft, hmain, hnone, reduceCtorEq, forall_const, false_imp_iff, and_true]
          omega
  | @callWait i hi =>
      have hw := countP_set_enter hi (b := .waiting) (p := WorkerPc.blocked) rfl rfl
      have hp := countP_set_same hi (b := .waiting) (p := WorkerPc.onItsWay) rfl
      simp only [Covered, KeepsCover, Pool.queued, Pool.onItsWay, Pool.waiting, Pool.goto, hw, hp,
        hi, Option.some.injEq, reduceCtorEq, forall_const, false_imp_iff, and_true]
      omega
  | @retire i hi hsize =>
      have hw := countP_set_same hi (b := .leave) (p := WorkerPc.blocked) rfl
      have hp := countP_set_same hi (b := .leave) (p := WorkerPc.onItsWay) rfl
      have hdec := sizeDec_of_pos (x := s.poolSize) (by omega)
      have hk := hs.counted.le_k
      simp only [Covered, KeepsCover, Pool.queued, Pool.onItsWay, Pool.waiting, Pool.goto, hw, hp,
        hi, hdec, hsize, Option.some.injEq, reduceCtorEq, forall_const, false_imp_iff, true_and]
      omega
  | dequeueAny he _ => cases he
  | @dequeue i fd rest hi hq =>
      have hw := countP_set_same hi (b := .unlock fd) (p := WorkerPc.blocked) rfl
      have hp := countP_set_leave hi (b := .unlock fd) (p := WorkerPc.onItsWay) rfl rfl
      refine covered_congr trivial ?_ hw rfl fun _ => rfl
      simp only [Pool.queued, Pool.onItsWay, Pool.goto, hq, List.length_cons]
      omega
  | @dequeueEmpty i hi hq =>
      -- at most the client in the hands of `main` is queued, and its two signals are to come
      refine iff_of_true (Or.inl ?_) ⟨Or.inl ?_, trivial⟩
      all_goals
        cases hmain : s.main <;>
          simp only [Pool.queued, Pool.goto, MainPc.signalsLeft, hmain, hq, List.length_nil] <;>
          omega
  | keep hi hsize =>
      exact covered_congr (keepsCover_worker hi (by simp) fun _ => hsize)
        (congrArg _ (countP_set_same hi (by rfl)).symm) (countP_set_same hi (by rfl)) rfl
        fun _ => rfl
  | serve hi hclient =>
      exact covered_congr
        (keepsCover_worker hi (by simp) fun h => absurd (by simpa using h) hclient)
        (congrArg _ (countP_set_same hi (by rfl)).symm) (countP_set_same hi (by rfl)) rfl
        fun _ => rfl
  | start hi | wake hi _ | workerUnlock hi | unfree hi | work hi | close hi | leave hi =>
      exact covered_congr (keepsCover_worker hi (by simp) (by simp))
        (congrArg _ (countP_set_same hi (by rfl)).symm) (countP_set_same hi (by rfl)) rfl
        fun _ => rfl
  | accept _ _ _ | spurious _ _ => cases ha

private theorem covered_step {c : Config} {b : Bool} {s t : Pool} {a : Action}
    (h : Move c (.fifo b) s a t) (hok : KeepsCover c s a) (hs : Orderly c s) (hc : Covered c s) :
    Covered c t := by
  by_cases ha : a.settles = true
  · exact (covered_step_iff h ha hs).mpr ⟨hc, hok⟩
  · rw [Covered] at hc ⊢
    cases h with
    | accept hm _ _ =>
        simp only [Pool.queued, Pool.onItsWay, Pool.waiting, MainPc.signalsLeft, hm] at hc ⊢
        omega
    | @spurious i _ hi =>
        have hw := countP_set_leave hi (b := .woken) (p := WorkerPc.blocked) rfl rfl
        have hp := countP_set_enter hi (b := .woken) (p := WorkerPc.onItsWay) rfl rfl
        simp only [Pool.queued, Pool.onItsWay, Pool.waiting, Pool.goto] at hc ⊢
        omega
    | _ => exact absurd rfl ha

/-- `main` is blocked in `accept`, and every worker in the wait, with no wake-up pending, or inside
`do_work`. -/
def Quiescent (s : Pool) : Prop :=
  s.main = .accept ∧
    ∀ pc ∈ s.workers, pc = .waiting ∨ (∃ client, pc = .work client) ∨ pc = .exited

private theorem Quiescent.covered_iff {c : Config} {s : Pool} (h : Quiescent s) :
    Covered c s ↔ (s.clients ≠ [] → s.poolSize = c.k ∧ .waiting ∉ s.workers) := by
  have hway : s.onItsWay = 0 := by
    rw [Pool.onItsWay, List.countP_eq_zero]
    intro pc hmem
    rcases h.2 pc hmem with rfl | ⟨_, rfl⟩ | rfl <;> simp [WorkerPc.onItsWay]
  have hwait : s.waiting = 0 ↔ .waiting ∉ s.workers := by
    rw [Pool.waiting, List.countP_eq_zero]
    constructor
    · intro hnone hmem
      exact hnone _ hmem rfl
    · intro hnone pc hmem hblocked
      cases pc <;> cases hblocked
      exact hnone hmem
  have hlen := List.length_eq_zero_iff (l := s.clients)
  rw [← hwait, ne_eq, ← hlen, ← or_iff_not_imp_left]
  simp only [Covered, Pool.queued, hway, h.1, MainPc.signalsLeft, forall_const]
  omega

/-- In a run that loses no wake-up, a client stays queued in a quiescent state only because the
pool is exhausted. -/
theorem queued_only_if_exhausted (c : Config) (spurious : Bool) (as : List Action) {s : Pool}
    (h : run (step c (.fifo spurious)) Pool.init as = some s)
    (hok : Guarded (step c (.fifo spurious)) (KeepsCover c) Pool.init as)
    (hquiet : Quiescent s) (hne : s.clients ≠ []) :
    s.poolSize = c.k ∧ .waiting ∉ s.workers := by
  have hcovered : Orderly c s ∧ Covered c s :=
    run_invariant_of_guarded (I := fun s => Orderly c s ∧ Covered c s)
      (fun _ _ _ hs ha hst => ⟨orderly_step (step_move hst) hs.1,
        covered_step (step_move hst) ha hs.1 hs.2⟩) h hok
      ⟨orderly_init c, Or.inl (Nat.zero_le _)⟩
  exact hquiet.covered_iff.mp hcovered.2 hne

/-- The first client comes before the only worker waits: both signals are forgotten. -/
def earlyClientRun : List Action :=
  [.main, .main, .accept 4, .main, .main, .main, .main, .main, .signalNobody, .signalNobody,
    .worker 0, .worker 0]

theorem queued_only_if_exhausted_fails :
    ¬∀ (c : Config) (s : Pool), Reachable (step c (.fifo false)) Pool.init s → Quiescent s →
      s.clients ≠ [] → s.poolSize = c.k ∧ .waiting ∉ s.workers := by
  intro h
  have hlost := (h ⟨1, 1, by decide, by decide, by decide⟩
    ⟨.accept, [.waiting], false, [4], 1, 1, [4], [4], [], [], []⟩
    ⟨earlyClientRun, by decide⟩ ⟨rfl, by simp⟩ (by simp)).2
  simp at hlost

/-- With one worker, which serves the first client, the second client is queued. -/
theorem queued_only_if_exhausted_second :
    let s : Pool := ⟨.accept, [.work 4], false, [5], 1, 0, [4, 5], [4, 5], [(0, 4)], [(0, 4)], []⟩
    s.poolSize = 1 ∧ .waiting ∉ s.workers :=
  queued_only_if_exhausted ⟨1, 1, by decide, by decide, by decide⟩ false
    [.main, .main, .worker 0, .worker 0, .accept 4, .main, .main, .main, .main, .signal 0,
      .signalNobody, .worker 0, .dequeue 0 4, .worker 0, .worker 0, .worker 0,
      .accept 5, .main, .main, .main, .main, .main, .signalNobody, .signalNobody]
    (by decide) (by decide) ⟨rfl, by simp⟩ (by simp)

/-! ## The condition leaves out only steps that leave a client behind -/

section Settling

/-- The steps of `main` until it is in `accept`, with room for the workers it wakes or creates. -/
private def MainPc.toRest (c : Config) : MainPc → Nat
  | .accept => 0
  | .signalAgain => 10
  | .signal => 20
  | .spawn => 23
  | .grow => 24
  | .service => 25
  | .unlock => 26
  | .enqueue _ => 27
  | .lock _ => 28
  | .create j => 1 + 3 * (c.n - j)

/-- The steps of a worker until it waits or has ended. -/
private def WorkerPc.toRest : WorkerPc → Nat
  | .waiting | .exited => 0
  | .callWait | .leave => 1
  | .start => 2
  | .close _ => 3
  | .work _ => 4
  | .unfree _ => 5
  | .test _ => 6
  | .unlock _ => 7
  | .dequeue => 8
  | .woken => 9

private def Pool.toRest (c : Config) (s : Pool) : Nat :=
  s.main.toRest c + (s.workers.map WorkerPc.toRest).sum

private theorem toRest_goto {l : List WorkerPc} {i m : Nat} {pc pc' : WorkerPc}
    (hi : l[i]? = some pc) (hlt : pc'.toRest < pc.toRest) :
    m + ((l.set i pc').map WorkerPc.toRest).sum < m + (l.map WorkerPc.toRest).sum := by
  have hsum := sum_map_set_add (b := pc') WorkerPc.toRest hi
  omega

private theorem toRest_step {c : Config} {b : Bool} {s t : Pool} {a : Action}
    (h : Move c (.fifo b) s a t) (ha : a.settles = true) : t.toRest c < s.toRest c := by
  cases h with
  | create hm _ | setPool hm _ | spawn hm =>
      simp only [Pool.toRest, MainPc.toRest, WorkerPc.toRest, hm, List.map_append, List.sum_append,
        List.map_cons, List.map_nil, List.sum_cons, List.sum_nil]
      omega
  | lock hm _ | enqueue hm | unlock hm | serviceNone hm _ | serviceSome hm _ | grow hm _
  | growFull hm _ =>
      simp [Pool.toRest, MainPc.toRest, hm]
  | @signal i m hm hi =>
      have hsum := sum_map_set_add (b := .woken) WorkerPc.toRest hi
      cases hmain : s.main with (rw [hmain] at hm; cases hm)
      | signal | signalAgain =>
          simp only [Pool.toRest, Pool.goto, MainPc.toRest, WorkerPc.toRest, hmain] at hsum ⊢
          omega
  | signalNobody hm _ =>
      cases hmain : s.main with (rw [hmain] at hm; cases hm)
      | signal | signalAgain => simp [Pool.toRest, MainPc.toRest, hmain]
  | start hi | callWait hi | wake hi _ | dequeueEmpty hi _ | dequeue hi _ | workerUnlock hi
  | retire hi _ | keep hi _ | serve hi _ | unfree hi | work hi | close hi | leave hi =>
      exact toRest_goto hi (by simp [WorkerPc.toRest])
  | dequeueAny he _ => cases he
  | accept _ _ _ | spurious _ _ => cases ha

private theorem worker_enabled (c : Config) (b : Bool) {s : Pool} {i : Nat} {pc : WorkerPc}
    (hi : s.workers[i]? = some pc) (hwait : pc ≠ .waiting) (hexit : pc ≠ .exited)
    (hlock : pc = .woken → s.locked = false) :
    ∃ a t, a.settles = true ∧ step c (.fifo b) s a = some t := by
  cases pc with
  | waiting => exact absurd rfl hwait
  | exited => exact absurd rfl hexit
  | dequeue =>
      cases hq : s.clients with
      | nil => exact ⟨.dequeue i (-1), _, rfl, by simp [step, hi, dequeueStep, hq]; rfl⟩
      | cons fd rest => exact ⟨.dequeue i fd, _, rfl, by simp [step, hi, dequeueStep, hq]; rfl⟩
  | woken => exact ⟨.worker i, _, rfl, by simp [step, hi, workerStep, hlock rfl]; rfl⟩
  | test client =>
      by_cases hc : client = -1
      · by_cases hp : s.poolSize > c.n
        · exact ⟨.worker i, _, rfl, by simp [step, hi, workerStep, hc, hp]; rfl⟩
        · exact ⟨.worker i, _, rfl, by simp [step, hi, workerStep, hc, hp]; rfl⟩
      · exact ⟨.worker i, _, rfl, by simp [step, hi, workerStep, hc]; rfl⟩
  | start | callWait | unlock client | unfree client | work client | close client | leave =>
      exact ⟨.worker i, _, rfl, by simp [step, hi, workerStep]; rfl⟩

private theorem settling_enabled (c : Config) (b : Bool) {s : Pool}
    (hlocked : s.locked = true → 0 < s.inside) (hquiet : ¬Quiescent s) :
    ∃ a t, a.settles = true ∧ step c (.fifo b) s a = some t := by
  have hmain : s.main ≠ .accept → (∀ fd, s.main = .lock fd → s.locked = false) →
      ∃ a t, a.settles = true ∧ step c (.fifo b) s a = some t := by
    intro haccept hlock
    obtain ⟨a, t, ha, ht⟩ := main_enabled c (.fifo b) haccept hlock
    exact ⟨a, t, Action.settles_of_ofMain ha, ht⟩
  cases hl : s.locked with
  | true =>
      by_cases hin : s.main.inside = true
      · refine hmain ?_ ?_
        · intro hm
          rw [hm] at hin
          cases hin
        · intro fd hm
          rw [hm] at hin
          cases hin
      · have hpos := hlocked hl
        rw [Pool.inside, Bool.eq_false_iff.mpr hin] at hpos
        obtain ⟨pc, hmem, hpc⟩ := List.countP_pos_iff.mp (by simpa using hpos)
        obtain ⟨i, hi⟩ := List.mem_iff_getElem?.mp hmem
        refine worker_enabled c b hi ?_ ?_ ?_
        all_goals
          intro hpc'
          rw [hpc'] at hpc
          cases hpc
  | false =>
      by_cases hm : s.main = .accept
      · obtain ⟨pc, hmem, hpc⟩ : ∃ pc ∈ s.workers,
            ¬(pc = .waiting ∨ (∃ client, pc = .work client) ∨ pc = .exited) := by
          simpa [Quiescent, hm] using hquiet
        obtain ⟨i, hi⟩ := List.mem_iff_getElem?.mp hmem
        exact worker_enabled c b hi (fun h => hpc (Or.inl h)) (fun h => hpc (Or.inr (Or.inr h)))
          fun _ => hl
      · exact hmain hm fun _ _ => hl

/-- After a step that loses a wake-up the server can come to rest with a client queued though the
pool is not exhausted. -/
theorem client_left_behind_of_not_keepsCover {c : Config} {b : Bool} {s t : Pool} {a : Action}
    (hs : Reachable (step c (.fifo b)) Pool.init s) (h : step c (.fifo b) s a = some t)
    (hbad : ¬KeepsCover c s a) :
    ∃ u, Reachable (step c (.fifo b)) t u ∧ Quiescent u ∧ u.clients ≠ [] ∧
      ¬(u.poolSize = c.k ∧ .waiting ∉ u.workers) := by
  have horderly : Orderly c s :=
    hs.invariant (fun _ _ _ hs ha => orderly_step (step_move ha) hs) (orderly_init c)
  have ha : a.settles = true := by
    cases a with
    | accept _ | spurious _ => exact absurd trivial hbad
    | _ => rfl
  have hexists : ∃ u, Reachable (step c (.fifo b)) t u ∧ (Orderly c u ∧ ¬Covered c u) ∧
      Quiescent u := by
    refine reachable_of_decreasing (fun u => u.toRest c) ?_
      ⟨orderly_step (step_move h) horderly, ?_⟩
    · rintro u ⟨hu, hlost⟩ hquiet
      obtain ⟨a, v, ha, hv⟩ := settling_enabled c b hu.locked hquiet
      have hmove := step_move hv
      exact ⟨a, v, hv, ⟨orderly_step hmove hu, fun hc =>
        hlost ((covered_step_iff hmove ha hu).mp hc).1⟩, toRest_step hmove ha⟩
    · exact fun hc => hbad ((covered_step_iff (step_move h) ha horderly).mp hc).2
  obtain ⟨u, hreach, ⟨-, hlost⟩, hquiet⟩ := hexists
  rw [hquiet.covered_iff, Classical.not_imp] at hlost
  exact ⟨u, hreach, hquiet, hlost⟩

end Settling

end SyssoftLabs.Lab6
