import SyssoftLabs.Lab5.LateInit
import SyssoftLabs.Lab5.Swapping

/-!
# The orbit of the shared string

The threads of `multithread7` under its reader-writer lock, which is taken as initialised. Writers
reverse the string or swap its case, readers count its capital letters and print the number behind
their sections. There may be any number of threads of each kind.
-/

namespace SyssoftLabs.Lab5

open SyssoftLabs.Framework

variable {len : Nat}

/-! ## The threads -/

/-- Where a thread that counts stands. -/
inductive Tally (len : Nat)
  | outside
  | inside (l : Counting len)
  | print (cnt : Nat)
deriving DecidableEq, Repr

/-- A thread, `none` outside of its section. -/
inductive Worker (len : Nat)
  | reverse (inside : Option (Reversing len))
  | change (inside : Option (Swapping len))
  | count (stage : Tally len)
deriving DecidableEq, Repr

/-- The function of a thread. -/
inductive Job
  | reverse
  | change
  | count
deriving DecidableEq, Repr

def Job.worker : Job → Worker len
  | .reverse => .reverse none
  | .change => .change none
  | .count => .count .outside

namespace Worker

/-- Inside a section that writes. -/
def writes : Worker len → Bool
  | .reverse inside => inside.isSome
  | .change inside => inside.isSome
  | .count _ => false

/-- Inside a section that reads. -/
def reads : Worker len → Bool
  | .count (.inside _) => true
  | _ => false

end Worker

/-- A step of a writer: `wlock`, a step of its section, or `unlock`. -/
def writerStep {Local : Type} (body : Section (Toy len) Local) (lock : RwLock) (toy : Toy len) :
    Option Local → Option (Option Local × RwLock × Toy len)
  | none => (lock.acquire .write).map fun lock => (some body.start, lock, toy)
  | some l =>
      match body.step l toy with
      | some (l, toy) => some (some l, lock, toy)
      | none => some (none, lock.release, toy)

/-- The section ends with this step. -/
def ends {Local : Type} (before after : Option Local) : Nat :=
  if before.isSome ∧ after.isNone then 1 else 0

structure Orbit (len : Nat) where
  toy : Toy len
  lock : RwLock
  workers : List (Worker len)
  /-- How many sections of `reverse` and of `change_register` are over. -/
  reversals : Nat
  changes : Nat
  /-- The numbers that `count_capitalized` printed. -/
  printed : List Nat
deriving DecidableEq, Repr

namespace Orbit

def start (jobs : List Job) (toy : Toy len) : Orbit len :=
  ⟨toy, .free, jobs.map Job.worker, 0, 0, []⟩

/-- A step of the thread with this index. -/
def step (s : Orbit len) (i : Nat) : Option (Orbit len) :=
  match s.workers[i]? with
  | none => none
  | some (.reverse inside) =>
      (writerStep (reverse len) s.lock s.toy inside).map fun (inside', lock, toy) =>
        { s with
          toy := toy, lock := lock, workers := s.workers.set i (.reverse inside')
          reversals := s.reversals + ends inside inside' }
  | some (.change inside) =>
      (writerStep (swapRegister len) s.lock s.toy inside).map fun (inside', lock, toy) =>
        { s with
          toy := toy, lock := lock, workers := s.workers.set i (.change inside')
          changes := s.changes + ends inside inside' }
  | some (.count .outside) =>
      (s.lock.acquire .read).map fun lock =>
        { s with lock := lock, workers := s.workers.set i (.count (.inside (.loop 0 0))) }
  | some (.count (.inside l)) =>
      match l.step s.toy with
      | .inl l => some { s with workers := s.workers.set i (.count (.inside l)) }
      | .inr cnt =>
          some { s with lock := s.lock.release, workers := s.workers.set i (.count (.print cnt)) }
  | some (.count (.print cnt)) =>
      some { s with
        workers := s.workers.set i (.count .outside), printed := s.printed ++ [cnt] }

end Orbit

/-! ## The orbit -/

/-- The string reversed if `a` is odd, in the other case if `b` is. -/
def orbit (a b : Nat) (toy : Toy len) : Toy len :=
  Vector.reverse^[a % 2] ((Vector.map swapCase)^[b % 2] toy)

private theorem map_reverse_swapCase (toy : Toy len) :
    toy.reverse.map swapCase = (toy.map swapCase).reverse := by
  apply Vector.ext
  intro k hk
  simp

theorem orbit_reverse (a b : Nat) (toy : Toy len) :
    orbit (a + 1) b toy = (orbit a b toy).reverse := by
  unfold orbit
  rcases Nat.mod_two_eq_zero_or_one a with ha | ha
  · have hodd : (a + 1) % 2 = 1 := by omega
    rw [ha, hodd]
    rfl
  · have heven : (a + 1) % 2 = 0 := by omega
    rw [ha, heven]
    exact (Vector.reverse_reverse _).symm

theorem orbit_swap (a b : Nat) (toy : Toy len) :
    orbit a (b + 1) toy = (orbit a b toy).map swapCase := by
  have hswap : (Vector.map swapCase)^[(b + 1) % 2] toy =
      ((Vector.map swapCase)^[b % 2] toy).map swapCase := by
    rcases Nat.mod_two_eq_zero_or_one b with hb | hb
    · have hodd : (b + 1) % 2 = 1 := by omega
      rw [hb, hodd]
      rfl
    · have heven : (b + 1) % 2 = 0 := by omega
      rw [hb, heven]
      exact (map_swapCase_twice toy).symm
  unfold orbit
  rw [hswap]
  rcases Nat.mod_two_eq_zero_or_one a with ha | ha
  · rw [ha]
    rfl
  · rw [ha]
    exact (map_reverse_swapCase _).symm

private theorem capitals_orbit (a b : Nat) (toy : Toy len) :
    capitals (orbit a b toy) = capitals toy ∨ capitals (orbit a b toy) = smalls toy := by
  have hreverse : ∀ u : Toy len, capitals (Vector.reverse^[a % 2] u) = capitals u := by
    intro u
    rcases Nat.mod_two_eq_zero_or_one a with ha | ha
    · rw [ha]
      rfl
    · rw [ha]
      exact capitals_reverse u
  rw [orbit, hreverse]
  rcases Nat.mod_two_eq_zero_or_one b with hb | hb
  · left
    rw [hb]
    rfl
  · right
    rw [hb]
    exact capitals_swap toy

/-! ## The invariant -/

section

variable {Local : Type} {body : Section (Toy len) Local} {lock lock' : RwLock}
  {toy toy' : Toy len} {inside inside' : Option Local}

/-- A writer enters its section, works in it, or leaves it with nothing left to do. -/
theorem writerStep_cases (h : writerStep body lock toy inside = some (inside', lock', toy')) :
    (inside = none ∧ inside' = some body.start ∧ lock.writer = false ∧ lock.readers = 0 ∧
      lock' = { lock with writer := true } ∧ toy' = toy) ∨
    (∃ l l', inside = some l ∧ inside' = some l' ∧ lock' = lock ∧
      body.rest l' toy' = body.rest l toy) ∨
    ∃ l, inside = some l ∧ inside' = none ∧ lock' = lock.release ∧ toy' = toy ∧
      body.rest l toy = toy := by
  cases inside with
  | none =>
      rw [writerStep, Option.map_eq_some_iff] at h
      obtain ⟨taken, htaken, heq⟩ := h
      cases heq
      rw [RwLock.acquire] at htaken
      split at htaken
      · cases htaken
      · next hfree =>
          cases htaken
          rw [not_or, Bool.not_eq_true, Nat.not_lt, Nat.le_zero] at hfree
          exact Or.inl ⟨rfl, rfl, hfree.1, hfree.2, rfl, rfl⟩
  | some l =>
      rw [writerStep] at h
      split at h
      · next hstep =>
          cases h
          exact Or.inr (Or.inl ⟨l, _, rfl, rfl, rfl, body.rest_step _ _ _ _ hstep⟩)
      · next hstep =>
          cases h
          exact Or.inr (Or.inr ⟨l, rfl, rfl, rfl, rfl, body.rest_end _ _ hstep⟩)

end

/-- What a thread is at: a writer will leave the string on its orbit, a reader counts what it found
at the lock. -/
def Worker.Doing (toy : Toy len) (s : Orbit len) : Worker len → Prop
  | .reverse (some l) => (Lab5.reverse len).rest l s.toy = orbit (s.reversals + 1) s.changes toy
  | .change (some l) => (swapRegister len).rest l s.toy = orbit s.reversals (s.changes + 1) toy
  | .count (.inside l) => l.total s.toy = capitals s.toy
  | .count (.print n) => n = capitals toy ∨ n = smalls toy
  | .reverse none | .change none | .count .outside => True

/-- The lock knows who is inside, and the string is on its orbit while no writer is. -/
structure InOrbit (toy : Toy len) (s : Orbit len) : Prop where
  writers : s.workers.countP Worker.writes = s.lock.writer.toNat
  readers : s.workers.countP Worker.reads = s.lock.readers
  apart : s.lock.writer = true → s.lock.readers = 0
  string : s.lock.writer = false → s.toy = orbit s.reversals s.changes toy
  doing : ∀ w ∈ s.workers, w.Doing toy s
  printed : ∀ n ∈ s.printed, n = capitals toy ∨ n = smalls toy

variable {toy toy' : Toy len} {s t : Orbit len} {i : Nat} {a b w : Worker len}

theorem InOrbit.start (jobs : List Job) (toy : Toy len) : InOrbit toy (Orbit.start jobs toy) := by
  have hnone : ∀ p : Worker len → Bool, (∀ job : Job, p job.worker = false) →
      (jobs.map fun job => (job.worker : Worker len)).countP p = 0 := by
    intro p hp
    rw [List.countP_eq_zero]
    intro w hw
    obtain ⟨job, -, rfl⟩ := List.mem_map.mp hw
    simp [hp job]
  refine ⟨hnone _ fun job => by cases job <;> rfl, hnone _ fun job => by cases job <;> rfl, ?_,
    fun _ => rfl, ?_, ?_⟩
  · intro h
    cases h
  · intro w hw
    obtain ⟨job, -, rfl⟩ := List.mem_map.mp hw
    cases job <;> trivial
  · intro n hn
    cases hn

theorem Worker.Doing.outside (h : w.Doing toy s) (hwrites : w.writes = false)
    (hreads : w.reads = false) : w.Doing toy t := by
  cases w with
  | reverse inside =>
      cases inside with
      | none => trivial
      | some l => cases hwrites
  | change inside =>
      cases inside with
      | none => trivial
      | some l => cases hwrites
  | count stage =>
      cases stage with
      | outside => trivial
      | inside l => cases hreads
      | print n => exact h

private theorem InOrbit.doing_set (hs : InOrbit toy s) (hb : b.Doing toy t) (htoy : t.toy = s.toy)
    (hreversals : t.reversals = s.reversals) (hchanges : t.changes = s.changes) :
    ∀ w ∈ s.workers.set i b, w.Doing toy t := by
  intro w hw
  rcases of_mem_set hw with rfl | ⟨j, -, hj⟩
  · exact hb
  · have hold := hs.doing w (List.mem_of_getElem? hj)
    unfold Worker.Doing at hold ⊢
    rw [htoy, hreversals, hchanges]
    exact hold

/-! ## Steps of writers -/

theorem InOrbit.enter (hs : InOrbit toy s) (hi : s.workers[i]? = some a) (ha : a.writes = false)
    (hb : b.writes = true) (hreads : a.reads = b.reads) (hfree : s.lock.writer = false)
    (hnone : s.lock.readers = 0) (hdoing : b.Doing toy s) :
    InOrbit toy { s with
      lock := { s.lock with writer := true }
      workers := s.workers.set i b } := by
  refine ⟨?_, ?_, fun _ => hnone, ?_, hs.doing_set hdoing rfl rfl rfl, hs.printed⟩
  · have hw := countP_set_enter hi ha hb
    rw [hs.writers, hfree] at hw
    exact hw
  · exact (countP_set_same hi hreads).trans hs.readers
  · intro h
    cases h

/-- A writer inside its section is alone in it. -/
theorem InOrbit.alone (hs : InOrbit toy s) (hi : s.workers[i]? = some a) (ha : a.writes = true) :
    s.lock.writer = true ∧
      ∀ w ∈ s.workers.set i b, w = b ∨ w.Doing toy s ∧ w.writes = false ∧ w.reads = false := by
  have hpos := countP_pos_of_getElem? (p := Worker.writes) hi ha
  have hwriters := hs.writers
  have hlock : s.lock.writer = true := by
    rw [← Bool.not_eq_false]
    intro hfree
    rw [hfree, Bool.toNat_false] at hwriters
    omega
  have hone : s.workers.countP Worker.writes ≤ 1 := by
    rw [hwriters, hlock]
    exact Nat.le_refl 1
  have hreaders := hs.readers
  rw [hs.apart hlock, List.countP_eq_zero] at hreaders
  refine ⟨hlock, fun w hw => ?_⟩
  rcases of_mem_set_alone hi ha hone hw with heq | ⟨hmem, hwrites⟩
  · exact Or.inl heq
  · exact Or.inr ⟨hs.doing w hmem, hwrites, by simpa using hreaders w hmem⟩

theorem InOrbit.work (hs : InOrbit toy s) (hi : s.workers[i]? = some a) (ha : a.writes = true)
    (hb : b.writes = true) (hreads : a.reads = b.reads)
    (hdoing : b.Doing toy { s with toy := toy' }) :
    InOrbit toy { s with toy := toy', workers := s.workers.set i b } := by
  obtain ⟨hlock, hothers⟩ := hs.alone (b := b) hi ha
  refine ⟨?_, ?_, hs.apart, ?_, ?_, hs.printed⟩
  · exact (countP_set_same hi (ha.trans hb.symm)).trans hs.writers
  · exact (countP_set_same hi hreads).trans hs.readers
  · intro hfree
    exact Bool.noConfusion (hlock.symm.trans hfree)
  · intro w hw
    rcases hothers w hw with rfl | ⟨hold, hwrites, hout⟩
    · exact hdoing
    · exact hold.outside hwrites hout

theorem InOrbit.leave {r c : Nat} (hs : InOrbit toy s) (hi : s.workers[i]? = some a)
    (ha : a.writes = true) (hb : b.writes = false) (hreads : a.reads = b.reads)
    (hstring : s.toy = orbit r c toy) (hdoing : ∀ u, b.Doing toy u) :
    InOrbit toy ⟨s.toy, s.lock.release, s.workers.set i b, r, c, s.printed⟩ := by
  obtain ⟨hlock, hothers⟩ := hs.alone (b := b) hi ha
  have hrelease : s.lock.release = { s.lock with writer := false } := by
    rw [RwLock.release, if_pos hlock]
  rw [hrelease]
  refine ⟨?_, ?_, ?_, fun _ => hstring, ?_, hs.printed⟩
  · have hw := countP_set_leave hi ha hb
    have hwriters := hs.writers
    rw [hlock, Bool.toNat_true] at hwriters
    change (s.workers.set i b).countP _ = 0
    omega
  · exact (countP_set_same hi hreads).trans hs.readers
  · intro h
    cases h
  · intro w hw
    rcases hothers w hw with rfl | ⟨hold, hwrites, hout⟩
    · exact hdoing _
    · exact hold.outside hwrites hout

/-! ## Steps of readers -/

private theorem InOrbit.findReader (hs : InOrbit toy s) (hi : s.workers[i]? = some a)
    (ha : a.reads = true) : s.lock.writer = false ∧ 0 < s.lock.readers := by
  have hpos := countP_pos_of_getElem? (p := Worker.reads) hi ha
  rw [hs.readers] at hpos
  refine ⟨?_, hpos⟩
  rw [← Bool.not_eq_true]
  intro hlock
  have hzero := hs.apart hlock
  omega

theorem InOrbit.read (hs : InOrbit toy s) (hi : s.workers[i]? = some a)
    (hwrites : a.writes = b.writes) (hreads : a.reads = b.reads) (hdoing : b.Doing toy s)
    {numbers : List Nat} (hnumbers : ∀ n ∈ numbers, n = capitals toy ∨ n = smalls toy) :
    InOrbit toy { s with workers := s.workers.set i b, printed := numbers } := by
  refine ⟨?_, ?_, hs.apart, hs.string, hs.doing_set hdoing rfl rfl rfl, hnumbers⟩
  · exact (countP_set_same hi hwrites).trans hs.writers
  · exact (countP_set_same hi hreads).trans hs.readers

private theorem InOrbit.lockRead (hs : InOrbit toy s) (hi : s.workers[i]? = some (.count .outside))
    (hfree : s.lock.writer = false) :
    InOrbit toy { s with
      lock := { s.lock with readers := s.lock.readers + 1 }
      workers := s.workers.set i (.count (.inside (.loop 0 0))) } := by
  refine ⟨?_, ?_, ?_, hs.string, hs.doing_set ?_ rfl rfl rfl, hs.printed⟩
  · have hw := countP_set_same hi (b := .count (.inside (.loop 0 0))) (p := Worker.writes) rfl
    exact hw.trans hs.writers
  · change _ = s.lock.readers + 1
    rw [← hs.readers]
    exact countP_set_enter hi rfl rfl
  · intro hlock
    exact Bool.noConfusion (hfree.symm.trans hlock)
  · exact Counting.total_start s.toy

private theorem InOrbit.unlockRead {l : Counting len} {cnt : Nat} (hs : InOrbit toy s)
    (hi : s.workers[i]? = some (.count (.inside l))) (hcnt : l.total s.toy = cnt) :
    InOrbit toy { s with
      lock := s.lock.release, workers := s.workers.set i (.count (.print cnt)) } := by
  obtain ⟨hfree, hpos⟩ := hs.findReader hi rfl
  have hrelease : s.lock.release = { s.lock with readers := s.lock.readers - 1 } := by
    simp [RwLock.release, hfree]
  rw [hrelease]
  refine ⟨?_, ?_, ?_, hs.string, hs.doing_set ?_ rfl rfl rfl, hs.printed⟩
  · have hw := countP_set_same hi (b := .count (.print cnt)) (p := Worker.writes) rfl
    exact hw.trans hs.writers
  · have hr := countP_set_leave hi (b := .count (.print cnt)) (p := Worker.reads) rfl rfl
    have hreaders := hs.readers
    change (s.workers.set i (.count (.print cnt))).countP _ = s.lock.readers - 1
    omega
  · intro hlock
    exact Bool.noConfusion (hfree.symm.trans hlock)
  · have hcounted : l.total s.toy = capitals s.toy := hs.doing _ (List.mem_of_getElem? hi)
    change cnt = capitals toy ∨ cnt = smalls toy
    rw [← hcnt, hcounted, hs.string hfree]
    exact capitals_orbit _ _ _

/-! ## Whole runs -/

theorem InOrbit.step (hs : InOrbit toy s) (h : s.step i = some t) : InOrbit toy t := by
  unfold Orbit.step at h
  split at h
  · cases h
  · next inside hi =>
      obtain ⟨⟨inside', lock, u⟩, hstep, rfl⟩ := Option.map_eq_some_iff.mp h
      rcases writerStep_cases hstep with ⟨rfl, rfl, hfree, hnone, rfl, rfl⟩ |
        ⟨l, l', rfl, rfl, rfl, hrest⟩ | ⟨l, rfl, rfl, rfl, rfl, hrest⟩
      · refine hs.enter hi rfl rfl rfl hfree hnone ?_
        change (reverse len).effect s.toy = _
        rw [reverse_effect, hs.string hfree, orbit_reverse]
      · have hdoing := hs.doing _ (List.mem_of_getElem? hi)
        exact hs.work hi rfl rfl rfl (hrest.trans hdoing)
      · have hdoing := hs.doing _ (List.mem_of_getElem? hi)
        exact hs.leave hi rfl rfl rfl (hrest.symm.trans hdoing) fun _ => trivial
  · next inside hi =>
      obtain ⟨⟨inside', lock, u⟩, hstep, rfl⟩ := Option.map_eq_some_iff.mp h
      rcases writerStep_cases hstep with ⟨rfl, rfl, hfree, hnone, rfl, rfl⟩ |
        ⟨l, l', rfl, rfl, rfl, hrest⟩ | ⟨l, rfl, rfl, rfl, rfl, hrest⟩
      · refine hs.enter hi rfl rfl rfl hfree hnone ?_
        change (swapRegister len).effect s.toy = _
        rw [swapRegister_effect, hs.string hfree, orbit_swap]
      · have hdoing := hs.doing _ (List.mem_of_getElem? hi)
        exact hs.work hi rfl rfl rfl (hrest.trans hdoing)
      · have hdoing := hs.doing _ (List.mem_of_getElem? hi)
        exact hs.leave hi rfl rfl rfl (hrest.symm.trans hdoing) fun _ => trivial
  · next hi =>
      obtain ⟨lock, hlock, rfl⟩ := Option.map_eq_some_iff.mp h
      rw [RwLock.acquire] at hlock
      split at hlock
      · cases hlock
      · next hfree =>
          cases hlock
          exact hs.lockRead hi (by simpa using hfree)
  · next l hi =>
      split at h
      · next l' hstep =>
          cases h
          have hdoing := hs.doing _ (List.mem_of_getElem? hi)
          exact hs.read (b := .count (.inside l')) hi rfl rfl
            ((Counting.total_step l l' s.toy hstep).trans hdoing) hs.printed
      · next cnt hstep =>
          cases h
          exact hs.unlockRead hi (Counting.total_end l s.toy hstep)
  · next cnt hi =>
      cases h
      refine hs.read (b := .count .outside) hi rfl rfl trivial ?_
      intro n hn
      rcases List.mem_append.mp hn with hn | hn
      · exact hs.printed n hn
      · rw [List.mem_singleton.mp hn]
        exact hs.doing _ (List.mem_of_getElem? hi)

/-- While no writer is inside its section the string is on its orbit, at the place that the parities
of the finished sections tell, and every number printed is one of two. -/
theorem shared_string_on_orbit {jobs : List Job}
    (h : Reachable Orbit.step (Orbit.start jobs toy) s) :
    ((∀ w ∈ s.workers, w.writes = false) →
      s.toy = Vector.reverse^[s.reversals % 2] ((Vector.map swapCase)^[s.changes % 2] toy)) ∧
    ∀ n ∈ s.printed, n = toy.toList.countP isUpper ∨ n = toy.toList.countP isLower := by
  have hs : InOrbit toy s :=
    h.invariant (fun _ _ _ hs hstep => hs.step hstep) (InOrbit.start jobs toy)
  refine ⟨fun hout => ?_, hs.printed⟩
  apply hs.string
  have hwriters := hs.writers
  rw [List.countP_eq_zero.mpr fun w hw => by simp [hout w hw]] at hwriters
  cases hlock : s.lock.writer with
  | false => rfl
  | true =>
      rw [hlock] at hwriters
      cases hwriters

/-- `aBc` becomes `CbA`, whose capital letters were the small ones of `aBc`. -/
theorem shared_string_on_orbit_reversed :
    ∃ s, Reachable Orbit.step (Orbit.start [.reverse, .change, .count] (#v[97, 66, 99] : Toy 3)) s ∧
      s.toy = #v[67, 98, 65] ∧ s.printed = [2] ∧
      ∀ n ∈ s.printed, n = (#v[97, 66, 99] : Toy 3).toList.countP isUpper ∨
        n = (#v[97, 66, 99] : Toy 3).toList.countP isLower := by
  have hrun : ((run Orbit.step (Orbit.start [.reverse, .change, .count] (#v[97, 66, 99] : Toy 3))
      (List.replicate 27 0 ++ List.replicate 83 1 ++ List.replicate 9 2)).map
        fun s => (s.reversals, s.changes, s.workers, s.printed)) =
      some (1, 1, [.reverse none, .change none, .count .outside], [2]) := by decide +kernel
  obtain ⟨s, hs, hend⟩ := Option.map_eq_some_iff.mp hrun
  obtain ⟨hreversals, hend⟩ := Prod.mk.inj hend
  obtain ⟨hchanges, hend⟩ := Prod.mk.inj hend
  obtain ⟨hworkers, hprinted⟩ := Prod.mk.inj hend
  obtain ⟨hstring, hnumbers⟩ := shared_string_on_orbit ⟨_, hs⟩
  have htoy := hstring (by rw [hworkers]; decide)
  rw [hreversals, hchanges] at htoy
  exact ⟨s, ⟨_, hs⟩, htoy.trans (by decide +kernel), hprinted, hnumbers⟩

end SyssoftLabs.Lab5
