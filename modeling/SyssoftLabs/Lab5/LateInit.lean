import SyssoftLabs.Framework.Population
import SyssoftLabs.Framework.Transition

/-!
# A lock that is initialised late

`multithread6` and `multithread7` start their threads before `init_sync` runs. The threads may have
taken the lock by then, and the initialisation takes it away from them. What the threads do inside
their sections does not matter here, nor for how long they sleep.
-/

namespace SyssoftLabs.Lab5

open SyssoftLabs.Framework

/-! ## The lock -/

/-- What a section needs: the lock for itself, or together with other readers. A mutex is always
taken for writing. -/
inductive Mode
  | read
  | write
deriving DecidableEq, Repr

structure RwLock where
  writer : Bool
  readers : Nat
deriving DecidableEq, Repr

namespace RwLock

def free : RwLock := ⟨false, 0⟩

/-- `pthread_mutex_lock`, `pthread_rwlock_wrlock` and `pthread_rwlock_rdlock`; `none` while they
wait. -/
def acquire (lock : RwLock) : Mode → Option RwLock
  | .read => if lock.writer then none else some { lock with readers := lock.readers + 1 }
  | .write =>
      if lock.writer ∨ 0 < lock.readers then none else some { lock with writer := true }

/-- `pthread_mutex_unlock` and `pthread_rwlock_unlock`. -/
def release (lock : RwLock) : RwLock :=
  if lock.writer then { lock with writer := false }
  else { lock with readers := lock.readers - 1 }

end RwLock

/-! ## The programs -/

/-- The sections of the threads, in the order of `pthread_create`, and the one in the loop of `main`
behind `init_sync`, if the loop takes the lock. -/
structure Program where
  created : List Mode
  main : Option Mode
deriving DecidableEq, Repr

/-- `reverse` and `change_register`; `main` prints under the mutex. -/
def multithread6 : Program := ⟨[.write, .write], some .write⟩

/-- `reverse`, `change_register` and `count_capitalized`; `main` prints without the lock. -/
def multithread7 : Program := ⟨[.write, .write, .read], none⟩

/-- A loop around a section. -/
structure Looping where
  mode : Mode
  inside : Bool
deriving DecidableEq, Repr

namespace Looping

def reads (p : Looping) : Bool := p.inside && p.mode == .read

def writes (p : Looping) : Bool := p.inside && p.mode == .write

end Looping

/-- The loops that run, that of `main` behind the threads, and the lock. -/
structure Late where
  loops : List Looping
  initialised : Bool
  lock : RwLock
deriving DecidableEq, Repr

inductive LateStep
  /-- `main` creates the next thread. -/
  | create
  /-- `main` calls `init_sync` and enters its loop. -/
  | init
  | lock (i : Nat)
  | unlock (i : Nat)
deriving DecidableEq, Repr

namespace Late

/-- The static lock is a lock that nobody holds. -/
def start : Late := ⟨[], false, .free⟩

def step (prog : Program) (s : Late) : LateStep → Option Late
  | .create =>
      match prog.created[s.loops.length]? with
      | some mode => if s.initialised then none else
          some { s with loops := s.loops ++ [⟨mode, false⟩] }
      | none => none
  | .init =>
      if s.initialised ∨ s.loops.length < prog.created.length then none
      else some ⟨s.loops ++ (prog.main.map fun mode => ⟨mode, false⟩).toList, true, .free⟩
  | .lock i =>
      match s.loops[i]? with
      | some ⟨mode, false⟩ =>
          (s.lock.acquire mode).map fun lock =>
            { s with loops := s.loops.set i ⟨mode, true⟩, lock := lock }
      | _ => none
  | .unlock i =>
      match s.loops[i]? with
      | some ⟨mode, true⟩ =>
          some { s with loops := s.loops.set i ⟨mode, false⟩, lock := s.lock.release }
      | _ => none

/-- No writer is inside its section together with any other thread. -/
def Exclusive (s : Late) : Prop :=
  ∀ (i j : Nat) (p q : Looping), i ≠ j → s.loops[i]? = some p → s.loops[j]? = some q →
    p.inside = true → q.inside = true → p.mode = .read ∧ q.mode = .read

/-- When `init_sync` is called, no thread is inside its section. -/
def quiet (s : Late) (a : LateStep) : Prop :=
  a = .init → ∀ p ∈ s.loops, p.inside = false

instance (s : Late) (a : LateStep) : Decidable (quiet s a) :=
  inferInstanceAs (Decidable (_ → _))

/-! ## The lock and the sections -/

/-- The lock knows who is inside. -/
structure Counts (s : Late) : Prop where
  writer : s.loops.countP Looping.writes = s.lock.writer.toNat
  readers : s.loops.countP Looping.reads = s.lock.readers
  apart : s.lock.writer = true → s.lock.readers = 0

variable {prog : Program} {s t u : Late} {a : LateStep}

private theorem bool_of_toNat_pos {b : Bool} (h : 0 < b.toNat) : b = true := by
  cases b with
  | false => exact absurd h (by decide)
  | true => rfl

theorem Counts.start : Counts start where
  writer := rfl
  readers := rfl
  apart := fun h => by cases h

theorem Counts.append (h : Counts s) (mode : Mode) (initialised : Bool) :
    Counts ⟨s.loops ++ [⟨mode, false⟩], initialised, s.lock⟩ where
  writer := by simpa [Looping.writes] using h.writer
  readers := by simpa [Looping.reads] using h.readers
  apart := h.apart

theorem Counts.free (h : ∀ p ∈ s.loops, p.inside = false) (initialised : Bool) :
    Counts ⟨s.loops, initialised, .free⟩ where
  writer := by
    apply List.countP_eq_zero.mpr
    intro p hp
    simp [Looping.writes, h p hp]
  readers := by
    apply List.countP_eq_zero.mpr
    intro p hp
    simp [Looping.reads, h p hp]
  apart := fun _ => rfl

theorem Counts.lock (h : Counts s) {i : Nat} {mode : Mode} {lock : RwLock}
    (hi : s.loops[i]? = some ⟨mode, false⟩) (hlock : s.lock.acquire mode = some lock) :
    Counts { s with loops := s.loops.set i ⟨mode, true⟩, lock := lock } := by
  have hw := h.writer
  have hr := h.readers
  cases mode with
  | read =>
      simp only [RwLock.acquire, Option.ite_none_left_eq_some] at hlock
      obtain ⟨hwriter, hlock⟩ := hlock
      have hset : (s.loops.set i ⟨.read, true⟩).countP Looping.writes = s.lock.writer.toNat := by
        rw [countP_set_same hi (by rfl), hw]
      have hset' : (s.loops.set i ⟨.read, true⟩).countP Looping.reads = s.lock.readers + 1 := by
        rw [countP_set_enter hi (by rfl) (by rfl), hr]
      cases hlock
      exact ⟨hset, hset', fun hwriter' => absurd hwriter' hwriter⟩
  | write =>
      simp only [RwLock.acquire, Option.ite_none_left_eq_some, not_or] at hlock
      obtain ⟨⟨hwriter, hreaders⟩, hlock⟩ := hlock
      have hset : (s.loops.set i ⟨.write, true⟩).countP Looping.writes = 1 := by
        rw [countP_set_enter hi (by rfl) (by rfl), hw]
        simp [hwriter]
      have hset' : (s.loops.set i ⟨.write, true⟩).countP Looping.reads = s.lock.readers := by
        rw [countP_set_same hi (by rfl), hr]
      cases hlock
      exact ⟨hset, hset', fun _ => Nat.eq_zero_of_not_pos hreaders⟩

theorem Counts.unlock (h : Counts s) {i : Nat} {mode : Mode}
    (hi : s.loops[i]? = some ⟨mode, true⟩) :
    Counts { s with loops := s.loops.set i ⟨mode, false⟩, lock := s.lock.release } := by
  have hw := h.writer
  have hr := h.readers
  cases mode with
  | read =>
      have hpos := countP_pos_of_getElem? (p := Looping.reads) hi (by rfl)
      have hwriter : s.lock.writer = false := by
        by_contra hwriter
        have hzero := h.apart (by simpa using hwriter)
        omega
      have hset : (s.loops.set i ⟨.read, false⟩).countP Looping.writes = s.lock.writer.toNat := by
        rw [countP_set_same hi (by rfl), hw]
      have hset' := countP_set_leave hi (b := ⟨.read, false⟩) (p := Looping.reads) rfl rfl
      simp only [RwLock.release, hwriter, Bool.false_eq_true, if_false]
      refine ⟨by simpa [hwriter] using hset, ?_, fun hfalse => by simp at hfalse⟩
      change (s.loops.set i ⟨.read, false⟩).countP Looping.reads = s.lock.readers - 1
      omega
  | write =>
      have hpos := countP_pos_of_getElem? (p := Looping.writes) hi (by rfl)
      have hwriter : s.lock.writer = true := by
        rw [hw] at hpos
        exact bool_of_toNat_pos hpos
      have hset := countP_set_leave hi (b := ⟨.write, false⟩) (p := Looping.writes) rfl rfl
      have hset' : (s.loops.set i ⟨.write, false⟩).countP Looping.reads = s.lock.readers := by
        rw [countP_set_same hi (by rfl), hr]
      rw [hw, hwriter] at hset
      simp only [RwLock.release, hwriter, if_true]
      refine ⟨?_, hset', fun hfalse => by cases hfalse⟩
      change (s.loops.set i ⟨.write, false⟩).countP Looping.writes = 0
      simpa using hset

/-- A step that meets the condition keeps the account of the lock. -/
theorem Counts.step (h : Counts s) (hok : quiet s a) (hstep : s.step prog a = some t) :
    Counts t := by
  cases a with
  | create =>
      simp only [Late.step] at hstep
      split at hstep
      · next mode _ =>
          simp only [Option.ite_none_left_eq_some] at hstep
          obtain ⟨-, hstep⟩ := hstep
          cases hstep
          exact h.append mode s.initialised
      · cases hstep
  | init =>
      simp only [Late.step, Option.ite_none_left_eq_some] at hstep
      obtain ⟨-, hstep⟩ := hstep
      have hfree := Counts.free (s := s) (hok rfl) true
      cases hmain : prog.main with
      | none =>
          simp only [hmain, Option.map_none, Option.toList_none, List.append_nil] at hstep
          cases hstep
          exact hfree
      | some mode =>
          simp only [hmain, Option.map_some, Option.toList_some] at hstep
          cases hstep
          exact hfree.append mode true
  | lock i =>
      simp only [Late.step] at hstep
      split at hstep
      · next mode hi =>
          rw [Option.map_eq_some_iff] at hstep
          obtain ⟨lock, hlock, rfl⟩ := hstep
          exact h.lock hi hlock
      · cases hstep
  | unlock i =>
      simp only [Late.step] at hstep
      split at hstep
      · next mode hi =>
          cases hstep
          exact h.unlock hi
      · cases hstep

private theorem Counts.exclusive (h : Counts s) : Exclusive s := by
  intro i j p q hij hi hj hp hq
  have hw := h.writer
  have hr := h.readers
  have hone : s.lock.writer.toNat ≤ 1 := Bool.toNat_le _
  have halone : ∀ (k l : Nat) (x y : Looping), k ≠ l → s.loops[k]? = some x →
      s.loops[l]? = some y → x.inside = true → y.inside = true → x.mode = .read := by
    intro k l x y hkl hk hl hx hy
    by_contra hmode
    have hxw : x.writes = true := by
      cases hm : x.mode with
      | read => exact absurd hm hmode
      | write => simp [Looping.writes, hx, hm]
    have hpos := countP_pos_of_getElem? hk hxw
    cases hm : y.mode with
    | read =>
        have hyr : y.reads = true := by simp [Looping.reads, hy, hm]
        have hreader := countP_pos_of_getElem? hl hyr
        rw [hw] at hpos
        have hzero := h.apart (bool_of_toNat_pos hpos)
        omega
    | write =>
        have hyw : y.writes = true := by simp [Looping.writes, hy, hm]
        have htwo := two_le_countP hkl hk hl hxw hyw
        omega
  exact ⟨halone i j p q hij hi hj hp hq, halone j i q p hij.symm hj hi hq hp⟩

/-! ## A thread that is inside when the lock is initialised -/

/-- Before `init_sync` the loops are those of the threads created so far. -/
def Created (prog : Program) (s : Late) : Prop :=
  s.initialised = false → s.loops.map Looping.mode = prog.created.take s.loops.length

private theorem modes_set {loops : List Looping} {i : Nat} {p q : Looping} (hi : loops[i]? = some p)
    (hmode : q.mode = p.mode) :
    (loops.set i q).map Looping.mode = loops.map Looping.mode := by
  apply List.ext_getElem?
  intro j
  rw [List.getElem?_map, List.getElem?_map, List.getElem?_set]
  by_cases hij : i = j
  · subst hij
    obtain ⟨hlt, hget⟩ := List.getElem?_eq_some_iff.mp hi
    simp [hlt, hget, hmode]
  · simp [hij]

theorem Created.step (h : Created prog s) (hstep : s.step prog a = some t) : Created prog t := by
  intro ht
  cases a with
  | create =>
      simp only [Late.step] at hstep
      split at hstep
      · next mode hmode =>
          simp only [Option.ite_none_left_eq_some] at hstep
          obtain ⟨hs, hstep⟩ := hstep
          cases hstep
          have hmap := h (by simpa using hs)
          simp [hmap, List.take_add_one, hmode]
      · cases hstep
  | init =>
      simp only [Late.step, Option.ite_none_left_eq_some] at hstep
      obtain ⟨-, hstep⟩ := hstep
      cases hstep
      cases ht
  | lock i =>
      simp only [Late.step] at hstep
      split at hstep
      · next mode hi =>
          rw [Option.map_eq_some_iff] at hstep
          obtain ⟨lock, -, rfl⟩ := hstep
          have hmodes : (s.loops.set i ⟨mode, true⟩).map Looping.mode = s.loops.map Looping.mode :=
            modes_set hi rfl
          change _ = prog.created.take (s.loops.set i ⟨mode, true⟩).length
          rw [List.length_set]
          exact hmodes.trans (h ht)
      · cases hstep
  | unlock i =>
      simp only [Late.step] at hstep
      split at hstep
      · next mode hi =>
          cases hstep
          have hmodes : (s.loops.set i ⟨mode, false⟩).map Looping.mode = s.loops.map Looping.mode :=
            modes_set hi rfl
          change _ = prog.created.take (s.loops.set i ⟨mode, false⟩).length
          rw [List.length_set]
          exact hmodes.trans (h ht)
      · cases hstep

private theorem exists_intruder (hs : Created prog s)
    (hother : ∀ i < prog.created.length, ∃ j, j ≠ i ∧ prog.created[j]? = some .write)
    (hstep : s.step prog .init = some u) (hok : ¬quiet s .init) :
    ∃ v, Reachable (step prog) u v ∧ ¬Exclusive v := by
  simp only [step, Option.ite_none_left_eq_some, not_or] at hstep
  obtain ⟨⟨hfirst, hall⟩, hstep⟩ := hstep
  have hmap := hs (by simpa using hfirst)
  rw [List.take_of_length_le (by omega)] at hmap
  obtain ⟨p, hp, hin⟩ : ∃ p ∈ s.loops, p.inside = true := by
    by_contra hnone
    apply hok
    intro _ p hp
    by_contra hin
    exact hnone ⟨p, hp, by simpa using hin⟩
  obtain ⟨i, hi, hget⟩ := List.getElem_of_mem hp
  have hip : s.loops[i]? = some p := by rw [List.getElem?_eq_getElem hi, hget]
  have hlen : s.loops.length = prog.created.length := by
    rw [← hmap, List.length_map]
  obtain ⟨j, hji, hj⟩ := hother i (by omega)
  rw [← hmap, List.getElem?_map, Option.map_eq_some_iff] at hj
  obtain ⟨q, hq, hmode⟩ := hj
  have hiu : u.loops[i]? = some p := by
    cases hstep
    rw [List.getElem?_append_left hi, hip]
  have hju : u.loops[j]? = some q := by
    cases hstep
    rw [List.getElem?_append_left (List.getElem?_eq_some_iff.mp hq).1, hq]
  have hlock : u.lock = .free := by
    cases hstep
    rfl
  cases hqin : q.inside with
  | true =>
      refine ⟨u, Reachable.refl _ u, fun hexclusive => ?_⟩
      have hread := (hexclusive i j p q hji.symm hiu hju hin hqin).2
      rw [hmode] at hread
      cases hread
  | false =>
      have hq' : q = ⟨.write, false⟩ := by rw [← hmode, ← hqin]
      rw [hq'] at hju
      have henter : step prog u (.lock j) =
          some { u with loops := u.loops.set j ⟨.write, true⟩, lock := ⟨true, 0⟩ } := by
        simp only [step, hju, hlock]
        rfl
      refine ⟨_, Reachable.single henter, fun hexclusive => ?_⟩
      have hnew : (u.loops.set j ⟨.write, true⟩)[j]? = some ⟨.write, true⟩ := by
        simp [(List.getElem?_eq_some_iff.mp hju).1]
      have hold : (u.loops.set j ⟨.write, true⟩)[i]? = some p := by
        rw [List.getElem?_set_ne hji, hiu]
      have hread := (hexclusive i j p ⟨.write, true⟩ hji.symm hold hnew hin rfl).2
      cases hread

private theorem two_writers (hprog : prog = multithread6 ∨ prog = multithread7) :
    prog.created[0]? = some .write ∧ prog.created[1]? = some .write := by
  rcases hprog with rfl | rfl
  · exact ⟨rfl, rfl⟩
  · exact ⟨rfl, rfl⟩

/-- Exclusion holds throughout every run in which no thread is inside its section when `init_sync`
is called. If one is, a run goes on to a writer that is not alone. -/
theorem exclusive_from_first_section (hprog : prog = multithread6 ∨ prog = multithread7) :
    (∀ as t, run (step prog) start as = some t → Guarded (step prog) quiet start as →
      Throughout (step prog) Exclusive start as) ∧
    ∀ s u, Reachable (step prog) start s → step prog s .init = some u → ¬quiet s .init →
      ∃ v, Reachable (step prog) u v ∧ ¬Exclusive v := by
  refine ⟨fun as t _ hok => ?_, fun s u hs hinit hok => ?_⟩
  · have hcounts : Throughout (step prog) Counts start as :=
      throughout_of_guarded (fun _ _ _ h hok hstep => h.step hok hstep) hok Counts.start
    exact hcounts.imp fun _ h => h.exclusive
  · have hcreated : Created prog s :=
      hs.invariant (fun _ _ _ h hstep => h.step hstep) fun _ => rfl
    refine exists_intruder hcreated (fun i _ => ?_) hinit hok
    obtain ⟨hfirst, hsecond⟩ := two_writers hprog
    by_cases hi : i = 0
    · exact ⟨1, by omega, hsecond⟩
    · exact ⟨0, by omega, hfirst⟩

/-- A thread enters before `init_sync`, another one behind it. -/
theorem exclusive_from_first_section_fails :
    ¬∀ prog, prog = multithread6 ∨ prog = multithread7 → ∀ t,
      Reachable (step prog) start t → Exclusive t := by
  intro h
  have hrun : run (step multithread6) start [.create, .lock 0, .create, .init, .lock 1] =
      some ⟨[⟨.write, true⟩, ⟨.write, true⟩, ⟨.write, false⟩], true, ⟨true, 0⟩⟩ := by decide
  have hexclusive := h multithread6 (Or.inl rfl) _ ⟨_, hrun⟩
  have hread := (hexclusive 0 1 ⟨.write, true⟩ ⟨.write, true⟩ (by decide) rfl rfl rfl rfl).1
  cases hread

/-- The counter and a thread that writes take turns behind a quiet `init_sync`. -/
theorem exclusive_from_first_section_turns :
    Throughout (step multithread7) Exclusive start
      [.create, .lock 0, .create, .unlock 0, .create, .init, .lock 2, .unlock 2, .lock 1] := by
  have hrun : (run (step multithread7) start
      [.create, .lock 0, .create, .unlock 0, .create, .init, .lock 2, .unlock 2, .lock 1]).isSome =
        true := by decide
  obtain ⟨t, ht⟩ := Option.isSome_iff_exists.mp hrun
  exact (exclusive_from_first_section (Or.inr rfl)).1 _ t ht (by decide)

end Late

end SyssoftLabs.Lab5
