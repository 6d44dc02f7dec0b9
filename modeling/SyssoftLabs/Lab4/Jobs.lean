import Mathlib.Order.Bounds.Basic
import SyssoftLabs.Framework.History

/-!
# The table of background jobs

An array of process ids with an index for each job; 0 is a free slot, and the slot 0 is never used.
The array grows when a job does not fit. A job keeps its index until it is deleted.
-/

namespace SyssoftLabs.Lab4

open SyssoftLabs.Framework

/-- The static variables of `job.c`. The array has the indices from 0 to `jobs_capacity`. -/
structure Table where
  capacity : Nat
  jobs : Option (Vector Int (capacity + 1))
  /-- The size `calloc` or `realloc` was asked for. -/
  bytes : Nat

def sizeofPid : Nat := 4

namespace Table

def start : Table := ⟨255, none, 0⟩

section Loops

variable {n : Nat}

/-- `for (; i <= jobs_capacity && !stop(jobs[i]); ++i)`. -/
def search (jobs : Vector Int (n + 1)) (stop : Int → Bool) (i : Nat) : Nat :=
  if h : i ≤ n then if stop jobs[i] then i else search jobs stop (i + 1) else i
termination_by n + 1 - i

/-- `for (; j <= jobs_capacity; ++j) jobs[j] = 0`. -/
def clear (jobs : Vector Int (n + 1)) (j : Nat) : Vector Int (n + 1) :=
  if h : j ≤ n then clear (jobs.set j 0) (j + 1) else jobs
termination_by n + 1 - j

/-- The larger array of `realloc`; `junk` is what the new memory holds. -/
def realloc (junk : Nat → Int) (jobs : Vector Int (n + 1)) (m : Nat) : Vector Int (m + 1) :=
  Vector.ofFn fun i => if h : i.val ≤ n then jobs[i.val] else junk i.val

end Loops

/-- The array, with all slots free when `calloc` makes it. -/
def slots (t : Table) : Vector Int (t.capacity + 1) :=
  t.jobs.getD (Vector.replicate (t.capacity + 1) 0)

/-- `add_job`: the index of the job, and the table. -/
def addJob (junk : Nat → Int) (t : Table) (pid : Int) : Nat × Table :=
  let jobs := t.slots
  let bytes := if t.jobs.isNone then (t.capacity + 1) * sizeofPid else t.bytes
  let i := search jobs (· = 0) 1
  if h : i ≤ t.capacity then (i, ⟨t.capacity, some (jobs.set i pid), bytes⟩)
  else
    let capacity := t.capacity * 2
    let jobs := clear (realloc junk jobs capacity) i
    (i, ⟨capacity, some (jobs.setIfInBounds i pid), sizeofPid * capacity + 1⟩)

/-- `get_job`. -/
def getJob (t : Table) (id : Nat) : Int :=
  match t.jobs with
  | none => 0
  | some jobs => if h : id ≤ t.capacity then jobs[id] else 0

/-- `get_job_id`. -/
def getJobId (t : Table) (pid : Int) : Nat :=
  match t.jobs with
  | none => 0
  | some jobs =>
      let i := search jobs (· = pid) 1
      if h : i ≤ t.capacity then if jobs[i] = pid then i else 0 else 0

/-- `delete_job_by_id`. -/
def deleteJobById (t : Table) (id : Nat) : Table :=
  match t.jobs with
  | none => t
  | some jobs =>
      if h : id ≤ t.capacity then { t with jobs := some (jobs.set id 0) } else t

/-- `delete_job_by_pid`. -/
def deleteJobByPid (t : Table) (pid : Int) : Table :=
  match t.jobs with
  | none => t
  | some jobs =>
      let i := search jobs (fun p => pid = p) 1
      if h : i ≤ t.capacity then { t with jobs := some (jobs.set i 0) } else t

/-- `fork_and_exec` starts a job in the background: the number it prints in brackets. -/
def launched (junk : Nat → Int) (t : Table) (pid : Int) : Nat × Table := t.addJob junk pid

/-- `main` reaps a dead child: the number it prints in brackets. -/
def reaped (t : Table) (pid : Int) : Nat × Table := (t.getJobId pid, t.deleteJobByPid pid)

/-- The process id is in the table. -/
def contains (t : Table) (pid : Int) : Bool := t.jobs.any fun jobs => jobs.contains pid

end Table

/-! ## Calls -/

inductive JobCall
  | add (pid : Int)
  | deleteByPid (pid : Int)
  | deleteById (id : Nat)
deriving DecidableEq, Repr

namespace JobCall

/-- The calls of the shell: a job is added under a new positive process id. -/
def step (junk : Nat → Int) (t : Table) : JobCall → Option Table
  | .add pid => if 0 < pid ∧ t.contains pid = false then some (t.addJob junk pid).2 else none
  | .deleteByPid pid => some (t.deleteJobByPid pid)
  | .deleteById id => some (t.deleteJobById id)

/-- The jobs that are live, by their index, as the calls and the results of `add_job` tell. -/
def note (junk : Nat → Int) (t : Table) (call : JobCall) (live : Nat → Option Int) :
    Nat → Option Int :=
  match call with
  | .add pid => Function.update live (t.addJob junk pid).1 (some pid)
  | .deleteByPid pid => fun id => if live id = some pid then none else live id
  | .deleteById id => Function.update live id none

/-- The call deletes this job. -/
def deletes (call : JobCall) (id : Nat) (pid : Int) : Prop :=
  call = .deleteByPid pid ∨ call = .deleteById id

end JobCall

namespace Table

variable {n : Nat} {junk : Nat → Int}

/-! ## The loops -/

private theorem search_stop (jobs : Vector Int (n + 1)) {stop : Int → Bool} {i : Nat} (hi : i ≤ n)
    (hstop : stop jobs[i] = true) : search jobs stop i = i := by
  rw [search, dif_pos hi, if_pos hstop]

private theorem search_next (jobs : Vector Int (n + 1)) {stop : Int → Bool} {i : Nat} (hi : i ≤ n)
    (hstop : ¬stop jobs[i] = true) : search jobs stop i = search jobs stop (i + 1) := by
  rw [search, dif_pos hi, if_neg hstop]

private theorem search_end (jobs : Vector Int (n + 1)) (stop : Int → Bool) {i : Nat} (hi : ¬i ≤ n) :
    search jobs stop i = i := by
  rw [search, dif_neg hi]

theorem search_spec (jobs : Vector Int (n + 1)) (stop : Int → Bool) (i : Nat) (hi : i ≤ n + 1) :
    i ≤ search jobs stop i ∧ search jobs stop i ≤ n + 1 ∧
      (∀ (j : Nat) (h : j ≤ n), i ≤ j → j < search jobs stop i → stop jobs[j] = false) ∧
      ∀ h : search jobs stop i ≤ n, stop jobs[search jobs stop i] = true := by
  induction i using search.induct jobs stop with
  | case1 i hle hstop =>
      have heq := search_stop jobs hle hstop
      simp only [heq]
      refine ⟨Nat.le_refl i, hi, fun j _ hij hji => ?_, fun _ => hstop⟩
      omega
  | case2 i hle hstop ih =>
      obtain ⟨hlow, hhigh, hskip, hend⟩ := ih (by omega)
      have heq := search_next jobs hle hstop
      simp only [heq]
      refine ⟨by omega, hhigh, fun j hj hij hlt => ?_, hend⟩
      rcases Nat.eq_or_lt_of_le hij with rfl | hij
      · simpa using hstop
      · exact hskip j hj hij hlt
  | case3 i hle =>
      have heq := search_end jobs stop hle
      simp only [heq]
      refine ⟨Nat.le_refl i, hi, fun j _ hij hji => ?_, fun h => absurd h hle⟩
      omega

private theorem clear_get (jobs : Vector Int (n + 1)) (j : Nat) {i : Nat} (hi : i ≤ n) :
    (clear jobs j)[i] = if j ≤ i then 0 else jobs[i] := by
  induction jobs, j using clear.induct with
  | case1 jobs j hle ih =>
      rw [clear, dif_pos hle, ih, Vector.getElem_set]
      by_cases hij : j = i
      · simp [hij]
      · have hiff : j + 1 ≤ i ↔ j ≤ i := by omega
        simp [hij, hiff]
  | case2 jobs j hle =>
      have hlt : ¬ j ≤ i := by omega
      rw [clear, dif_neg hle, if_neg hlt]

private theorem realloc_get (jobs : Vector Int (n + 1)) {m i : Nat} (hi : i ≤ m) :
    (realloc junk jobs m)[i] = if h : i ≤ n then jobs[i] else junk i := by
  simp [realloc]

/-! ## What an operation does to the entries -/

variable {t : Table} {id : Nat} {pid : Int}

private theorem getJob_slots (t : Table) (id : Nat) :
    t.getJob id = if h : id ≤ t.capacity then t.slots[id] else 0 := by
  unfold getJob slots
  cases t.jobs with
  | none => simp
  | some jobs => rfl

theorem getJob_eq (t : Table) (hid : id ≤ t.capacity) : t.getJob id = t.slots[id] := by
  rw [getJob_slots, dif_pos hid]

private theorem getJob_beyond (t : Table) (hid : t.capacity < id) : t.getJob id = 0 := by
  rw [getJob_slots, dif_neg (Nat.not_le_of_lt hid)]

private theorem getJob_set (jobs : Vector Int (n + 1)) {i : Nat} (hi : i ≤ n) (b c : Nat) :
    getJob ⟨n, some (jobs.set i pid), b⟩ id =
      if id = i then pid else getJob ⟨n, some jobs, c⟩ id := by
  unfold getJob
  by_cases hid : id ≤ n
  · simp only [dif_pos hid, Vector.getElem_set, eq_comm]
  · have hne : id ≠ i := by omega
    simp only [dif_neg hid, if_neg hne]

theorem getJobId_spec (t : Table) (hpid : 0 < pid) :
    (t.getJobId pid = 0 ∧ ∀ id, 0 < id → t.getJob id ≠ pid) ∨
      (0 < t.getJobId pid ∧ t.getJob (t.getJobId pid) = pid) := by
  rcases t with ⟨n, _ | jobs, b⟩
  · left
    exact ⟨rfl, fun id _ => hpid.ne⟩
  · have hspec := search_spec jobs (· = pid) 1 (by omega)
    simp only [decide_eq_true_eq, decide_eq_false_iff_not] at hspec
    obtain ⟨hlow, -, hskip, hend⟩ := hspec
    by_cases hi : search jobs (· = pid) 1 ≤ n
    · right
      have heq : getJobId ⟨n, some jobs, b⟩ pid = search jobs (· = pid) 1 := by
        simp only [getJobId, dif_pos hi, if_pos (hend hi)]
      rw [heq]
      refine ⟨hlow, ?_⟩
      rw [getJob_eq _ hi]
      exact hend hi
    · left
      refine ⟨by simp only [getJobId, dif_neg hi], fun id hid hentry => ?_⟩
      by_cases hle : id ≤ n
      · rw [getJob_eq _ hle] at hentry
        exact hskip id hle hid (by omega) hentry
      · rw [getJob_beyond _ (Nat.lt_of_not_le hle)] at hentry
        exact hpid.ne hentry

theorem addJob_spec (junk : Nat → Int) (t : Table) (pid : Int) (hcap : 0 < t.capacity) :
    IsLeast {i | 0 < i ∧ t.getJob i = 0} (t.addJob junk pid).1 ∧
      0 < (t.addJob junk pid).2.capacity ∧
      ∀ id, (t.addJob junk pid).2.getJob id =
        if id = (t.addJob junk pid).1 then pid else t.getJob id := by
  have hspec := search_spec t.slots (· = 0) 1 (by omega)
  simp only [decide_eq_true_eq, decide_eq_false_iff_not] at hspec
  obtain ⟨hlow, hhigh, hskip, hend⟩ := hspec
  have hfree : t.getJob (search t.slots (· = 0) 1) = 0 := by
    rw [getJob_slots]
    split
    · next hi => exact hend hi
    · rfl
  have hleast : ∀ i, 0 < i → t.getJob i = 0 → search t.slots (· = 0) 1 ≤ i := by
    intro i hi hzero
    by_contra hlt
    have hle : i ≤ t.capacity := by omega
    rw [getJob_eq t hle] at hzero
    exact hskip i hle hi (by omega) hzero
  have hmem : IsLeast {i | 0 < i ∧ t.getJob i = 0} (search t.slots (· = 0) 1) :=
    ⟨⟨hlow, hfree⟩, fun i hi => hleast i hi.1 hi.2⟩
  unfold addJob
  by_cases hi : search t.slots (· = 0) 1 ≤ t.capacity
  · simp only [dif_pos hi]
    refine ⟨hmem, hcap, fun id => ?_⟩
    rw [getJob_set _ hi _ 0, getJob_slots t, getJob]
  · simp only [dif_neg hi]
    refine ⟨hmem, by omega, fun id => ?_⟩
    -- a full table: the first index behind its end, and the new part is cleared from there
    have hend : search t.slots (· = 0) 1 = t.capacity + 1 := by omega
    rw [getJob_slots t, getJob]
    simp only [hend]
    by_cases hid : id ≤ t.capacity * 2
    · simp only [dif_pos hid]
      rw [Vector.getElem_setIfInBounds, clear_get _ _ hid, realloc_get _ hid]
      by_cases hnew : id ≤ t.capacity
      · have hne : ¬t.capacity + 1 = id := by omega
        have hne' : ¬id = t.capacity + 1 := by omega
        have hlt : ¬t.capacity + 1 ≤ id := by omega
        simp only [dif_pos hnew, if_neg hne, if_neg hne', if_neg hlt]
      · have hle : t.capacity + 1 ≤ id := by omega
        simp only [dif_neg hnew, if_pos hle, eq_comm]
    · have hne : id ≠ t.capacity + 1 := by omega
      have hnew : ¬id ≤ t.capacity := by omega
      simp only [dif_neg hid, dif_neg hnew, if_neg hne]

private theorem deleteJobById_spec (t : Table) (id i : Nat) :
    (t.deleteJobById i).getJob id = if id = i then 0 else t.getJob id := by
  rcases t with ⟨n, _ | jobs, b⟩
  · simp [deleteJobById, getJob]
  · unfold deleteJobById
    by_cases hi : i ≤ n
    · simp only [dif_pos hi]
      exact getJob_set jobs hi b b
    · simp only [dif_neg hi]
      by_cases hid : id = i
      · rw [if_pos hid, getJob_beyond]
        exact hid ▸ Nat.lt_of_not_le hi
      · rw [if_neg hid]

private theorem deleteJobByPid_spec (t : Table) (pid : Int) :
    (t.deleteJobByPid pid = t ∧ (0 < pid → ∀ id, 0 < id → t.getJob id ≠ pid)) ∨
      ∃ i, t.getJob i = pid ∧
        ∀ id, (t.deleteJobByPid pid).getJob id = if id = i then 0 else t.getJob id := by
  rcases t with ⟨n, _ | jobs, b⟩
  · left
    exact ⟨rfl, fun hpid id _ => hpid.ne⟩
  · have hspec := search_spec jobs (fun p => pid = p) 1 (by omega)
    simp only [decide_eq_true_eq, decide_eq_false_iff_not] at hspec
    obtain ⟨hlow, -, hskip, hend⟩ := hspec
    unfold deleteJobByPid
    by_cases hi : search jobs (fun p => pid = p) 1 ≤ n
    · right
      simp only [dif_pos hi]
      refine ⟨search jobs (fun p => pid = p) 1, ?_, fun id => getJob_set jobs hi b b⟩
      rw [getJob]
      simp only [dif_pos hi]
      exact (hend hi).symm
    · left
      simp only [dif_neg hi, true_and]
      intro hpid id hid hentry
      by_cases hle : id ≤ n
      · rw [getJob_eq _ hle] at hentry
        exact hskip id hle hid (by omega) hentry.symm
      · rw [getJob_beyond _ (Nat.lt_of_not_le hle)] at hentry
        exact hpid.ne hentry

private theorem contains_of_getJob (h : t.getJob id = pid) (hpid : 0 < pid) :
    t.contains pid = true := by
  rcases t with ⟨n, _ | jobs, b⟩
  · exact absurd h hpid.ne
  · by_cases hid : id ≤ n
    · rw [getJob_eq _ hid] at h
      have hmem : pid ∈ jobs := by
        rw [← h]
        apply Vector.getElem_mem
      simpa [contains] using hmem
    · rw [getJob_beyond _ (Nat.lt_of_not_le hid)] at h
      exact absurd h hpid.ne

/-! ## The live jobs -/

/-- The table holds the live jobs, each under its index. -/
structure Holds (t : Table) (live : Nat → Option Int) : Prop where
  capacity : 0 < t.capacity
  entry : ∀ id, t.getJob id = (live id).getD 0
  positive : ∀ id pid, live id = some pid → 0 < id ∧ 0 < pid
  distinct : ∀ id id' pid, live id = some pid → live id' = some pid → id = id'

variable {live : Nat → Option Int}

theorem Holds.start : Holds Table.start fun _ => none where
  capacity := by decide
  entry := fun _ => rfl
  positive := fun _ _ h => by simp at h
  distinct := fun _ _ _ h => by simp at h

theorem Holds.getJob (h : Holds t live) (hl : live id = some pid) : t.getJob id = pid := by
  rw [h.entry, hl, Option.getD_some]

private theorem Holds.free_iff (h : Holds t live) (id : Nat) :
    t.getJob id = 0 ↔ live id = none := by
  rw [h.entry]
  cases hl : live id with
  | none => simp
  | some pid =>
      have hpos := (h.positive id pid hl).2
      simpa using hpos.ne'

theorem Holds.live_of_getJob (h : Holds t live) (hpid : 0 < pid) (hjob : t.getJob id = pid) :
    live id = some pid := by
  rw [h.entry] at hjob
  cases hl : live id with
  | none =>
      rw [hl] at hjob
      exact absurd hjob hpid.ne
  | some p =>
      rw [hl] at hjob
      exact congrArg some hjob

theorem Holds.getJobId (h : Holds t live) (hl : live id = some pid) : t.getJobId pid = id := by
  obtain ⟨hid, hpid⟩ := h.positive id pid hl
  rcases t.getJobId_spec hpid with ⟨-, habsent⟩ | ⟨-, hfound⟩
  · exact absurd (h.getJob hl) (habsent id hid)
  · exact h.distinct _ _ pid (h.live_of_getJob hpid hfound) hl

theorem Holds.getJobId_absent (h : Holds t live) (hpid : 0 < pid)
    (hl : ∀ id, live id ≠ some pid) : t.getJobId pid = 0 := by
  rcases t.getJobId_spec hpid with ⟨hzero, -⟩ | ⟨-, hfound⟩
  · exact hzero
  · exact absurd (h.live_of_getJob hpid hfound) (hl _)

private theorem Holds.not_live (h : Holds t live) (hpid : 0 < pid) (hnew : t.contains pid = false) :
    live id ≠ some pid := by
  intro hl
  rw [contains_of_getJob (h.getJob hl) hpid] at hnew
  exact absurd hnew (by decide)

theorem Holds.contains_eq_false (h : Holds t live) (hpid : 0 < pid)
    (hl : ∀ id, live id ≠ some pid) : t.contains pid = false := by
  rw [← Bool.not_eq_true]
  intro hcontains
  unfold contains at hcontains
  cases hjobs : t.jobs with
  | none => simp [hjobs] at hcontains
  | some jobs =>
      rw [hjobs, Option.any_some, Vector.contains_iff_mem, Vector.mem_iff_getElem] at hcontains
      obtain ⟨id, hid, hentry⟩ := hcontains
      apply hl id
      apply h.live_of_getJob hpid
      rw [getJob_eq t (Nat.le_of_lt_succ hid), slots]
      simpa [hjobs] using hentry

theorem Holds.least (h : Holds t live) (junk : Nat → Int) (pid : Int) :
    IsLeast {i | 0 < i ∧ live i = none} (t.addJob junk pid).1 := by
  have hleast := (addJob_spec junk t pid h.capacity).1
  simpa only [h.free_iff] using hleast

theorem Holds.add (h : Holds t live) (hpid : 0 < pid) (hnew : t.contains pid = false) :
    Holds (t.addJob junk pid).2 (Function.update live (t.addJob junk pid).1 (some pid)) := by
  obtain ⟨⟨⟨hid, -⟩, -⟩, hcap, hentry⟩ := addJob_spec junk t pid h.capacity
  refine ⟨hcap, fun id => ?_, fun id p hl => ?_, fun id id' p hl hl' => ?_⟩
  · rw [hentry, Function.update_apply]
    split
    · rfl
    · exact h.entry id
  · rw [Function.update_apply] at hl
    split at hl
    · next heq =>
        cases hl
        exact ⟨heq ▸ hid, hpid⟩
    · exact h.positive id p hl
  · rw [Function.update_apply] at hl hl'
    split at hl <;> split at hl'
    · next heq heq' => rw [heq, heq']
    · cases hl
      exact absurd hl' (h.not_live hpid hnew)
    · cases hl'
      exact absurd hl (h.not_live hpid hnew)
    · exact h.distinct id id' p hl hl'

private theorem Holds.fewer (h : Holds t live) {u : Table} {rest : Nat → Option Int}
    (hcap : u.capacity = t.capacity) (hentry : ∀ id, u.getJob id = (rest id).getD 0)
    (hsub : ∀ id pid, rest id = some pid → live id = some pid) : Holds u rest where
  capacity := hcap ▸ h.capacity
  entry := hentry
  positive := fun id pid hl => h.positive id pid (hsub id pid hl)
  distinct := fun id id' pid hl hl' => h.distinct id id' pid (hsub id pid hl) (hsub id' pid hl')

private theorem deleteJobById_capacity (t : Table) (id : Nat) :
    (t.deleteJobById id).capacity = t.capacity := by
  unfold deleteJobById
  split
  · rfl
  · split <;> rfl

private theorem deleteJobByPid_capacity (t : Table) (pid : Int) :
    (t.deleteJobByPid pid).capacity = t.capacity := by
  unfold deleteJobByPid
  split
  · rfl
  · simp only
    split <;> rfl

theorem Holds.deleteById (h : Holds t live) (i : Nat) :
    Holds (t.deleteJobById i) (Function.update live i none) := by
  refine h.fewer (deleteJobById_capacity t i) (fun id => ?_) (fun id pid hl => ?_)
  · rw [deleteJobById_spec, Function.update_apply]
    split
    · rfl
    · exact h.entry id
  · rw [Function.update_apply] at hl
    split at hl
    · cases hl
    · exact hl

theorem Holds.deleteByPid (h : Holds t live) (pid : Int) :
    Holds (t.deleteJobByPid pid) fun id => if live id = some pid then none else live id := by
  refine h.fewer (deleteJobByPid_capacity t pid) (fun id => ?_) (fun id p hl => ?_)
  · rcases deleteJobByPid_spec t pid with ⟨heq, habsent⟩ | ⟨i, hi, hentry⟩
    · rw [heq, h.entry]
      split
      · next hl =>
          obtain ⟨hid, hpid⟩ := h.positive id pid hl
          exact absurd (h.getJob hl) (habsent hpid id hid)
      · rfl
    · rw [hentry, h.entry]
      by_cases hid : id = i
      · rw [if_pos hid]
        split
        · rfl
        · next hl =>
            rw [← hid, h.entry] at hi
            cases hlive : live id with
            | none => rfl
            | some p =>
                rw [hlive] at hi hl
                exact absurd (congrArg some hi) hl
      · rw [if_neg hid]
        split
        · next hl =>
            have hpid := (h.positive id pid hl).2
            exact absurd (h.distinct id i pid hl (h.live_of_getJob hpid hi)) hid
        · rfl
  · split at hl
    · cases hl
    · exact hl

end Table

namespace JobCall

open Table

variable {junk : Nat → Int} {t u : Table} {live : Nat → Option Int} {call : JobCall}
  {id : Nat} {pid : Int}

private theorem holds_step (h : Holds t live) (hstep : call.step junk t = some u) :
    Holds u (call.note junk t live) := by
  cases call with
  | add pid =>
      rw [step] at hstep
      split at hstep
      · next hnew =>
          cases hstep
          exact h.add hnew.1 hnew.2
      · cases hstep
  | deleteByPid pid =>
      cases hstep
      exact h.deleteByPid pid
  | deleteById id =>
      cases hstep
      exact h.deleteById id

private theorem note_keeps (h : Holds t live) (hl : live id = some pid)
    (hcall : ¬call.deletes id pid) :
    call.note junk t live id = some pid := by
  cases call with
  | add p =>
      have hfree := (h.least junk p).1.2
      have hne : id ≠ (t.addJob junk p).1 := by
        rintro rfl
        rw [hl] at hfree
        cases hfree
      rw [note, Function.update_of_ne hne, hl]
  | deleteByPid p =>
      have hne : pid ≠ p := by
        rintro rfl
        exact hcall (Or.inl rfl)
      simp only [note, hl, Option.some_inj, if_neg hne]
  | deleteById i =>
      have hne : id ≠ i := by
        rintro rfl
        exact hcall (Or.inr rfl)
      rw [note, Function.update_of_ne hne, hl]

private theorem holds_run {calls : List JobCall} {rest : Nat → Option Int}
    (hrun : run (recorded (step junk) (note junk)) (t, live) calls = some (u, rest))
    (h : Holds t live) : Holds u rest := by
  refine run_invariant (I := fun s => Holds s.1 s.2) ?_ hrun h
  rintro ⟨s, live⟩ call ⟨t, rest⟩ h hstep
  obtain ⟨hst, rfl⟩ := recorded_eq_some.mp hstep
  exact holds_step h hst

private theorem run_keeps {calls : List JobCall} {rest : Nat → Option Int}
    (hrun : run (recorded (step junk) (note junk)) (t, live) calls = some (u, rest))
    (h : Holds t live) (hl : live id = some pid) (hcalls : ∀ c ∈ calls, ¬c.deletes id pid) :
    rest id = some pid := by
  have hkept : Holds u rest ∧ rest id = some pid := by
    refine run_invariant_of_forall (I := fun s => Holds s.1 s.2 ∧ s.2 id = some pid) ?_ hrun
      hcalls ⟨h, hl⟩
    rintro ⟨s, live⟩ call ⟨t, rest⟩ ⟨h, hl⟩ hcall hstep
    obtain ⟨hst, rfl⟩ := recorded_eq_some.mp hstep
    exact ⟨holds_step h hst, note_keeps h hl hcall⟩
  exact hkept.2

private theorem getJob_step (h : Holds t live) (hstep : call.step junk t = some u)
    (hcall : ¬call.deletes id (t.getJob id))
    (hadd : ∀ pid, call = .add pid → id ≠ (t.addJob junk pid).1) : u.getJob id = t.getJob id := by
  rw [h.entry] at hcall
  rw [(holds_step h hstep).entry, h.entry]
  congr 1
  cases hl : live id with
  | some pid =>
      rw [hl] at hcall
      exact note_keeps h hl hcall
  | none =>
      cases call with
      | add pid => rw [note, Function.update_of_ne (hadd pid rfl), hl]
      | deleteByPid pid => simp [note, hl]
      | deleteById i =>
          rw [note, Function.update_apply]
          split
          · rfl
          · exact hl

/-- The job table is a map between the indices and the process ids of the live jobs. A job gets the
least index in use by no other, and is found under it until it is deleted. -/
theorem job_table_is_map
    (h : Reachable (recorded (step junk) (note junk)) (Table.start, fun _ => none) (t, live)) :
    (∀ id pid, live id = some pid →
      0 < id ∧ 0 < pid ∧ t.getJob id = pid ∧ t.getJobId pid = id) ∧
    (∀ id, live id = none → t.getJob id = 0) ∧
    (∀ pid, 0 < pid → (∀ id, live id ≠ some pid) → t.getJobId pid = 0) ∧
    (∀ pid, IsLeast {i | 0 < i ∧ live i = none} (t.addJob junk pid).1) ∧
    (∀ call u, step junk t call = some u → ∀ id, ¬call.deletes id (t.getJob id) →
      (∀ pid, call = .add pid → id ≠ (t.addJob junk pid).1) → u.getJob id = t.getJob id) ∧
    ∀ pid u, step junk t (.add pid) = some u → ∀ calls v, run (step junk) u calls = some v →
      (∀ c ∈ calls, ¬c.deletes (t.addJob junk pid).1 pid) →
      v.getJob (t.addJob junk pid).1 = pid ∧ v.getJobId pid = (t.addJob junk pid).1 ∧
        (v.reaped pid).1 = (t.launched junk pid).1 := by
  obtain ⟨before, hbefore⟩ := h
  have hholds : Holds t live := holds_run hbefore Holds.start
  refine ⟨fun id pid hl => ?_, fun id hl => (hholds.free_iff id).mpr hl,
    fun pid hpid => hholds.getJobId_absent hpid, hholds.least junk,
    fun call u hstep id => getJob_step hholds hstep, fun pid u hstep calls v hrun hcalls => ?_⟩
  · obtain ⟨hid, hpid⟩ := hholds.positive id pid hl
    exact ⟨hid, hpid, hholds.getJob hl, hholds.getJobId hl⟩
  · obtain ⟨rest, hrest⟩ := recorded_of_run hrun (note junk t (.add pid) live)
    have hlive : note junk t (.add pid) live (t.addJob junk pid).1 = some pid :=
      Function.update_self _ _ _
    have hkept := run_keeps hrest (holds_step hholds hstep) hlive hcalls
    have hv := holds_run hrest (holds_step hholds hstep)
    exact ⟨hv.getJob hkept, hv.getJobId hkept, hv.getJobId hkept⟩

/-- So many jobs, each of which has its index for a process id. -/
def counted (n id : Nat) : Option Int := if 0 < id ∧ id ≤ n then some id else none

private theorem run_counted (junk : Nat → Int) (n : Nat) :
    ∃ t, run (recorded (step junk) (note junk)) (Table.start, fun _ => none)
      ((List.range n).map fun i : Nat => .add (i + 1)) = some (t, counted n) := by
  induction n with
  | zero =>
      refine ⟨Table.start, ?_⟩
      have hnone : (fun _ => none) = counted 0 := by
        funext id
        rw [counted, if_neg (by omega)]
      rw [← hnone]
      rfl
  | succ n ih =>
      obtain ⟨t, ht⟩ := ih
      have hholds : Holds t (counted n) := holds_run ht Holds.start
      have hfree : ∀ id, counted n id ≠ some (n + 1 : Int) := by
        intro id hid
        rw [counted] at hid
        split at hid
        · have heq := Option.some.inj hid
          omega
        · cases hid
      have hindex : (t.addJob junk (n + 1)).1 = n + 1 := by
        refine (hholds.least junk (n + 1)).unique ⟨⟨Nat.succ_pos n, if_neg (by omega)⟩, ?_⟩
        rintro i ⟨hpos, hi⟩
        by_contra hle
        rw [counted, if_pos (by omega)] at hi
        cases hi
      have hstep : step junk t (.add (n + 1)) = some (t.addJob junk (n + 1)).2 :=
        if_pos ⟨by omega, hholds.contains_eq_false (by omega) hfree⟩
      have hnote : note junk t (.add (n + 1)) (counted n) = counted (n + 1) := by
        funext id
        rw [note, hindex, Function.update_apply, counted, counted]
        split
        · next hid => rw [if_pos (by omega), hid]; rfl
        · next hid =>
            congr 1
            exact propext (by omega)
      refine ⟨(t.addJob junk (n + 1)).2, ?_⟩
      rw [List.range_succ, List.map_append, run_append, ht, Option.bind_some]
      have hlast := recorded_eq_some.mpr ⟨hstep, hnote.symm⟩
      exact (run_cons ..).trans (by rw [hlast]; rfl)

/-- The table has grown for 300 jobs, and the index of a deleted one is given to the next. -/
theorem job_table_is_map_reused :
    ∃ t u v, run (recorded (step fun _ => 5) (note fun _ => 5)) (Table.start, fun _ => none)
        ((List.range 300).map fun i : Nat => .add (i + 1)) = some (t, counted 300) ∧
      t.getJob 300 = 300 ∧ 255 < t.capacity ∧
      step (fun _ => 5) t (.deleteByPid 2) = some u ∧ u.getJobId 2 = 0 ∧
      step (fun _ => 5) u (.add 400) = some v ∧ v.getJobId 400 = 2 ∧ v.getJob 300 = 300 := by
  obtain ⟨t, ht⟩ := run_counted (fun _ => 5) 300
  have hreach : Reachable (recorded (step fun _ => 5) (note fun _ => 5))
      (Table.start, fun _ => none) (t, counted 300) := ⟨_, ht⟩
  have hlast : t.getJob 300 = 300 := ((job_table_is_map hreach).1 300 300 rfl).2.2.1
  have hgrown : 255 < t.capacity := by
    by_contra hsmall
    rw [getJob_beyond t (by omega)] at hlast
    exact absurd hlast (by decide)
  have hdelete : recorded (step fun _ => 5) (note fun _ => 5) (t, counted 300) (.deleteByPid 2) =
      some (t.deleteJobByPid 2,
        fun id => if counted 300 id = some 2 then none else counted 300 id) :=
    recorded_eq_some.mpr ⟨rfl, rfl⟩
  obtain ⟨hlive, -, habsent, hleast, hothers, hkept⟩ :=
    job_table_is_map (hreach.trans (Reachable.single hdelete))
  have hgone : (t.deleteJobByPid 2).getJobId 2 = 0 := by
    refine habsent 2 (by decide) fun id hid => ?_
    split at hid
    · cases hid
    · next hne => exact hne hid
  have hindex : ((t.deleteJobByPid 2).addJob (fun _ => 5) 400).1 = 2 := by
    refine (hleast 400).unique ⟨⟨by decide, if_pos rfl⟩, ?_⟩
    rintro i ⟨hpos, hi⟩
    by_contra hle
    have hone : i = 1 := by omega
    rw [hone, if_neg (by decide)] at hi
    cases hi
  have hnew : (t.deleteJobByPid 2).contains 400 = false := by
    refine ((holds_run ht Holds.start).deleteByPid 2).contains_eq_false (by decide) fun id hid => ?_
    split at hid
    · cases hid
    · rw [counted] at hid
      split at hid
      · have heq := Option.some.inj hid
        omega
      · cases hid
  have hadd : step (fun _ => 5) (t.deleteJobByPid 2) (.add 400) =
      some ((t.deleteJobByPid 2).addJob (fun _ => 5) 400).2 := if_pos ⟨by decide, hnew⟩
  obtain ⟨-, hid, -⟩ := hkept 400 _ hadd [] _ rfl (by simp)
  rw [hindex] at hid
  have hthree : (t.deleteJobByPid 2).getJob 300 = 300 := (hlive 300 300 rfl).2.2.1
  have hstill := hothers (.add 400) _ hadd 300 (by simp [deletes]) fun pid heq => by
    cases heq
    rw [hindex]
    decide
  exact ⟨t, _, _, ht, hlast, hgrown, rfl, hgone, hadd, hid, hstill.trans hthree⟩

end JobCall

end SyssoftLabs.Lab4
