import SyssoftLabs.Framework.Transition
import SyssoftLabs.Lab4.Jobs

/-!
# The storage of the job table

All functions of `job.c` reach the indices from 0 to `jobs_capacity`. `calloc` is asked for as many
slots; the `realloc` of a full table is asked for one byte more than `jobs_capacity` slots take.
-/

namespace SyssoftLabs.Lab4

open SyssoftLabs.Framework

namespace Table

/-- The allocation has room for all slots. -/
def Stored (t : Table) : Prop := t.jobs.isSome → (t.capacity + 1) * sizeofPid ≤ t.bytes

/-- No slot is free. -/
def Full (t : Table) : Prop := ∀ i, 0 < i → i ≤ t.capacity → t.getJob i ≠ 0

end Table

namespace JobCall

/-- Any call, with what the memory of a `realloc` holds. -/
def perform (t : Table) : (Nat → Int) × JobCall → Option Table
  | (junk, .add pid) => some (t.addJob junk pid).2
  | (_, .deleteByPid pid) => some (t.deleteJobByPid pid)
  | (_, .deleteById id) => some (t.deleteJobById id)

/-- No job is added to a full table. -/
def Fits (t : Table) (call : (Nat → Int) × JobCall) : Prop :=
  ∀ pid, call.2 = .add pid → ¬ t.Full

end JobCall

namespace Table

variable {t : Table} {junk : Nat → Int} {pid : Int}

/-! ## One call -/

/-- Every index that is accessed is in the allocation. -/
theorem Stored.index (h : t.Stored) (hjobs : t.jobs.isSome) {id : Nat} (hid : id ≤ t.capacity) :
    (id + 1) * sizeofPid ≤ t.bytes :=
  Nat.le_trans (Nat.mul_le_mul_right _ (Nat.succ_le_succ hid)) (h hjobs)

private theorem full_iff (t : Table) : t.Full ↔ t.capacity < search t.slots (· = 0) 1 := by
  have hspec := search_spec t.slots (· = 0) 1 (by omega)
  simp only [decide_eq_true_eq, decide_eq_false_iff_not] at hspec
  obtain ⟨hlow, -, hskip, hend⟩ := hspec
  constructor
  · intro h
    by_contra hle
    have hi := Nat.le_of_not_lt hle
    apply h _ hlow hi
    rw [getJob_eq t hi]
    exact hend hi
  · intro h i hpos hi
    rw [getJob_eq t hi]
    exact hskip i hi hpos (by omega)

private theorem addJob_fits (h : ¬ t.Full) (junk : Nat → Int) (pid : Int) :
    (t.addJob junk pid).2.capacity = t.capacity ∧
      (t.addJob junk pid).2.bytes =
        if t.jobs.isNone then (t.capacity + 1) * sizeofPid else t.bytes := by
  rw [full_iff, Nat.not_lt] at h
  simp only [addJob, dif_pos h, and_self]

private theorem addJob_grows (h : t.Full) (junk : Nat → Int) (pid : Int) :
    (t.addJob junk pid).2.capacity = t.capacity * 2 ∧
      (t.addJob junk pid).2.bytes = sizeofPid * (t.capacity * 2) + 1 := by
  rw [full_iff, ← Nat.not_le] at h
  simp only [addJob, dif_neg h, and_self]

private theorem addJob_isSome (t : Table) (junk : Nat → Int) (pid : Int) :
    (t.addJob junk pid).2.jobs.isSome := by
  by_cases h : search t.slots (· = 0) 1 ≤ t.capacity
  · have hadd : t.addJob junk pid = (_, ⟨t.capacity, some _, _⟩) := dif_pos h
    rw [hadd, Option.isSome_some]
  · have hadd : t.addJob junk pid = (_, ⟨t.capacity * 2, some _, _⟩) := dif_neg h
    rw [hadd, Option.isSome_some]

private theorem stored_addJob (h : t.Stored) (junk : Nat → Int) (pid : Int) :
    (t.addJob junk pid).2.Stored ↔ ¬ t.Full := by
  rw [Stored, imp_iff_right (addJob_isSome t junk pid)]
  by_cases hfull : t.Full
  · obtain ⟨hcap, hbytes⟩ := addJob_grows hfull junk pid
    rw [hcap, hbytes, sizeofPid]
    exact iff_of_false (by omega) (not_not_intro hfull)
  · obtain ⟨hcap, hbytes⟩ := addJob_fits hfull junk pid
    rw [hcap, hbytes]
    refine iff_of_true ?_ hfull
    split
    · exact Nat.le_refl _
    · next hjobs => exact h (by simpa [Option.isSome_iff_ne_none] using hjobs)

private theorem stored_deleteJobById (h : t.Stored) (id : Nat) : (t.deleteJobById id).Stored := by
  unfold deleteJobById
  split
  · exact h
  · next jobs hjobs =>
      split
      · exact fun _ => h (by rw [hjobs]; rfl)
      · exact h

private theorem stored_deleteJobByPid (h : t.Stored) (pid : Int) :
    (t.deleteJobByPid pid).Stored := by
  unfold deleteJobByPid
  split
  · exact h
  · next jobs hjobs =>
      dsimp only
      split
      · exact fun _ => h (by rw [hjobs]; rfl)
      · exact h

private theorem stored_start : start.Stored := nofun

end Table

namespace JobCall

open Table

variable {t u : Table}

private theorem stored_perform {call : (Nat → Int) × JobCall} (h : t.Stored)
    (hstep : perform t call = some u) : u.Stored ↔ Fits t call := by
  obtain ⟨junk, call⟩ := call
  cases call with
  | add pid =>
      cases hstep
      rw [stored_addJob h junk pid]
      exact ⟨fun hfull _ _ => hfull, fun hfits => hfits pid rfl⟩
  | deleteByPid pid =>
      cases hstep
      exact iff_of_true (stored_deleteJobByPid h pid) nofun
  | deleteById id =>
      cases hstep
      exact iff_of_true (stored_deleteJobById h id) nofun

private theorem perform_isSome (t : Table) (call : (Nat → Int) × JobCall) :
    ∃ u, perform t call = some u := by
  obtain ⟨junk, call⟩ := call
  cases call <;> exact ⟨_, rfl⟩

private theorem run_perform (t : Table) (calls : List ((Nat → Int) × JobCall)) :
    ∃ u, run perform t calls = some u := by
  induction calls generalizing t with
  | nil => exact ⟨t, rfl⟩
  | cons call calls ih =>
      obtain ⟨u, hu⟩ := perform_isSome t call
      obtain ⟨v, hv⟩ := ih u
      exact ⟨v, by rw [run_cons, hu]; exact hv⟩

private theorem throughout_stored_iff (h : t.Stored) (calls : List ((Nat → Int) × JobCall)) :
    Throughout perform Stored t calls ↔ Guarded perform Fits t calls := by
  obtain ⟨u, hrun⟩ := run_perform t calls
  exact throughout_iff_guarded (J := fun _ => True) (fun _ _ _ _ _ => trivial)
    (fun _ _ _ _ hs hstep => stored_perform hs hstep) hrun trivial h

/-! ## More jobs than slots -/

/-- The first `n` slots are taken. -/
def Taken (n : Nat) (t : Table) : Prop :=
  0 < t.capacity ∧ n ≤ t.capacity ∧ ∀ i, 0 < i → (t.getJob i = 0 ↔ n < i)

private theorem taken_addJob {n : Nat} (h : Taken n t) (hn : n < t.capacity) (junk : Nat → Int)
    {pid : Int} (hpid : 0 < pid) :
    Taken (n + 1) (t.addJob junk pid).2 ∧ (t.addJob junk pid).2.capacity = t.capacity := by
  obtain ⟨hcap, -, htaken⟩ := h
  obtain ⟨hleast, -, hentry⟩ := addJob_spec junk t pid hcap
  have hfree : t.getJob (n + 1) = 0 := (htaken (n + 1) (by omega)).mpr (by omega)
  have hindex : (t.addJob junk pid).1 = n + 1 := by
    refine hleast.unique ⟨⟨by omega, hfree⟩, fun i hi => ?_⟩
    exact (htaken i hi.1).mp hi.2
  have hfull : ¬ t.Full := fun hfull => hfull (n + 1) (by omega) hn hfree
  obtain ⟨hsame, -⟩ := addJob_fits hfull junk pid
  refine ⟨⟨by omega, by omega, fun i hi => ?_⟩, hsame⟩
  rw [hentry, hindex]
  by_cases heq : i = n + 1
  · rw [if_pos heq]
    exact iff_of_false hpid.ne' (by omega)
  · rw [if_neg heq, htaken i hi]
    omega

private theorem not_guarded_of_taken {n : Nat} (h : Taken n t) (junk : Nat → Int) {pids : List Int}
    (hpids : ∀ pid ∈ pids, 0 < pid) (hmany : t.capacity < n + pids.length) :
    ¬ Guarded perform Fits t (pids.map fun pid => (junk, .add pid)) := by
  induction pids generalizing n t with
  | nil =>
      have hle := h.2.1
      rw [List.length_nil] at hmany
      omega
  | cons pid pids ih =>
      rintro ⟨hfits, hrest⟩
      rw [List.length_cons] at hmany
      by_cases hn : n < t.capacity
      · obtain ⟨htaken, hcap⟩ := taken_addJob h hn junk (hpids pid List.mem_cons_self)
        refine ih htaken (fun p hp => hpids p (List.mem_cons_of_mem pid hp)) ?_ hrest
        omega
      · refine hfits pid rfl fun i hpos hi hfree => ?_
        have hlt := (h.2.2 i hpos).mp hfree
        have hle := h.2.1
        omega

private theorem taken_start : Taken 0 Table.start :=
  ⟨by decide, Nat.zero_le _, fun _ hi => iff_of_true rfl hi⟩

/-- The allocation covers the capacity throughout exactly the runs in which no job is added to a
full table. -/
theorem storage_covers_iff (calls : List ((Nat → Int) × JobCall)) :
    Throughout perform Stored Table.start calls ↔ Guarded perform Fits Table.start calls :=
  throughout_stored_iff stored_start calls

/-- 256 jobs at a time. -/
theorem storage_covers_fails :
    ¬ ∀ calls : List ((Nat → Int) × JobCall), Throughout perform Stored Table.start calls := by
  intro h
  let pids : List Int := (List.range 256).map fun i => Int.ofNat (i + 1)
  have hpids : ∀ pid ∈ pids, 0 < pid := by
    intro pid hpid
    obtain ⟨i, -, rfl⟩ := List.mem_map.mp hpid
    exact Int.natCast_pos.mpr i.succ_pos
  have hmany : Table.start.capacity < 0 + pids.length := by
    simp [pids, Table.start]
  apply not_guarded_of_taken taken_start (fun _ => 0) hpids hmany
  exact (throughout_stored_iff stored_start _).mp (h _)

end JobCall

end SyssoftLabs.Lab4
