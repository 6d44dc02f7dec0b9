import Mathlib.Data.List.Basic
import Mathlib.Logic.Relation

/-!
# Executable transition systems

A system is a partial function from a state and an action to the next state, `none` where the
action is not enabled. A run is a list of actions, so that a concrete run can be evaluated.
A guard is a condition on the state before a step and on the step's action.
-/

namespace SyssoftLabs.Framework

variable {State Action : Type*} (step : State → Action → Option State)

/-- Perform the actions in order; `none` as soon as one of them is not enabled. -/
def run : State → List Action → Option State
  | s, [] => some s
  | s, a :: as => (step s a).bind fun t => run t as

@[simp] theorem run_nil (s : State) : run step s [] = some s := rfl

@[simp] theorem run_cons (s : State) (a : Action) (as : List Action) :
    run step s (a :: as) = (step s a).bind fun t => run step t as := rfl

theorem run_append (s : State) (as bs : List Action) :
    run step s (as ++ bs) = (run step s as).bind fun t => run step t bs := by
  induction as generalizing s with
  | nil => rfl
  | cons a as ih =>
      cases h : step s a with
      | none => simp [h]
      | some t => simp [h, ih]

theorem run_trans {s t u : State} {as bs : List Action}
    (h : run step s as = some t) (h' : run step t bs = some u) :
    run step s (as ++ bs) = some u := by
  rw [run_append, h]
  exact h'

/-- The states some run leads to. -/
def Reachable (s t : State) : Prop := ∃ as, run step s as = some t

theorem Reachable.refl (s : State) : Reachable step s s := ⟨[], rfl⟩

variable {step}

theorem Reachable.trans {s t u : State} (h : Reachable step s t) (h' : Reachable step t u) :
    Reachable step s u := by
  obtain ⟨as, ha⟩ := h
  obtain ⟨bs, hb⟩ := h'
  exact ⟨as ++ bs, run_trans step ha hb⟩

theorem Reachable.single {s t : State} {a : Action} (h : step s a = some t) :
    Reachable step s t := ⟨[a], by simp [h]⟩

/-- The invariant rule for runs whose actions are all of a kind. -/
theorem run_invariant_of_forall {ok : Action → Prop} {I : State → Prop}
    (hstep : ∀ s a t, I s → ok a → step s a = some t → I t)
    {s t : State} {as : List Action} (h : run step s as = some t)
    (hok : ∀ a ∈ as, ok a) (hs : I s) : I t := by
  induction as generalizing s with
  | nil =>
      cases h
      exact hs
  | cons a as ih =>
      rw [run_cons, Option.bind_eq_some_iff] at h
      obtain ⟨u, hu, h⟩ := h
      have ha := hok a List.mem_cons_self
      exact ih h (fun b hb => hok b (List.mem_cons_of_mem a hb)) (hstep s a u hs ha hu)

/-- What holds at the start and is kept by every step holds at the end of every run. -/
theorem run_invariant {I : State → Prop}
    (hstep : ∀ s a t, I s → step s a = some t → I t)
    {s t : State} {as : List Action} (h : run step s as = some t) (hs : I s) : I t :=
  run_invariant_of_forall (fun s a t hs _ ht => hstep s a t hs ht) h (fun _ _ => trivial) hs

theorem Reachable.invariant {I : State → Prop}
    (hstep : ∀ s a t, I s → step s a = some t → I t)
    {s t : State} (h : Reachable step s t) (hs : I s) : I t := by
  obtain ⟨as, h⟩ := h
  exact run_invariant hstep h hs

/-- If every state of a kind short of the goal has a step to a state of the kind with a smaller
measure, some run leads to the goal. -/
theorem reachable_of_decreasing {I goal : State → Prop} (m : State → Nat)
    (hstep : ∀ s, I s → ¬goal s → ∃ a t, step s a = some t ∧ I t ∧ m t < m s)
    {s : State} (hs : I s) : ∃ t, Reachable step s t ∧ I t ∧ goal t := by
  induction hm : m s using Nat.strongRecOn generalizing s with
  | ind d ih =>
      by_cases hgoal : goal s
      · exact ⟨s, Reachable.refl step s, hs, hgoal⟩
      · obtain ⟨a, t, ha, ht, hlt⟩ := hstep s hs hgoal
        obtain ⟨u, hu, hgoal'⟩ := ih (m t) (hm ▸ hlt) ht rfl
        exact ⟨u, (Reachable.single ha).trans hu, hgoal'⟩

variable (step)

/-- Every step of the run meets the guard. -/
def Guarded (ok : State → Action → Prop) : State → List Action → Prop
  | _, [] => True
  | s, a :: as => ok s a ∧ (step s a).elim True fun t => Guarded ok t as

instance Guarded.decidable (ok : State → Action → Prop) [∀ s a, Decidable (ok s a)] :
    ∀ s as, Decidable (Guarded step ok s as)
  | _, [] => inferInstanceAs (Decidable True)
  | s, a :: as =>
      have : Decidable ((step s a).elim True fun t => Guarded step ok t as) :=
        match step s a with
        | none => inferInstanceAs (Decidable True)
        | some t => Guarded.decidable ok t as
      inferInstanceAs (Decidable (ok s a ∧ _))

variable {step}

/-- The invariant rule for runs whose steps all meet a guard. -/
theorem run_invariant_of_guarded {ok : State → Action → Prop} {I : State → Prop}
    (hstep : ∀ s a t, I s → ok s a → step s a = some t → I t)
    {s t : State} {as : List Action} (h : run step s as = some t)
    (hok : Guarded step ok s as) (hs : I s) : I t := by
  induction as generalizing s with
  | nil =>
      cases h
      exact hs
  | cons a as ih =>
      rw [run_cons, Option.bind_eq_some_iff] at h
      obtain ⟨u, hu, h⟩ := h
      obtain ⟨ha, hrest⟩ := hok
      rw [hu] at hrest
      exact ih h hrest (hstep s a u hs ha hu)

variable (step)

/-- Every state of the run has the property. -/
def Throughout (I : State → Prop) : State → List Action → Prop
  | s, [] => I s
  | s, a :: as => I s ∧ (step s a).elim True fun t => Throughout I t as

instance Throughout.decidable (I : State → Prop) [∀ s, Decidable (I s)] :
    ∀ s as, Decidable (Throughout step I s as)
  | s, [] => inferInstanceAs (Decidable (I s))
  | s, a :: as =>
      have : Decidable ((step s a).elim True fun t => Throughout step I t as) :=
        match step s a with
        | none => inferInstanceAs (Decidable True)
        | some t => Throughout.decidable I t as
      inferInstanceAs (Decidable (I s ∧ _))

variable {step}

theorem Throughout.head {I : State → Prop} {s : State} {as : List Action}
    (h : Throughout step I s as) : I s := by
  cases as with
  | nil => exact h
  | cons a as => exact h.1

theorem Throughout.last {I : State → Prop} {s t : State} {as : List Action}
    (h : Throughout step I s as) (hrun : run step s as = some t) : I t := by
  induction as generalizing s with
  | nil =>
      cases hrun
      exact h
  | cons a as ih =>
      rw [run_cons, Option.bind_eq_some_iff] at hrun
      obtain ⟨u, hu, hrun⟩ := hrun
      have hrest := h.2
      rw [hu] at hrest
      exact ih hrest hrun

theorem Throughout.imp {I J : State → Prop} (hIJ : ∀ s, I s → J s) {s : State} {as : List Action}
    (h : Throughout step I s as) : Throughout step J s as := by
  induction as generalizing s with
  | nil => exact hIJ s h
  | cons a as ih =>
      refine ⟨hIJ s h.1, ?_⟩
      have hrest := h.2
      cases hstep : step s a with
      | none => trivial
      | some t =>
          rw [hstep] at hrest
          exact ih hrest

/-- A property that brings a stronger one from each state to the next brings it along the run. -/
theorem Throughout.strengthen {I K : State → Prop}
    (hstep : ∀ s a t, K s → step s a = some t → I t → K t) {s : State} {as : List Action}
    (h : Throughout step I s as) (hs : K s) : Throughout step K s as := by
  induction as generalizing s with
  | nil => exact hs
  | cons a as ih =>
      refine ⟨hs, ?_⟩
      have hrest := h.2
      cases ht : step s a with
      | none => trivial
      | some t =>
          rw [ht] at hrest
          exact ih hrest (hstep s a t hs ht hrest.head)

/-- The invariant of guarded runs holds in every state on the way. -/
theorem throughout_of_guarded {ok : State → Action → Prop} {I : State → Prop}
    (hstep : ∀ s a t, I s → ok s a → step s a = some t → I t)
    {s : State} {as : List Action} (hok : Guarded step ok s as) (hs : I s) :
    Throughout step I s as := by
  induction as generalizing s with
  | nil => exact hs
  | cons a as ih =>
      obtain ⟨ha, hrest⟩ := hok
      refine ⟨hs, ?_⟩
      cases ht : step s a with
      | none => trivial
      | some t =>
          rw [ht] at hrest
          exact ih hrest (hstep s a t hs ha ht)

/-- Where a step keeps a property exactly if it meets the guard, the property holds throughout
exactly the runs that meet the guard. -/
theorem throughout_iff_guarded {ok : State → Action → Prop} {I J : State → Prop}
    (hkeep : ∀ s a t, J s → step s a = some t → J t)
    (hstep : ∀ s a t, J s → I s → step s a = some t → (I t ↔ ok s a))
    {s t : State} {as : List Action} (h : run step s as = some t) (hj : J s) (hi : I s) :
    Throughout step I s as ↔ Guarded step ok s as := by
  induction as generalizing s with
  | nil => exact ⟨fun _ => trivial, fun _ => hi⟩
  | cons a as ih =>
      rw [run_cons, Option.bind_eq_some_iff] at h
      obtain ⟨u, hu, h⟩ := h
      have hju := hkeep s a u hj hu
      have hiff := hstep s a u hj hi hu
      rw [Throughout, Guarded, hu]
      constructor
      · rintro ⟨-, hrest⟩
        have hiu : I u := hrest.head
        exact ⟨hiff.mp hiu, (ih h hju hiu).mp hrest⟩
      · rintro ⟨hok, hrest⟩
        exact ⟨hi, (ih h hju (hiff.mpr hok)).mpr hrest⟩

/-- Guards that agree wherever an invariant holds guard the same runs. -/
theorem guarded_congr {P Q : State → Action → Prop} {J : State → Prop}
    (hkeep : ∀ s a t, J s → step s a = some t → J t) (hiff : ∀ s a, J s → (P s a ↔ Q s a))
    {s : State} (hj : J s) (as : List Action) : Guarded step P s as ↔ Guarded step Q s as := by
  induction as generalizing s with
  | nil => exact Iff.rfl
  | cons a as ih =>
      apply and_congr (hiff s a hj)
      cases ht : step s a with
      | none => exact Iff.rfl
      | some t => exact ih (hkeep s a t hj ht)

/-- A run whose steps all decrease a measure is no longer than its decrease. -/
theorem length_add_le {I : State → Prop} {m : State → Nat}
    (hkeep : ∀ s a t, I s → step s a = some t → I t)
    (hdec : ∀ s a t, I s → step s a = some t → m t < m s)
    {s t : State} {as : List Action} (h : run step s as = some t) (hs : I s) :
    as.length + m t ≤ m s := by
  induction as generalizing s with
  | nil =>
      cases h
      simp
  | cons a as ih =>
      rw [run_cons, Option.bind_eq_some_iff] at h
      obtain ⟨u, hu, h⟩ := h
      have hrest := ih h (hkeep s a u hs hu)
      have hlt := hdec s a u hs hu
      rw [List.length_cons]
      omega

/-- A run whose steps all increase a measure is no longer than its increase. -/
theorem add_length_le {I : State → Prop} {m : State → Nat}
    (hkeep : ∀ s a t, I s → step s a = some t → I t)
    (hinc : ∀ s a t, I s → step s a = some t → m s < m t)
    {s t : State} {as : List Action} (h : run step s as = some t) (hs : I s) :
    m s + as.length ≤ m t := by
  induction as generalizing s with
  | nil =>
      cases h
      exact Nat.le_refl _
  | cons a as ih =>
      rw [run_cons, Option.bind_eq_some_iff] at h
      obtain ⟨u, hu, h⟩ := h
      have hrest := ih h (hkeep s a u hs hu)
      have hlt := hinc s a u hs hu
      rw [List.length_cons]
      omega

/-- Steps of a kind that decrease a measure, or leave it at zero, are no more than its decrease as
long as it is not zero. -/
theorem countP_add_le {I : State → Prop} {m : State → Nat} {mine : Action → Bool}
    (hmine : ∀ s a t, I s → step s a = some t → mine a = true → m t < m s ∨ m t = 0)
    (hle : ∀ s a t, I s → step s a = some t → m t ≤ m s)
    {s t : State} {as : List Action} (h : run step s as = some t)
    (hI : Throughout step I s as) (ht : 0 < m t) : as.countP mine + m t ≤ m s := by
  induction as generalizing s with
  | nil =>
      cases h
      simp
  | cons a as ih =>
      rw [run_cons, Option.bind_eq_some_iff] at h
      obtain ⟨u, hu, h⟩ := h
      obtain ⟨hs, hrest⟩ := hI
      rw [hu] at hrest
      have hcount := ih h hrest
      have hstep := hle s a u hs hu
      rw [List.countP_cons]
      split
      · next ha =>
          have hdec := hmine s a u hs hu ha
          omega
      · omega

end SyssoftLabs.Framework
