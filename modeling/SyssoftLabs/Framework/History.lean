import SyssoftLabs.Framework.Transition

/-!
# History variables

A system next to a record that every step extends. The record never stands in the way of a step, so
that the runs are those of the system itself.
-/

namespace SyssoftLabs.Framework

variable {State Action History : Type*} {step : State → Action → Option State}
  {note : State → Action → History → History} {s t : State} {h j : History} {as : List Action}

/-- The step of the system; `note` extends the record from the state before it. -/
def recorded (step : State → Action → Option State) (note : State → Action → History → History)
    (s : State × History) (a : Action) : Option (State × History) :=
  (step s.1 a).map fun t => (t, note s.1 a s.2)

theorem recorded_eq_some {a : Action} :
    recorded step note (s, h) a = some (t, j) ↔ step s a = some t ∧ j = note s a h := by
  rw [recorded, Option.map_eq_some_iff]
  constructor
  · rintro ⟨u, hu, heq⟩
    cases heq
    exact ⟨hu, rfl⟩
  · rintro ⟨ht, rfl⟩
    exact ⟨t, ht, rfl⟩

theorem recorded_of_run (hrun : run step s as = some t) (h : History) :
    ∃ j, run (recorded step note) (s, h) as = some (t, j) := by
  induction as generalizing s h with
  | nil =>
      cases hrun
      exact ⟨h, rfl⟩
  | cons a as ih =>
      rw [run_cons, Option.bind_eq_some_iff] at hrun
      obtain ⟨u, hu, hrun⟩ := hrun
      obtain ⟨j, hj⟩ := ih hrun (note s a h)
      refine ⟨j, ?_⟩
      rw [run_cons, recorded_eq_some.mpr ⟨hu, rfl⟩]
      exact hj

/-- An invariant of the system next to one that speaks of the record. -/
theorem recorded_invariant {I : State → Prop} {J : State → History → Prop}
    (hI : ∀ s a t, I s → step s a = some t → I t)
    (hJ : ∀ s a t h, I s → J s h → step s a = some t → J t (note s a h))
    (hrun : Reachable (recorded step note) (s, h) (t, j)) (hs : I s) (hh : J s h) :
    I t ∧ J t j := by
  refine hrun.invariant (I := fun u => I u.1 ∧ J u.1 u.2) ?_ ⟨hs, hh⟩
  rintro ⟨s, h⟩ a ⟨t, j⟩ ⟨hs, hh⟩ hstep
  obtain ⟨hst, rfl⟩ := recorded_eq_some.mp hstep
  exact ⟨hI s a t hs hst, hJ s a t h hs hh hst⟩

/-! ## Records that grow at their end -/

section Grown

variable {Entry : Type*} {fits : List Entry → Entry → Prop} {entries : List Entry} {e : Entry}

/-- Every entry of the record fits those before it. -/
def Grown (fits : List Entry → Entry → Prop) (entries : List Entry) : Prop :=
  ∀ before e after, entries = before ++ e :: after → fits before e

theorem Grown.nil : Grown fits [] := by
  intro before e after h
  exact absurd h.symm (by simp)

theorem Grown.concat (h : Grown fits entries) (he : fits entries e) :
    Grown fits (entries ++ [e]) := by
  intro before d after heq
  rcases List.eq_nil_or_concat' after with rfl | ⟨inner, last, rfl⟩
  · obtain ⟨rfl, hlast⟩ := List.append_inj' heq rfl
    cases hlast
    exact he
  · rw [← List.cons_append, ← List.append_assoc] at heq
    exact h before d inner (List.append_inj' heq rfl).1

end Grown

end SyssoftLabs.Framework
