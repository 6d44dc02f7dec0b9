import Mathlib.Logic.Function.Iterate

/-!
# Sections of a thread

The steps of a thread between its lock and its unlock, next to what the steps still to come do to
the shared state if no other thread steps in between. Each step keeps that.
-/

namespace SyssoftLabs.Framework

/-- A section, with the local states of the thread inside it. -/
structure Section (Shared Local : Type*) where
  start : Local
  /-- `none` at the end of the section. -/
  step : Local → Shared → Option (Local × Shared)
  /-- What the rest of the section does. -/
  rest : Local → Shared → Shared
  rest_step : ∀ l s l' s', step l s = some (l', s') → rest l' s' = rest l s
  rest_end : ∀ l s, step l s = none → rest l s = s

/-- What the whole section does. -/
def Section.effect {Shared Local : Type*} (body : Section Shared Local) : Shared → Shared :=
  body.rest body.start

/-- Every step inside the section brings its end nearer. -/
def Section.EndsBy {Shared Local : Type*} (body : Section Shared Local) (left : Local → Nat) :
    Prop :=
  ∀ l s l' s', body.step l s = some (l', s') → left l' < left l

/-! ## Repeated passes -/

section Passes

variable {Shared : Type*} (passes : Nat) (pass : Nat → Shared → Shared)

/-- The rest of a loop over passes, from the index `i` of the pass `j` on; `pass i` is the rest of
one pass. -/
def passesFrom (j i : Nat) (s : Shared) : Shared :=
  if j < passes then (pass 0)^[passes - 1 - j] (pass i s) else s

theorem passesFrom_step {j i i' : Nat} {s s' : Shared} (hj : j < passes)
    (h : pass i' s' = pass i s) :
    passesFrom passes pass j i' s' = passesFrom passes pass j i s := by
  rw [passesFrom, if_pos hj, passesFrom, if_pos hj, h]

theorem passesFrom_next {j i : Nat} {s : Shared} (hj : j < passes) (h : pass i s = s) :
    passesFrom passes pass (j + 1) 0 s = passesFrom passes pass j i s := by
  rw [passesFrom, passesFrom, if_pos hj, h]
  split
  · next hnext =>
      have hcount : passes - 1 - j = passes - 1 - (j + 1) + 1 := by omega
      rw [hcount, Function.iterate_succ_apply]
  · next hlast =>
      have hcount : passes - 1 - j = 0 := by omega
      rw [hcount, Function.iterate_zero_apply]

theorem passesFrom_end {j : Nat} (hj : ¬j < passes) (i : Nat) (s : Shared) :
    passesFrom passes pass j i s = s := by
  rw [passesFrom, if_neg hj]

theorem passesFrom_start (s : Shared) : passesFrom passes pass 0 0 s = (pass 0)^[passes] s := by
  unfold passesFrom
  split
  · next hpos =>
      have hcount : (passes - 1 - 0).succ = passes := by omega
      rw [← Function.iterate_succ_apply, hcount]
  · next hzero =>
      have hcount : passes = 0 := by omega
      rw [hcount, Function.iterate_zero_apply]

end Passes

/-! ## A pass over the cells -/

section Cells

variable {α : Type*} {size : Nat} {f : α → α} {pass : Nat → Vector α size → Vector α size}

/-- A pass that rewrites cell after cell has rewritten the cells from its index on. -/
theorem pass_get
    (hpass : ∀ i (cells : Vector α size),
      pass i cells = if h : i < size then pass (i + 1) (cells.set i (f cells[i])) else cells)
    (i : Nat) (cells : Vector α size) (k : Nat) (hk : k < size) :
    (pass i cells)[k] = if i ≤ k then f cells[k] else cells[k] := by
  induction hleft : size - i generalizing i cells with
  | zero =>
      have hi : ¬i < size := by omega
      rw [hpass, dif_neg hi, if_neg (by omega)]
  | succ left ih =>
      have hi : i < size := by omega
      rw [hpass, dif_pos hi, ih _ _ (by omega), Vector.getElem_set]
      by_cases hik : i = k
      · subst hik
        rw [if_pos rfl, if_neg (Nat.not_succ_le_self i), if_pos (Nat.le_refl i)]
      · have hiff : i + 1 ≤ k ↔ i ≤ k := by omega
        simp only [if_neg hik, hiff]

theorem pass_eq_map
    (hpass : ∀ i (cells : Vector α size),
      pass i cells = if h : i < size then pass (i + 1) (cells.set i (f cells[i])) else cells)
    (cells : Vector α size) : pass 0 cells = cells.map f := by
  apply Vector.ext
  intro k hk
  rw [pass_get hpass 0 cells k hk, if_pos (Nat.zero_le _), Vector.getElem_map]

end Cells

end SyssoftLabs.Framework
