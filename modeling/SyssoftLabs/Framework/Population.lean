import Mathlib.Algebra.Ring.Nat
import Mathlib.Data.List.Basic
import Mathlib.Data.List.Perm.Basic

/-!
# Populations of threads

The local states of an unbounded number of threads are a list. A step of one thread replaces one
entry. The lemmas say what this does to the number of threads with a property and to what the
threads hold together.
-/

namespace SyssoftLabs.Framework

variable {α β : Type*} {l : List α} {i : Nat} {a b : α}

/-- A thread leaves and enters a counted set of local states. -/
theorem countP_set_add (p : α → Bool) (h : l[i]? = some a) :
    (l.set i b).countP p + (if p a then 1 else 0) = l.countP p + (if p b then 1 else 0) := by
  induction l generalizing i with
  | nil => cases h
  | cons x l ih =>
      cases i with
      | zero =>
          cases h
          simp only [List.set_cons_zero, List.countP_cons]
          omega
      | succ i =>
          have hi := ih (i := i) (by simpa using h)
          simp only [List.set_cons_succ, List.countP_cons]
          omega

theorem countP_set_same {p : α → Bool} (h : l[i]? = some a) (hp : p a = p b) :
    (l.set i b).countP p = l.countP p := by
  have hcount := countP_set_add (b := b) p h
  rw [hp] at hcount
  omega

theorem countP_set_enter {p : α → Bool} (h : l[i]? = some a) (ha : p a = false)
    (hb : p b = true) : (l.set i b).countP p = l.countP p + 1 := by
  have hcount := countP_set_add (b := b) p h
  simp only [ha, hb, if_true, Bool.false_eq_true, if_false] at hcount
  omega

theorem countP_set_leave {p : α → Bool} (h : l[i]? = some a) (ha : p a = true)
    (hb : p b = false) : (l.set i b).countP p + 1 = l.countP p := by
  have hcount := countP_set_add (b := b) p h
  simp only [ha, hb, if_true, Bool.false_eq_true, if_false] at hcount
  omega

theorem countP_pos_of_getElem? {p : α → Bool} (h : l[i]? = some a) (ha : p a = true) :
    0 < l.countP p :=
  List.countP_pos_iff.mpr ⟨a, List.mem_of_getElem? h, ha⟩

theorem two_le_countP {p : α → Bool} {j : Nat} (hij : i ≠ j) (hi : l[i]? = some a)
    (hj : l[j]? = some b) (ha : p a = true) (hb : p b = true) : 2 ≤ l.countP p := by
  induction l generalizing i j with
  | nil => simp at hi
  | cons x l ih =>
      cases i with
      | zero =>
          cases j with
          | zero => exact absurd rfl hij
          | succ j =>
              have hrest := countP_pos_of_getElem? (p := p) (by simpa using hj) hb
              obtain rfl : x = a := by simpa using hi
              simp only [List.countP_cons, ha, if_true]
              omega
      | succ i =>
          cases j with
          | zero =>
              have hrest := countP_pos_of_getElem? (p := p) (by simpa using hi) ha
              obtain rfl : x = b := by simpa using hj
              simp only [List.countP_cons, hb, if_true]
              omega
          | succ j =>
              have hrest := ih (i := i) (j := j) (by omega) (by simpa using hi) (by simpa using hj)
              simp only [List.countP_cons]
              omega

/-- After a step of one thread every thread is that one or one of the others. -/
theorem of_mem_set {w : α} (hw : w ∈ l.set i b) : w = b ∨ ∃ j, j ≠ i ∧ l[j]? = some w := by
  obtain ⟨j, hj⟩ := List.mem_iff_getElem?.mp hw
  by_cases hij : j = i
  · subst hij
    rw [List.getElem?_set_self'] at hj
    cases hold : l[j]? with
    | none => simp [hold] at hj
    | some x =>
        rw [hold] at hj
        exact Or.inl (Option.some.inj hj).symm
  · rw [List.getElem?_set_ne (Ne.symm hij)] at hj
    exact Or.inr ⟨j, hij, hj⟩

/-- A thread that alone has the property takes a step: none of the others has it. -/
theorem of_mem_set_alone {p : α → Bool} {w : α} (h : l[i]? = some a) (ha : p a = true)
    (hone : l.countP p ≤ 1) (hw : w ∈ l.set i b) : w = b ∨ w ∈ l ∧ p w = false := by
  rcases of_mem_set hw with rfl | ⟨j, hij, hj⟩
  · exact Or.inl rfl
  · refine Or.inr ⟨List.mem_of_getElem? hj, ?_⟩
    rw [← Bool.not_eq_true]
    intro hpw
    have htwo := two_le_countP hij hj h hpw ha
    omega

/-- What the threads hold together, when one of them changes what it holds. -/
theorem flatMap_set_perm (f : α → List β) (h : l[i]? = some a) :
    ((l.set i b).flatMap f ++ f a).Perm (l.flatMap f ++ f b) := by
  induction l generalizing i with
  | nil => cases h
  | cons x l ih =>
      cases i with
      | zero =>
          obtain rfl : x = a := by simpa using h
          simp only [List.set_cons_zero, List.flatMap_cons]
          calc (f b ++ l.flatMap f ++ f x).Perm (f x ++ (f b ++ l.flatMap f)) :=
                List.perm_append_comm
            _ |>.Perm (f x ++ (l.flatMap f ++ f b)) := List.perm_append_comm.append_left _
            _ |>.Perm (f x ++ l.flatMap f ++ f b) := by rw [List.append_assoc]
      | succ i =>
          have hi := ih (i := i) (by simpa using h)
          simp only [List.set_cons_succ, List.flatMap_cons, List.append_assoc]
          exact hi.append_left _

/-- The total of a quantity over all threads, when one of them changes its own. -/
theorem sum_map_set_add (f : α → Nat) (h : l[i]? = some a) :
    ((l.set i b).map f).sum + f a = (l.map f).sum + f b := by
  have hperm := flatMap_set_perm (b := b) (fun x => [f x]) h
  have hsum := hperm.sum_nat
  simpa only [List.sum_append, List.sum_singleton, ← List.map_eq_flatMap] using hsum

end SyssoftLabs.Framework
