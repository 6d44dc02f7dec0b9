import Mathlib.Data.List.Basic
import Mathlib.Data.Set.Insert

/-!
# Descriptor tables

The descriptors of a process, by number. A new one takes the lowest free number; `dup2` and `close`
replace the entry of a number.
-/

namespace SyssoftLabs.Framework

/-- Entry `n` is what descriptor `n` refers to, `none` where it is closed; the numbers behind the
end are closed. -/
abbrev Descriptors (Desc : Type*) := List (Option Desc)

namespace Descriptors

variable {Desc : Type*}

def get (t : Descriptors Desc) (n : Nat) : Option Desc := (t[n]?).join

def put (t : Descriptors Desc) (n : Nat) (d : Desc) : Descriptors Desc :=
  (t ++ List.replicate (n + 1 - t.length) none).set n (some d)

def close (t : Descriptors Desc) (n : Nat) : Descriptors Desc := t.set n none

/-- The lowest number that is not open. -/
def free (t : Descriptors Desc) : Nat := t.findIdx Option.isNone

def Holds (t : Descriptors Desc) (d : Desc) : Prop := ∃ n, get t n = some d

theorem get_pad (t : Descriptors Desc) (k n : Nat) :
    get (t ++ List.replicate k none) n = get t n := by
  unfold get
  rcases Nat.lt_or_ge n t.length with h | h
  · rw [List.getElem?_append_left h]
  · rw [List.getElem?_append_right h, List.getElem?_eq_none h, List.getElem?_replicate]
    split <;> rfl

theorem get_put (t : Descriptors Desc) (n m : Nat) (d : Desc) :
    get (put t n d) m = if m = n then some d else get t m := by
  have hlen : n < (t ++ List.replicate (n + 1 - t.length) none).length := by
    rw [List.length_append, List.length_replicate]
    omega
  by_cases h : m = n
  · subst h
    rw [if_pos rfl, put, get, List.getElem?_set_self hlen]
    rfl
  · rw [if_neg h, put, ← get_pad t (n + 1 - t.length) m, get, get, List.getElem?_set_ne (Ne.symm h)]

theorem get_close (t : Descriptors Desc) (n m : Nat) :
    get (close t n) m = if m = n then none else get t m := by
  unfold close get
  by_cases h : m = n
  · subst h
    rw [if_pos rfl]
    rcases Nat.lt_or_ge m t.length with hm | hm
    · rw [List.getElem?_set_self hm]
      rfl
    · rw [List.getElem?_eq_none (by rwa [List.length_set])]
      rfl
  · rw [if_neg h, List.getElem?_set_ne (Ne.symm h)]

@[simp] theorem get_put_self (t : Descriptors Desc) (n : Nat) (d : Desc) :
    get (put t n d) n = some d := by
  rw [get_put, if_pos rfl]

theorem get_put_ne {t : Descriptors Desc} {n m : Nat} (d : Desc) (h : m ≠ n) :
    get (put t n d) m = get t m := by
  rw [get_put, if_neg h]

theorem get_close_ne {t : Descriptors Desc} {n m : Nat} (h : m ≠ n) :
    get (close t n) m = get t m := by
  rw [get_close, if_neg h]

theorem get_put_eq_some {t : Descriptors Desc} {n m : Nat} {d e : Desc} :
    get (put t n d) m = some e ↔ m = n ∧ d = e ∨ m ≠ n ∧ get t m = some e := by
  rw [get_put]
  by_cases h : m = n <;> simp [h]

theorem get_close_eq_some {t : Descriptors Desc} {n m : Nat} {e : Desc} :
    get (close t n) m = some e ↔ m ≠ n ∧ get t m = some e := by
  rw [get_close]
  by_cases h : m = n <;> simp [h]

theorem get_free (t : Descriptors Desc) : get t (free t) = none := by
  unfold get free
  rcases Nat.lt_or_ge (t.findIdx Option.isNone) t.length with h | h
  · have hnone := List.findIdx_getElem (p := Option.isNone) (w := h)
    rw [List.getElem?_eq_getElem h, Option.isNone_iff_eq_none.mp hnone]
    rfl
  · rw [List.getElem?_eq_none h]
    rfl

theorem get_map {Other : Type*} (f : Other → Desc) (t : Descriptors Other) (n : Nat) :
    get (t.map (Option.map f)) n = (get t n).map f := by
  rw [get, get, List.getElem?_map]
  cases t[n]? with
  | none => rfl
  | some d => rfl

theorem get_of_lt_free {t : Descriptors Desc} {n : Nat} (h : n < free t) : get t n ≠ none := by
  have hlt : n < t.length := Nat.lt_of_lt_of_le h List.findIdx_le_length
  have hopen : t[n].isNone = false := List.not_of_lt_findIdx h
  rw [get, List.getElem?_eq_getElem hlt, Option.join_some]
  intro hnone
  rw [hnone] at hopen
  cases hopen

/-- An open descriptor keeps its number when another one is opened. -/
theorem ne_free {t : Descriptors Desc} {n : Nat} {d : Desc} (h : get t n = some d) :
    n ≠ free t := by
  intro heq
  rw [heq, get_free] at h
  cases h

/-- The numbers of the open descriptors. -/
def opened (t : Descriptors Desc) : Set Nat := {n | get t n ≠ none}

theorem mem_opened {t : Descriptors Desc} {n : Nat} : n ∈ opened t ↔ get t n ≠ none := Iff.rfl

theorem opened_put (t : Descriptors Desc) (n : Nat) (d : Desc) :
    opened (put t n d) = insert n (opened t) := by
  ext m
  rw [Set.mem_insert_iff, mem_opened, mem_opened, get_put]
  by_cases h : m = n <;> simp [h]

theorem opened_close (t : Descriptors Desc) (n : Nat) :
    opened (close t n) = opened t \ {n} := by
  ext m
  rw [Set.mem_sdiff, Set.mem_singleton_iff, mem_opened, mem_opened, get_close]
  by_cases h : m = n <;> simp [h]

theorem free_notMem_opened (t : Descriptors Desc) : free t ∉ opened t := by
  simp [mem_opened, get_free]

theorem holds_iff_mem {t : Descriptors Desc} {d : Desc} : Holds t d ↔ some d ∈ t := by
  constructor
  · rintro ⟨n, hn⟩
    rw [get, Option.join_eq_some_iff] at hn
    exact List.mem_of_getElem? hn
  · intro hmem
    obtain ⟨n, hn⟩ := List.mem_iff_getElem?.mp hmem
    exact ⟨n, by rw [get, hn, Option.join_some]⟩

theorem Holds.of_put {t : Descriptors Desc} {n : Nat} {d e : Desc} (h : Holds (put t n d) e) :
    e = d ∨ Holds t e := by
  obtain ⟨m, hm⟩ := h
  rcases get_put_eq_some.mp hm with ⟨-, rfl⟩ | ⟨-, hm'⟩
  · exact Or.inl rfl
  · exact Or.inr ⟨m, hm'⟩

theorem Holds.of_close {t : Descriptors Desc} {n : Nat} {e : Desc} (h : Holds (close t n) e) :
    Holds t e := by
  obtain ⟨m, hm⟩ := h
  exact ⟨m, (get_close_eq_some.mp hm).2⟩

theorem not_holds_nil (e : Desc) : ¬ Holds ([] : Descriptors Desc) e := by
  rintro ⟨m, hm⟩
  cases hm

end Descriptors

end SyssoftLabs.Framework
