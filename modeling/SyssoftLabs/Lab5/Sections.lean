import Mathlib.Data.Fintype.Basic
import SyssoftLabs.Framework.Section

/-!
# Transforming the shared string

The sections of `reverse` and `change_register`, which work on the shared string in place, five
times over. Every read and every write of a character is a step of its own.
-/

namespace SyssoftLabs.Lab5

open SyssoftLabs.Framework

/-- `toy`, with its length `len`. -/
abbrev Toy (len : Nat) := Vector UInt8 len

def upperA : UInt8 := 65
def upperZ : UInt8 := 90
def lowerA : UInt8 := 97
def lowerZ : UInt8 := 122

/-- `for (j = 0; j < 5; ++j)`. -/
def repeats : Nat := 5

variable {len : Nat}

/-! ## Reversing -/

/-- Where `reverse` stands in its loops. -/
inductive Reversing (len : Nat)
  /-- The tests of the loops. -/
  | loop (j i : Nat)
  /-- `c = toy[i]` is done. -/
  | first (j : Nat) (i : Fin (len / 2)) (c : UInt8)
  /-- `toy[len - i - 1]` is read, as `d`. -/
  | second (j : Nat) (i : Fin (len / 2)) (c d : UInt8)
  /-- `toy[i]` is written. -/
  | third (j : Nat) (i : Fin (len / 2)) (c : UInt8)
deriving DecidableEq, Repr

namespace Reversing

private theorem low_lt (i : Fin (len / 2)) : i.val < len := by omega

private theorem high_lt (i : Fin (len / 2)) : len - i.val - 1 < len := by omega

def step : Reversing len → Toy len → Option (Reversing len × Toy len)
  | .loop j i, toy =>
      if j < repeats then
        if h : i < len / 2 then some (.first j ⟨i, h⟩ (toy.get ⟨i, low_lt ⟨i, h⟩⟩), toy)
        else some (.loop (j + 1) 0, toy)
      else none
  | .first j i c, toy => some (.second j i c (toy.get ⟨len - i.val - 1, high_lt i⟩), toy)
  | .second j i c d, toy => some (.third j i c, toy.set i.val d (low_lt i))
  | .third j i c, toy => some (.loop j (i.val + 1), toy.set (len - i.val - 1) c (high_lt i))

/-- One pass of swaps, from the index `i` on. -/
def pass (i : Nat) (toy : Toy len) : Toy len :=
  if h : i < len / 2 then
    pass (i + 1) ((toy.set i (toy.get ⟨len - i - 1, high_lt ⟨i, h⟩⟩) (low_lt ⟨i, h⟩)).set
      (len - i - 1) (toy.get ⟨i, low_lt ⟨i, h⟩⟩) (high_lt ⟨i, h⟩))
  else toy
termination_by len / 2 - i

/-- What is left to do. -/
def rest : Reversing len → Toy len → Toy len
  | .loop j i, toy => passesFrom repeats pass j i toy
  | .first j i c, toy =>
      passesFrom repeats pass j (i.val + 1)
        ((toy.set i.val (toy.get ⟨len - i.val - 1, high_lt i⟩) (low_lt i)).set
          (len - i.val - 1) c (high_lt i))
  | .second j i c d, toy =>
      passesFrom repeats pass j (i.val + 1)
        ((toy.set i.val d (low_lt i)).set (len - i.val - 1) c (high_lt i))
  | .third j i c, toy =>
      passesFrom repeats pass j (i.val + 1) (toy.set (len - i.val - 1) c (high_lt i))

theorem rest_step (l : Reversing len) (toy : Toy len) (l' : Reversing len) (toy' : Toy len)
    (h : step l toy = some (l', toy')) : rest l' toy' = rest l toy := by
  cases l with
  | loop j i =>
      rw [step] at h
      split at h
      · next hj =>
          split at h
          · next hi =>
              cases h
              apply passesFrom_step repeats pass hj
              conv => rhs; rw [pass, dif_pos hi]
          · next hi =>
              cases h
              apply passesFrom_next repeats pass hj
              rw [pass, dif_neg hi]
      · cases h
  | first j i c =>
      cases h
      rfl
  | second j i c d =>
      cases h
      rfl
  | third j i c =>
      cases h
      rfl

theorem rest_end (l : Reversing len) (toy : Toy len) (h : step l toy = none) :
    rest l toy = toy := by
  cases l with
  | loop j i =>
      rw [step] at h
      split at h
      · split at h <;> cases h
      · next hj => exact passesFrom_end repeats pass hj i toy
  | first j i c => cases h
  | second j i c d => cases h
  | third j i c => cases h

end Reversing

/-- The section of `reverse`. -/
def reverse (len : Nat) : Section (Toy len) (Reversing len) where
  start := .loop 0 0
  step := Reversing.step
  rest := Reversing.rest
  rest_step := Reversing.rest_step
  rest_end := Reversing.rest_end

private theorem Toy.get_eq (toy : Toy len) (i : Fin len) : toy.get i = toy[i.val] := rfl

private theorem Reversing.swap_get (toy : Toy len) (i : Fin (len / 2)) (k : Nat) (hk : k < len) :
    ((toy.set i.val (toy.get ⟨len - i.val - 1, high_lt i⟩) (low_lt i)).set (len - i.val - 1)
      (toy.get ⟨i.val, low_lt i⟩) (high_lt i))[k] =
        if k = i.val ∨ k = len - 1 - i.val then toy[len - 1 - k] else toy[k] := by
  have hi := i.isLt
  rw [Vector.getElem_set, Vector.getElem_set]
  rw [Toy.get_eq, Toy.get_eq]
  by_cases hhigh : len - i.val - 1 = k
  · have hmirror : len - 1 - k = i.val := by omega
    have hor : k = i.val ∨ k = len - 1 - i.val := by omega
    simp only [if_pos hhigh, if_pos hor, hmirror]
  · by_cases hlow : i.val = k
    · have hmirror : len - i.val - 1 = len - 1 - k := by omega
      have hor : k = i.val ∨ k = len - 1 - i.val := by omega
      rw [if_neg hhigh, if_pos hlow, if_pos hor]
      simp only [hmirror]
    · have hor : ¬(k = i.val ∨ k = len - 1 - i.val) := by omega
      simp only [if_neg hhigh, if_neg hlow, if_neg hor]

theorem Reversing.pass_get (i : Nat) (toy : Toy len) (k : Nat) (hk : k < len) :
    (pass i toy)[k] = if i ≤ k ∧ i ≤ len - 1 - k then toy[len - 1 - k] else toy[k] := by
  induction i, toy using pass.induct with
  | case1 i toy hi ih =>
      have hswap := swap_get toy ⟨i, hi⟩
      rw [pass, dif_pos hi, ih]
      by_cases hinner : i + 1 ≤ k ∧ i + 1 ≤ len - 1 - k
      · have hout : ¬(len - 1 - k = i ∨ len - 1 - k = len - 1 - i) := by omega
        have hin : i ≤ k ∧ i ≤ len - 1 - k := by omega
        rw [if_pos hinner, if_pos hin, hswap, if_neg hout]
      · rw [if_neg hinner, hswap]
        by_cases hedge : k = i ∨ k = len - 1 - i
        · have hin : i ≤ k ∧ i ≤ len - 1 - k := by omega
          rw [if_pos hedge, if_pos hin]
        · have hout : ¬(i ≤ k ∧ i ≤ len - 1 - k) := by omega
          rw [if_neg hedge, if_neg hout]
  | case2 i toy hi =>
      rw [pass, dif_neg hi]
      split
      · next hmid =>
          have heq : len - 1 - k = k := by omega
          simp only [heq]
      · rfl

private theorem Reversing.pass_eq_reverse (toy : Toy len) : pass 0 toy = toy.reverse := by
  apply Vector.ext
  intro k hk
  rw [pass_get 0 toy k hk, if_pos ⟨Nat.zero_le _, Nat.zero_le _⟩, Vector.getElem_reverse]

/-- Five reversals are one. -/
theorem reverse_effect (toy : Toy len) : (reverse len).effect toy = toy.reverse := by
  have hpass : (Reversing.pass 0 : Toy len → Toy len) = Vector.reverse :=
    funext Reversing.pass_eq_reverse
  change passesFrom repeats Reversing.pass 0 0 toy = _
  rw [passesFrom_start, hpass]
  change toy.reverse.reverse.reverse.reverse.reverse = toy.reverse
  rw [Vector.reverse_reverse, Vector.reverse_reverse]

/-! ## Changing the case -/

/-- Where `change_register` stands in its loops. -/
inductive Changing (len : Nat)
  /-- The tests of the loops, then `toy[i] >= 'A'`. -/
  | loop (j i : Nat)
  /-- `toy[i] <= 'Z'` is to be tested. -/
  | upper (j : Nat) (i : Fin len)
  /-- `toy[i]` is to be read for its lower case. -/
  | toLower (j : Nat) (i : Fin len)
  /-- `toy[i]` is to be read for its upper case. -/
  | toUpper (j : Nat) (i : Fin len)
  /-- `toy[i]` is to be written. -/
  | write (j : Nat) (i : Fin len) (c : UInt8)
deriving DecidableEq, Repr

namespace Changing

def step : Changing len → Toy len → Option (Changing len × Toy len)
  | .loop j i, toy =>
      if j < repeats then
        if h : i < len then
          some (if upperA ≤ toy[i] then .upper j ⟨i, h⟩ else .toUpper j ⟨i, h⟩, toy)
        else some (.loop (j + 1) 0, toy)
      else none
  | .upper j i, toy => some (if toy[i] ≤ upperZ then .toLower j i else .toUpper j i, toy)
  | .toLower j i, toy => some (.write j i (toy[i] - upperA + lowerA), toy)
  | .toUpper j i, toy => some (.write j i (toy[i] - lowerA + upperA), toy)
  | .write j i c, toy => some (.loop j (i.val + 1), toy.set i.val c)

/-- What becomes of a character. -/
def change (c : UInt8) : UInt8 :=
  if upperA ≤ c ∧ c ≤ upperZ then c - upperA + lowerA else c - lowerA + upperA

/-- One pass, from the index `i` on. -/
def pass (i : Nat) (toy : Toy len) : Toy len :=
  if h : i < len then pass (i + 1) (toy.set i (change toy[i])) else toy
termination_by len - i

/-- What is left to do. -/
def rest : Changing len → Toy len → Toy len
  | .loop j i, toy => passesFrom repeats pass j i toy
  | .upper j i, toy =>
      passesFrom repeats pass j (i.val + 1) (toy.set i.val
        (if toy[i] ≤ upperZ then toy[i] - upperA + lowerA else toy[i] - lowerA + upperA))
  | .toLower j i, toy =>
      passesFrom repeats pass j (i.val + 1) (toy.set i.val (toy[i] - upperA + lowerA))
  | .toUpper j i, toy =>
      passesFrom repeats pass j (i.val + 1) (toy.set i.val (toy[i] - lowerA + upperA))
  | .write j i c, toy => passesFrom repeats pass j (i.val + 1) (toy.set i.val c)

theorem rest_step (l : Changing len) (toy : Toy len) (l' : Changing len) (toy' : Toy len)
    (h : step l toy = some (l', toy')) : rest l' toy' = rest l toy := by
  cases l with
  | loop j i =>
      rw [step] at h
      split at h
      · next hj =>
          split at h
          · next hi =>
              have hpass : passesFrom repeats pass j i toy =
                  passesFrom repeats pass j (i + 1) (toy.set i (change toy[i])) := by
                apply passesFrom_step repeats pass hj
                rw [pass, dif_pos hi]
              cases h
              change _ = passesFrom repeats pass j i toy
              rw [hpass, change]
              by_cases hupper : upperA ≤ toy[i]
              · simp only [hupper, true_and]
                rfl
              · simp only [hupper, false_and]
                rfl
          · next hi =>
              cases h
              apply passesFrom_next repeats pass hj
              rw [pass, dif_neg hi]
      · cases h
  | upper j i =>
      cases h
      by_cases hz : toy[i] ≤ upperZ
      · simp only [if_pos hz, rest]
      · simp only [if_neg hz, rest]
  | toLower j i =>
      cases h
      rfl
  | toUpper j i =>
      cases h
      rfl
  | write j i c =>
      cases h
      rfl

theorem rest_end (l : Changing len) (toy : Toy len) (h : step l toy = none) :
    rest l toy = toy := by
  cases l with
  | loop j i =>
      rw [step] at h
      split at h
      · split at h <;> cases h
      · next hj => exact passesFrom_end repeats pass hj i toy
  | upper j i => cases h
  | toLower j i => cases h
  | toUpper j i => cases h
  | write j i c => cases h

theorem pass_eq_map (toy : Toy len) : pass 0 toy = toy.map change := by
  apply Framework.pass_eq_map
  intro i toy
  rw [pass]

end Changing

/-- The section of `change_register`. -/
def changeRegister (len : Nat) : Section (Toy len) (Changing len) where
  start := .loop 0 0
  step := Changing.step
  rest := Changing.rest
  rest_step := Changing.rest_step
  rest_end := Changing.rest_end

/-! ## Letters -/

def isUpper (c : UInt8) : Bool := upperA ≤ c && c ≤ upperZ

def isLower (c : UInt8) : Bool := lowerA ≤ c && c ≤ lowerZ

def isLetter (c : UInt8) : Bool := isUpper c || isLower c

/-- The letter in its other case; every other character as it is. -/
def swapCase (c : UInt8) : UInt8 :=
  if isUpper c then c + 32 else if isLower c then c - 32 else c

theorem forall_byte {p : UInt8 → Prop} (h : ∀ n : Fin 256, p (UInt8.ofFin n)) (c : UInt8) : p c :=
  h c.toFin

private theorem swapCase_letter (c : UInt8) : isLetter c = true → isLetter (swapCase c) = true := by
  apply forall_byte (p := fun c => isLetter c = true → isLetter (swapCase c) = true)
  decide +kernel

theorem swapCase_swapCase (c : UInt8) : swapCase (swapCase c) = c := by
  apply forall_byte (p := fun c => swapCase (swapCase c) = c)
  decide +kernel

private theorem change_letter (c : UInt8) :
    isLetter c = true → Changing.change^[repeats] c = swapCase c := by
  apply forall_byte (p := fun c => isLetter c = true → Changing.change^[repeats] c = swapCase c)
  decide +kernel

private theorem map_iterate (f : UInt8 → UInt8) (n : Nat) (toy : Toy len) :
    (Vector.map f)^[n] toy = toy.map f^[n] := by
  induction n generalizing toy with
  | zero => exact (Vector.map_id toy).symm
  | succ n ih =>
      rw [Function.iterate_succ_apply, ih, Vector.map_map]
      rfl

private theorem changeRegister_effect (toy : Toy len) :
    (changeRegister len).effect toy = toy.map Changing.change^[repeats] := by
  have hpass : (Changing.pass 0 : Toy len → Toy len) = Vector.map Changing.change :=
    funext Changing.pass_eq_map
  change passesFrom repeats Changing.pass 0 0 toy = _
  rw [passesFrom_start, hpass, map_iterate]

/-- A string of letters. -/
def Letters (toy : Toy len) : Prop := ∀ (k : Nat) (h : k < len), isLetter toy[k] = true

theorem Letters.reverse {toy : Toy len} (h : Letters toy) : Letters toy.reverse := by
  intro k hk
  rw [Vector.getElem_reverse]
  apply h

theorem Letters.swap {toy : Toy len} (h : Letters toy) : Letters (toy.map swapCase) := by
  intro k hk
  rw [Vector.getElem_map]
  exact swapCase_letter _ (h k hk)

theorem Letters.changeRegister {toy : Toy len} (h : Letters toy) :
    (changeRegister len).effect toy = toy.map swapCase := by
  rw [changeRegister_effect]
  apply Vector.ext
  intro k hk
  rw [Vector.getElem_map, Vector.getElem_map, change_letter _ (h k hk)]

theorem reverse_changeRegister (toy : Toy len) :
    (reverse len).effect ((changeRegister len).effect toy) =
      (changeRegister len).effect ((reverse len).effect toy) := by
  rw [reverse_effect, reverse_effect, changeRegister_effect, changeRegister_effect]
  apply Vector.ext
  intro k hk
  simp

/-- The reversal of the string in the other case. -/
def swapped (toy : Toy len) : Toy len := toy.reverse.map swapCase

theorem Letters.swapped {toy : Toy len} (h : Letters toy) : Letters (swapped toy) :=
  h.reverse.swap

theorem swapped_swapped (toy : Toy len) : swapped (swapped toy) = toy := by
  apply Vector.ext
  intro k hk
  simp [swapped, swapCase_swapCase]

end SyssoftLabs.Lab5
