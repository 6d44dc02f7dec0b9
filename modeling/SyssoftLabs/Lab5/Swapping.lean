import SyssoftLabs.Lab5.Sections

/-!
# Swapping the case and counting

The sections of `multithread7` that its sibling does not have. `change_register` changes letters
only, and `count_capitalized` reads the string once. Every read and every write of a character is a
step of its own.
-/

namespace SyssoftLabs.Lab5

open SyssoftLabs.Framework

variable {len : Nat}

/-! ## Swapping the case -/

/-- Where `change_register` stands in its loops. -/
inductive Swapping (len : Nat)
  /-- The tests of the loops, then `toy[i] >= 'A'`. -/
  | loop (j i : Nat)
  /-- `toy[i] <= 'Z'` is to be tested. -/
  | upper (j : Nat) (i : Fin len)
  /-- `toy[i] >= 'a'` is to be tested. -/
  | other (j : Nat) (i : Fin len)
  /-- `toy[i] <= 'z'` is to be tested. -/
  | lower (j : Nat) (i : Fin len)
  /-- `toy[i]` is to be read for its lower case. -/
  | toLower (j : Nat) (i : Fin len)
  /-- `toy[i]` is to be read for its upper case. -/
  | toUpper (j : Nat) (i : Fin len)
  /-- `toy[i]` is to be written. -/
  | write (j : Nat) (i : Fin len) (c : UInt8)
deriving DecidableEq, Repr

namespace Swapping

def step : Swapping len → Toy len → Option (Swapping len × Toy len)
  | .loop j i, toy =>
      if j < repeats then
        if h : i < len then
          some (if upperA ≤ toy[i] then .upper j ⟨i, h⟩ else .other j ⟨i, h⟩, toy)
        else some (.loop (j + 1) 0, toy)
      else none
  | .upper j ⟨i, h⟩, toy =>
      some (if toy[i] ≤ upperZ then .toLower j ⟨i, h⟩ else .other j ⟨i, h⟩, toy)
  | .other j ⟨i, h⟩, toy => some (if lowerA ≤ toy[i] then .lower j ⟨i, h⟩ else .loop j (i + 1), toy)
  | .lower j ⟨i, h⟩, toy =>
      some (if toy[i] ≤ lowerZ then .toUpper j ⟨i, h⟩ else .loop j (i + 1), toy)
  | .toLower j ⟨i, h⟩, toy => some (.write j ⟨i, h⟩ (toy[i] - upperA + lowerA), toy)
  | .toUpper j ⟨i, h⟩, toy => some (.write j ⟨i, h⟩ (toy[i] - lowerA + upperA), toy)
  | .write j ⟨i, _⟩ c, toy => some (.loop j (i + 1), toy.set i c)

/-- One pass, from the index `i` on. -/
def pass (i : Nat) (toy : Toy len) : Toy len :=
  if h : i < len then pass (i + 1) (toy.set i (swapCase toy[i])) else toy
termination_by len - i

/-- A character that is no capital letter, in its upper case. -/
def raise (c : UInt8) : UInt8 := if isLower c then c - lowerA + upperA else c

/-- What is left to do. -/
def rest : Swapping len → Toy len → Toy len
  | .loop j i, toy => passesFrom repeats pass j i toy
  | .upper j ⟨i, _⟩, toy =>
      passesFrom repeats pass j (i + 1) (toy.set i
        (if toy[i] ≤ upperZ then toy[i] - upperA + lowerA else raise toy[i]))
  | .other j ⟨i, _⟩, toy => passesFrom repeats pass j (i + 1) (toy.set i (raise toy[i]))
  | .lower j ⟨i, _⟩, toy =>
      passesFrom repeats pass j (i + 1) (toy.set i
        (if toy[i] ≤ lowerZ then toy[i] - lowerA + upperA else toy[i]))
  | .toLower j ⟨i, _⟩, toy =>
      passesFrom repeats pass j (i + 1) (toy.set i (toy[i] - upperA + lowerA))
  | .toUpper j ⟨i, _⟩, toy =>
      passesFrom repeats pass j (i + 1) (toy.set i (toy[i] - lowerA + upperA))
  | .write j ⟨i, _⟩ c, toy => passesFrom repeats pass j (i + 1) (toy.set i c)

private theorem swapCase_eq (c : UInt8) :
    swapCase c =
      if upperA ≤ c then if c ≤ upperZ then c - upperA + lowerA else raise c else raise c := by
  apply forall_byte (p := fun c => swapCase c =
    if upperA ≤ c then if c ≤ upperZ then c - upperA + lowerA else raise c else raise c)
  decide +kernel

private theorem raise_of_le {c : UInt8} (h : lowerA ≤ c) :
    raise c = if c ≤ lowerZ then c - lowerA + upperA else c := by
  simp [raise, isLower, h]

private theorem raise_of_not_le {c : UInt8} (h : ¬lowerA ≤ c) : raise c = c := by
  simp [raise, isLower, h]

private theorem set_self (toy : Toy len) {i : Nat} (hi : i < len) : toy.set i toy[i] = toy := by
  apply Vector.ext
  intro k hk
  rw [Vector.getElem_set]
  split
  · next hik => simp [hik]
  · rfl

theorem rest_step (l : Swapping len) (toy : Toy len) (l' : Swapping len) (toy' : Toy len)
    (h : step l toy = some (l', toy')) : rest l' toy' = rest l toy := by
  cases l with
  | loop j i =>
      rw [step] at h
      split at h
      · next hj =>
          split at h
          · next hi =>
              have hpass : passesFrom repeats pass j i toy =
                  passesFrom repeats pass j (i + 1) (toy.set i (swapCase toy[i])) := by
                apply passesFrom_step repeats pass hj
                rw [pass, dif_pos hi]
              cases h
              change _ = passesFrom repeats pass j i toy
              rw [hpass, swapCase_eq]
              by_cases hupper : upperA ≤ toy[i]
              · simp only [if_pos hupper]
                rfl
              · simp only [if_neg hupper]
                rfl
          · next hi =>
              cases h
              apply passesFrom_next repeats pass hj
              rw [pass, dif_neg hi]
      · cases h
  | upper j i =>
      obtain ⟨i, hi⟩ := i
      cases h
      by_cases hz : toy[i] ≤ upperZ
      · simp only [if_pos hz, rest]
      · simp only [if_neg hz, rest]
  | other j i =>
      obtain ⟨i, hi⟩ := i
      cases h
      by_cases ha : lowerA ≤ toy[i]
      · rw [if_pos ha, rest, rest, raise_of_le ha]
      · rw [if_neg ha, rest, rest, raise_of_not_le ha, set_self]
  | lower j i =>
      obtain ⟨i, hi⟩ := i
      cases h
      by_cases hz : toy[i] ≤ lowerZ
      · simp only [if_pos hz, rest]
      · simp only [if_neg hz, rest, set_self]
  | toLower j i =>
      cases h
      rfl
  | toUpper j i =>
      cases h
      rfl
  | write j i c =>
      cases h
      rfl

theorem rest_end (l : Swapping len) (toy : Toy len) (h : step l toy = none) :
    rest l toy = toy := by
  cases l with
  | loop j i =>
      rw [step] at h
      split at h
      · split at h <;> cases h
      · next hj => exact passesFrom_end repeats pass hj i toy
  | upper j i => cases h
  | other j i => cases h
  | lower j i => cases h
  | toLower j i => cases h
  | toUpper j i => cases h
  | write j i c => cases h

theorem pass_eq_map (toy : Toy len) : pass 0 toy = toy.map swapCase := by
  apply Framework.pass_eq_map
  intro i toy
  rw [pass]

end Swapping

/-- The section of `change_register`. -/
def swapRegister (len : Nat) : Section (Toy len) (Swapping len) where
  start := .loop 0 0
  step := Swapping.step
  rest := Swapping.rest
  rest_step := Swapping.rest_step
  rest_end := Swapping.rest_end

theorem map_swapCase_twice (toy : Toy len) : (toy.map swapCase).map swapCase = toy := by
  apply Vector.ext
  intro k hk
  rw [Vector.getElem_map, Vector.getElem_map, swapCase_swapCase]

theorem swapRegister_effect (toy : Toy len) :
    (swapRegister len).effect toy = toy.map swapCase := by
  have hpass : (Swapping.pass 0 : Toy len → Toy len) = Vector.map swapCase :=
    funext Swapping.pass_eq_map
  change passesFrom repeats Swapping.pass 0 0 toy = _
  rw [passesFrom_start, hpass]
  change ((((toy.map swapCase).map swapCase).map swapCase).map swapCase).map swapCase = _
  rw [map_swapCase_twice, map_swapCase_twice]

/-! ## Counting -/

/-- Where `count_capitalized` stands in its loop. -/
inductive Counting (len : Nat)
  /-- The test of the loop, then `toy[i] >= 'A'`. -/
  | loop (i cnt : Nat)
  /-- `toy[i] <= 'Z'` is to be tested. -/
  | upper (i : Fin len) (cnt : Nat)
deriving DecidableEq, Repr

namespace Counting

/-- A step, or the result at the end of the loop. -/
def step : Counting len → Toy len → Counting len ⊕ Nat
  | .loop i cnt, toy =>
      if h : i < len then
        .inl (if upperA ≤ toy[i] then .upper ⟨i, h⟩ cnt else .loop (i + 1) cnt)
      else .inr cnt
  | .upper ⟨i, _⟩ cnt, toy => .inl (.loop (i + 1) (if toy[i] ≤ upperZ then cnt + 1 else cnt))

end Counting

def capitals (toy : Toy len) : Nat := toy.toList.countP isUpper

def smalls (toy : Toy len) : Nat := toy.toList.countP isLower

namespace Counting

/-- What the loop will have counted if the string stays as it is. -/
def total : Counting len → Toy len → Nat
  | .loop i cnt, toy => cnt + (toy.toList.drop i).countP isUpper
  | .upper ⟨i, _⟩ cnt, toy =>
      cnt + (if toy[i] ≤ upperZ then 1 else 0) + (toy.toList.drop (i + 1)).countP isUpper

private theorem drop_cons (toy : Toy len) {i : Nat} (hi : i < len) :
    toy.toList.drop i = toy[i] :: toy.toList.drop (i + 1) := by
  have hlen : i < toy.toList.length := by simpa using hi
  rw [List.drop_eq_getElem_cons hlen]
  simp

theorem total_step (l l' : Counting len) (toy : Toy len) (h : step l toy = .inl l') :
    total l' toy = total l toy := by
  cases l with
  | loop i cnt =>
      rw [step] at h
      split at h
      · next hi =>
          cases h
          rw [total, drop_cons toy hi, List.countP_cons]
          by_cases ha : upperA ≤ toy[i]
          · have hiff : isUpper toy[i] = true ↔ toy[i] ≤ upperZ := by simp [isUpper, ha]
            simp only [if_pos ha, hiff]
            change cnt + (if toy[i] ≤ upperZ then 1 else 0) +
              (toy.toList.drop (i + 1)).countP isUpper = _
            omega
          · simp [ha, total, isUpper]
      · cases h
  | upper i cnt =>
      obtain ⟨i, hi⟩ := i
      cases h
      by_cases hz : toy[i] ≤ upperZ
      · rw [total, total, if_pos hz, if_pos hz]
      · rw [total, total, if_neg hz, if_neg hz]
        rfl

theorem total_end (l : Counting len) (toy : Toy len) {cnt : Nat} (h : step l toy = .inr cnt) :
    total l toy = cnt := by
  cases l with
  | loop i n =>
      rw [step] at h
      split at h
      · cases h
      · next hi =>
          cases h
          have hnil : toy.toList.drop i = [] := by
            rw [List.drop_eq_nil_iff]
            simpa using hi
          rw [total, hnil, List.countP_nil, Nat.add_zero]
  | upper i n => cases h

theorem total_start (toy : Toy len) : total (.loop 0 0) toy = capitals toy := by
  rw [total, List.drop_zero, Nat.zero_add]
  rfl

end Counting

theorem capitals_reverse (toy : Toy len) : capitals toy.reverse = capitals toy := by
  rw [capitals, Vector.toList_reverse, List.countP_reverse]
  rfl

private theorem isUpper_swapCase (c : UInt8) : isUpper (swapCase c) = isLower c := by
  apply forall_byte (p := fun c => isUpper (swapCase c) = isLower c)
  decide +kernel

theorem capitals_swap (toy : Toy len) : capitals (toy.map swapCase) = smalls toy := by
  rw [capitals, Vector.toList_map, List.countP_map]
  have hcomp : isUpper ∘ swapCase = isLower := funext isUpper_swapCase
  rw [hcomp]
  rfl

end SyssoftLabs.Lab5
