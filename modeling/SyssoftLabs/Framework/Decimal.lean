import Mathlib.Data.Nat.Digits.Lemmas

/-!
# Decimal numerals

The numeral of an integer has its most significant digit first, no leading zero and a sign only
below zero. It reads back as the integer.
-/

namespace SyssoftLabs.Framework

def natNumeral (n : Nat) : List Char :=
  if n = 0 then ['0'] else ((Nat.digits 10 n).map Nat.digitChar).reverse

def numeral : Int → List Char
  | .ofNat n => natNumeral n
  | .negSucc n => '-' :: natNumeral (n + 1)

/-- The positional value of a string of digits. -/
def readNat (s : List Char) : Option Nat :=
  if s ≠ [] ∧ s.all Char.isDigit then
    some (Nat.ofDigits 10 (s.reverse.map fun c => c.toNat - '0'.toNat))
  else none

def readInt : List Char → Option Int
  | '-' :: s => (readNat s).map fun n => -(n : Int)
  | s => (readNat s).map Int.ofNat

/-! ## Digits -/

theorem digits_lt (n : Nat) : ∀ d ∈ Nat.digits 10 n, d < 10 := by
  intro d hd
  exact Nat.digits_lt_base (by decide) hd

theorem map_digitChar_value {l : List Nat} (hl : ∀ d ∈ l, d < 10) :
    (l.map Nat.digitChar).map (fun c => c.toNat - '0'.toNat) = l := by
  rw [List.map_map, List.map_congr_left, List.map_id]
  intro d hd
  exact Nat.toNat_digitChar_sub_48_of_lt_ten (hl d hd)

theorem map_digitChar_injective {l l' : List Nat} (hl : ∀ d ∈ l, d < 10) (hl' : ∀ d ∈ l', d < 10)
    (h : l.map Nat.digitChar = l'.map Nat.digitChar) : l = l' := by
  rw [← map_digitChar_value hl, ← map_digitChar_value hl', h]

theorem natNumeral_isDigit (n : Nat) : ∀ c ∈ natNumeral n, c.isDigit = true := by
  intro c hc
  by_cases hn : n = 0
  · subst n
    simp only [natNumeral, if_true, List.mem_singleton] at hc
    subst c
    rfl
  · simp only [natNumeral, if_neg hn, List.mem_reverse, List.mem_map] at hc
    obtain ⟨d, hd, rfl⟩ := hc
    simpa [Nat.isDigit_digitChar] using digits_lt n d hd

theorem natNumeral_head {n : Nat} (hn : n ≠ 0) :
    ∃ d rest, natNumeral n = Nat.digitChar d :: rest ∧ 0 < d ∧ d < 10 := by
  have hne : Nat.digits 10 n ≠ [] := Nat.digits_ne_nil_iff_ne_zero.mpr hn
  have hlast := Nat.getLast_digit_ne_zero 10 hn
  have hsplit := List.dropLast_append_getLast hne
  refine ⟨(Nat.digits 10 n).getLast hne,
    ((Nat.digits 10 n).dropLast.map Nat.digitChar).reverse, ?_, Nat.pos_of_ne_zero hlast,
    digits_lt n _ (List.getLast_mem hne)⟩
  rw [natNumeral, if_neg hn]
  conv => lhs; rw [← hsplit]
  simp

/-! ## Reading back -/

theorem readNat_natNumeral (n : Nat) : readNat (natNumeral n) = some n := by
  by_cases hn : n = 0
  · subst n
    decide
  · have hne : natNumeral n ≠ [] := by
      obtain ⟨d, rest, hcons, -⟩ := natNumeral_head hn
      simp [hcons]
    have hall : (natNumeral n).all Char.isDigit := by
      simpa using natNumeral_isDigit n
    have hvalue : (natNumeral n).reverse.map (fun c => c.toNat - '0'.toNat) = Nat.digits 10 n := by
      rw [natNumeral, if_neg hn, List.reverse_reverse]
      exact map_digitChar_value (digits_lt n)
    rw [readNat, if_pos ⟨hne, hall⟩, hvalue, Nat.ofDigits_digits]

theorem readInt_numeral (n : Int) : readInt (numeral n) = some n := by
  cases n with
  | ofNat n =>
      rw [numeral]
      have hread := readNat_natNumeral n
      have hdigit := natNumeral_isDigit n
      unfold readInt
      split
      · next s hs =>
          have hminus := hdigit '-' (by simp [hs])
          cases hminus
      · rw [hread]
        rfl
  | negSucc n =>
      rw [numeral, readInt, readNat_natNumeral]
      rfl

end SyssoftLabs.Framework
