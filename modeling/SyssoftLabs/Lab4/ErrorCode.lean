import SyssoftLabs.Lab4.Integers

/-!
# The text of an error code

`errc_to_a` allocates nine bytes for the text of an error code, and takes the digits of the code
into them as `sayi` does, without a place for the sign.
-/

namespace SyssoftLabs.Lab4

open SyssoftLabs.Framework

/-- `errc_to_a`, the allocated bytes holding what `memory` gives. -/
def errcToA (memory : Nat → Char) (n : Int32) : Except Stuck CStr := do
  let buf := (List.range 9).map memory
  if n = 0 then
    let buf ← poke buf 0 '0'
    let buf ← poke buf 1 nul
    stringAt buf 0
  else
    let (buf, i) ← digitsFrom buf 0 n.toInt
    let buf ← poke buf i nul
    let buf ← reverseFrom i buf 0
    stringAt buf 0

/-! ## A buffer that is too short -/

section

variable {sgn : Int} {m : Nat}

private theorem signedDigits_cons (sgn : Int) (hm : m ≠ 0) :
    signedDigits sgn m = digit (sgn * (m % 10 : Nat)) :: signedDigits sgn (m / 10) := by
  rw [signedDigits, Nat.digits_def' (by decide) (Nat.pos_of_ne_zero hm)]
  rfl

private theorem digitsFrom_next (hsgn : sgn = 1 ∨ sgn = -1) (hm : m ≠ 0) (buffer : List Char)
    (i : Nat) :
    digitsFrom buffer i (sgn * m) =
      (poke buffer i (digit (sgn * (m % 10 : Nat))) >>= fun buffer =>
        digitsFrom buffer (i + 1) (sgn * (m / 10 : Nat))) := by
  have hne : sgn * (m : Int) ≠ 0 := by rcases hsgn with rfl | rfl <;> omega
  have hmod : (sgn * (m : Int)).tmod 10 = sgn * (m % 10 : Nat) := by
    rcases hsgn with rfl | rfl
    · rw [Int.one_mul, Int.one_mul]
      rfl
    · rw [Int.neg_one_mul, Int.neg_tmod, Int.neg_one_mul]
      rfl
  have hdiv : (sgn * (m : Int)).tdiv 10 = sgn * (m / 10 : Nat) := by
    rcases hsgn with rfl | rfl
    · rw [Int.one_mul, Int.one_mul]
      rfl
    · rw [Int.neg_one_mul, Int.neg_tdiv, Int.neg_one_mul]
      rfl
  rw [digitsFrom, if_neg hne, hmod, hdiv]

private theorem digitsFrom_short (hsgn : sgn = 1 ∨ sgn = -1) (pre rest : List Char)
    (hshort : rest.length < (signedDigits sgn m).length) :
    digitsFrom (pre ++ rest) pre.length (sgn * m) = .error .fault := by
  have hne : ∀ {k : Nat}, 0 < (signedDigits sgn k).length → k ≠ 0 := by
    rintro k hk rfl
    simp [signedDigits] at hk
  induction rest generalizing pre m with
  | nil =>
      rw [digitsFrom_next hsgn (hne hshort), poke, if_neg (by simp)]
      rfl
  | cons x rest ih =>
      have hm := hne (Nat.lt_of_le_of_lt (Nat.zero_le _) hshort)
      rw [signedDigits_cons sgn hm, List.length_cons, List.length_cons] at hshort
      have hrest := ih (pre ++ [digit (sgn * (m % 10 : Nat))]) (m := m / 10) (by omega)
      rw [digitsFrom_next hsgn hm, bind_of_ok (poke_append _ _ _ _)]
      simpa using hrest

private theorem digitsFrom_nul_short (k : List Char → Nat → Except Stuck CStr)
    (hsgn : sgn = 1 ∨ sgn = -1)
    (pre rest : List Char) (hshort : rest.length ≤ (signedDigits sgn m).length) :
    (do
      let (buf, i) ← digitsFrom (pre ++ rest) pre.length (sgn * m)
      let buf ← poke buf i nul
      k buf i) = .error .fault := by
  obtain hlt | heq := Nat.lt_or_eq_of_le hshort
  · rw [digitsFrom_short hsgn pre rest hlt]
    rfl
  · rw [bind_of_ok (digitsFrom_append hsgn m pre rest (Nat.le_of_eq heq.symm))]
    dsimp only
    rw [poke, if_neg (by simp [heq])]
    rfl

end

/-! ## The codes that fit -/

private theorem signedDigits_lt_iff {sgn : Int} {m k : Nat} :
    (signedDigits sgn m).length ≤ k ↔ m < 10 ^ k := by
  rw [signedDigits, List.length_map, Nat.digits_length_le_iff (by decide)]

private theorem errcToA_zero (memory : Nat → Char) : errcToA memory 0 = .ok (numeral 0) := rfl

private theorem errcToA_fits (memory : Nat → Char) {n : Int32} {sgn : Int} {m : Nat} (hn : n ≠ 0)
    (hsgn : sgn = 1 ∨ sgn = -1) (hvalue : n.toInt = sgn * m) (hm : m < 10 ^ 8) :
    errcToA memory n = .ok (signedDigits sgn m).reverse := by
  have hroom : (signedDigits sgn m).length < ((List.range 9).map memory).length := by
    have hlen : (signedDigits sgn m).length ≤ 8 := signedDigits_lt_iff.mpr hm
    simp
    omega
  have hrun := sayi_reversed [] ((List.range 9).map memory) hsgn List.not_mem_nil hroom
  rw [errcToA]
  dsimp only
  rw [if_neg hn, hvalue]
  exact hrun

private theorem errcToA_overrun (memory : Nat → Char) {n : Int32} {sgn : Int} {m : Nat} (hn : n ≠ 0)
    (hsgn : sgn = 1 ∨ sgn = -1) (hvalue : n.toInt = sgn * m) (hm : 10 ^ 8 ≤ m) :
    errcToA memory n = .error .fault := by
  have hshort : ((List.range 9).map memory).length ≤ (signedDigits sgn m).length := by
    have hlen : ¬(signedDigits sgn m).length ≤ 8 := fun h =>
      Nat.not_le_of_lt (signedDigits_lt_iff.mp h) hm
    simp
    omega
  rw [errcToA]
  dsimp only
  rw [if_neg hn, hvalue]
  exact digitsFrom_nul_short (fun buf i => reverseFrom i buf 0 >>= fun buf => stringAt buf 0) hsgn
    [] ((List.range 9).map memory) hshort

private theorem signedDigits_reverse_ne {m : Nat} (hm : m ≠ 0) :
    (signedDigits (-1) m).reverse ≠ numeral (-(m : Int)) := by
  intro h
  have hnumeral : numeral (-(m : Int)) = '-' :: natNumeral m := by
    cases m with
    | zero => exact absurd rfl hm
    | succ m => rfl
  have hlen := congrArg List.length h
  rw [hnumeral, List.length_reverse, List.length_cons, natNumeral, if_neg hm, signedDigits] at hlen
  simp at hlen

theorem errcToA_numeral (memory : Nat → Char) {n : Int32} (hlow : 0 ≤ n.toInt)
    (hhigh : n.toInt < 10 ^ 8) : errcToA memory n = .ok (numeral n.toInt) := by
  by_cases hn : n = 0
  · subst n
    exact errcToA_zero memory
  have hne : n.toInt.natAbs ≠ 0 := by
    intro h
    apply hn
    exact Int32.toInt_inj.mp (Int.natAbs_eq_zero.mp h)
  have hsign : n.toInt = (n.toInt.natAbs : Int) := by omega
  rw [errcToA_fits memory hn (Or.inl rfl) (hsign.trans (Int.one_mul _).symm) (by omega),
    ← numeral_eq_reverse hne, ← hsign]

private theorem exists_sign (n : Int) : ∃ sgn : Int, (sgn = 1 ∨ sgn = -1) ∧ n = sgn * n.natAbs := by
  obtain hneg | hnonneg := lt_or_ge n 0
  · exact ⟨-1, Or.inr rfl, by omega⟩
  · exact ⟨1, Or.inl rfl, by omega⟩

private theorem errcToA_eq_numeral_iff (memory : Nat → Char) (n : Int32) :
    errcToA memory n = .ok (numeral n.toInt) ↔ 0 ≤ n.toInt ∧ n.toInt ≤ 99999999 := by
  constructor
  · intro h
    by_cases hn : n = 0
    · subst n
      decide
    have hne : n.toInt.natAbs ≠ 0 := by
      intro h
      apply hn
      exact Int32.toInt_inj.mp (Int.natAbs_eq_zero.mp h)
    obtain ⟨sgn, hsgn, hvalue⟩ := exists_sign n.toInt
    have hlt : n.toInt.natAbs < 10 ^ 8 := by
      by_contra hge
      rw [errcToA_overrun memory hn hsgn hvalue (Nat.le_of_not_lt hge)] at h
      cases h
    rw [errcToA_fits memory hn hsgn hvalue hlt] at h
    obtain rfl | rfl := hsgn
    · omega
    · have hneg : numeral n.toInt = numeral (-(n.toInt.natAbs : Int)) := by
        congr 1
        omega
      rw [hneg] at h
      exact absurd (Except.ok.inj h) (signedDigits_reverse_ne hne)
  · intro h
    exact errcToA_numeral memory h.1 (by omega)

private theorem errcToA_eq_fault_iff (memory : Nat → Char) (n : Int32) :
    errcToA memory n = .error .fault ↔ 99999999 < n.toInt.natAbs := by
  by_cases hn : n = 0
  · subst n
    rw [errcToA_zero]
    simp
  obtain ⟨sgn, hsgn, hvalue⟩ := exists_sign n.toInt
  constructor
  · intro h
    by_contra hle
    rw [errcToA_fits memory hn hsgn hvalue (by omega)] at h
    cases h
  · intro h
    exact errcToA_overrun memory hn hsgn hvalue (by omega)

/-- A code from 0 to 99999999, and no other, becomes its numeral. A negative one loses its sign, and
its digits are those below `'0'`; a longer one is written behind the allocated bytes. -/
theorem errcToA_iff (memory : Nat → Char) (n : Int32) :
    (errcToA memory n = .ok (numeral n.toInt) ↔ 0 ≤ n.toInt ∧ n.toInt ≤ 99999999) ∧
      (n.toInt < 0 → n.toInt.natAbs ≤ 99999999 → errcToA memory n =
        .ok ((Nat.digits 10 n.toInt.natAbs).map fun d : Nat => digit (-d)).reverse) ∧
      (errcToA memory n = .error .fault ↔ 99999999 < n.toInt.natAbs) := by
  refine ⟨errcToA_eq_numeral_iff memory n, fun hneg hle => ?_, errcToA_eq_fault_iff memory n⟩
  have hn : n ≠ 0 := by
    rintro rfl
    exact absurd hneg (by decide)
  have hvalue : n.toInt = -1 * (n.toInt.natAbs : Int) := by omega
  rw [errcToA_fits memory hn (Or.inr rfl) hvalue (by omega), signedDigits]
  simp only [Int.neg_one_mul]

end SyssoftLabs.Lab4
