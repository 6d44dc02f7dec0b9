import Mathlib.Data.List.Palindrome
import SyssoftLabs.Framework.Decimal
import SyssoftLabs.Lab4.Editor.Buffer

/-!
# Printing integers

`sayi` and `sayul` take the digits of a number from the last to the first into a buffer of their
own, whose bytes have no value before. `sayi` then turns the buffer round.
-/

namespace SyssoftLabs.Lab4

open SyssoftLabs.Framework

/-- `'0' + digit`, for a remainder of either sign. -/
def digit (d : Int) : Char := Char.ofNat ('0'.toNat + d).toNat

/-- `for (; n; ++i, n /= 10) buf[i] = '0' + (n % 10);` -/
def digitsFrom (buffer : List Char) (i : Nat) (n : Int) : Except Stuck (List Char × Nat) :=
  if n = 0 then .ok (buffer, i)
  else do
    let buffer ← poke buffer i (digit (n.tmod 10))
    digitsFrom buffer (i + 1) (n.tdiv 10)
termination_by n.natAbs
decreasing_by
  rw [Int.natAbs_tdiv]
  exact Nat.div_lt_self (Int.natAbs_pos.mpr ‹_›) (by decide)

/-- The loop that exchanges the bytes `j` and `i - j - 1`. -/
def reverseFrom (i : Nat) (buffer : List Char) (j : Nat) : Except Stuck (List Char) :=
  if j < i / 2 then do
    let c ← peek buffer j
    let d ← peek buffer (i - j - 1)
    let buffer ← poke buffer j d
    let buffer ← poke buffer (i - j - 1) c
    reverseFrom i buffer (j + 1)
  else .ok buffer
termination_by i / 2 - j

/-- The text that `sayi` writes. -/
def sayi (memory : Nat → Char) (n : Int32) : Except Stuck CStr :=
  if n = 0 then .ok ['0']
  else do
    let buf := (List.range 33).map memory
    let (buf, i) ← if n < 0 then (poke buf 0 '0').map (·, 1) else .ok (buf, 0)
    let (buf, i) ← digitsFrom buf i n.toInt
    let buf ← poke buf i nul
    let buf ← reverseFrom i buf 0
    stringAt buf 0

/-- The text that `sayul` writes. -/
def sayul (memory : Nat → Char) (n : UInt64) : Except Stuck CStr :=
  if n = 0 then .ok ['0']
  else do
    let buf := (List.range 65).map memory
    let (buf, i) ← digitsFrom buf 0 n.toNat
    let buf ← poke buf i nul
    stringAt buf 0

/-- The text is the numeral of `n` and reads back as `n`. -/
def Prints (text : Except Stuck CStr) (n : Int) : Prop :=
  ∃ s, text = .ok s ∧ s = numeral n ∧ readInt s = some n

/-! ## The loops -/

/-- The digits of `m` with the sign `sgn`, the last one first. -/
def signedDigits (sgn : Int) (m : Nat) : List Char :=
  (Nat.digits 10 m).map fun d : Nat => digit (sgn * d)

theorem digitsFrom_append {sgn : Int} (hsgn : sgn = 1 ∨ sgn = -1) (m : Nat) (pre rest : List Char)
    (hroom : (signedDigits sgn m).length ≤ rest.length) :
    digitsFrom (pre ++ rest) pre.length (sgn * m) =
      .ok (pre ++ (signedDigits sgn m ++ rest.drop (signedDigits sgn m).length),
        pre.length + (signedDigits sgn m).length) := by
  induction m using Nat.strongRecOn generalizing pre rest with
  | ind m ih =>
      rw [digitsFrom]
      by_cases hm : m = 0
      · subst m
        simp [signedDigits]
      · have hne : sgn * (m : Int) ≠ 0 := by rcases hsgn with rfl | rfl <;> omega
        have hmod : (sgn * (m : Int)).tmod 10 = sgn * (m % 10 : Nat) := by
          rcases hsgn with rfl | rfl
          · rw [Int.one_mul, Int.one_mul]
            rfl
          · rw [Int.neg_one_mul, Int.neg_tmod, Int.neg_one_mul]
            rfl
        have hdiv : (sgn * (m : Int)).tdiv 10 = sgn * (m / 10 : Nat) := by
          rcases hsgn with rfl | rfl
          · rw [Int.one_mul, Int.one_mul]
            rfl
          · rw [Int.neg_one_mul, Int.neg_tdiv, Int.neg_one_mul]
            rfl
        have hcons : signedDigits sgn m =
            digit (sgn * (m % 10 : Nat)) :: signedDigits sgn (m / 10) := by
          rw [signedDigits, Nat.digits_def' (by decide) (Nat.pos_of_ne_zero hm)]
          rfl
        rw [hcons, List.length_cons] at hroom ⊢
        obtain ⟨x, rest, rfl⟩ : ∃ x rest', rest = x :: rest' := by
          cases rest with
          | nil => simp at hroom
          | cons x rest => exact ⟨x, rest, rfl⟩
        have hrest := ih (m / 10) (by omega) (pre ++ [digit (sgn * (m % 10 : Nat))]) rest
          (by simpa using hroom)
        rw [if_neg hne, hmod, hdiv, bind_of_ok (poke_append _ _ _ _)]
        simpa [Nat.add_assoc, Nat.add_comm 1] using hrest

private theorem reverseFrom_append (s pre post rest : List Char) (h : pre.length = post.length) :
    reverseFrom (pre.length + s.length + post.length) (pre ++ (s ++ (post ++ rest))) pre.length =
      .ok (pre ++ (s.reverse ++ (post ++ rest))) := by
  induction s using List.bidirectionalRec generalizing pre post with
  | nil =>
      rw [reverseFrom, if_neg (by simp; omega)]
      rfl
  | singleton c =>
      rw [reverseFrom, if_neg (by simp; omega)]
      rfl
  | cons_append c s d ih =>
      have hlt : pre.length <
          (pre.length + (c :: (s ++ [d])).length + post.length) / 2 := by
        simp only [List.length_cons, List.length_append, List.length_nil]
        omega
      have hlast : pre.length + (c :: (s ++ [d])).length + post.length - pre.length - 1 =
          (pre ++ c :: s).length := by
        simp only [List.length_cons, List.length_append, List.length_nil]
        omega
      have hpeek : peek (pre ++ c :: (s ++ d :: (post ++ rest))) (pre ++ c :: s).length =
          .ok d := by
        have hread := peek_append (pre ++ c :: s) d (post ++ rest)
        simpa using hread
      have hpoke : poke (pre ++ d :: (s ++ d :: (post ++ rest))) (pre ++ c :: s).length c =
          .ok (pre ++ d :: (s ++ c :: (post ++ rest))) := by
        have hwrite := poke_append (pre ++ d :: s) d c (post ++ rest)
        simpa using hwrite
      have hbuf : pre ++ (c :: (s ++ [d]) ++ (post ++ rest)) =
          pre ++ c :: (s ++ d :: (post ++ rest)) := by simp
      have hrest := ih (pre ++ [d]) (c :: post) (by simp [h])
      rw [reverseFrom, if_pos hlt, hlast, hbuf, bind_of_ok (peek_append _ _ _), bind_of_ok hpeek,
        bind_of_ok (poke_append _ _ _ _), bind_of_ok hpoke]
      have hlen : pre.length + (c :: (s ++ [d])).length + post.length =
          (pre ++ [d]).length + s.length + (c :: post).length := by
        simp only [List.length_cons, List.length_append, List.length_nil]
        omega
      rw [hlen]
      simpa using hrest

/-! ## What is written -/

section

variable {sgn : Int} {m : Nat}

private theorem digit_toNat {d : Int} (hlow : -10 < d) (hhigh : d < 10) :
    (digit d).toNat = (48 + d).toNat := by
  have hzero : ('0'.toNat : Int) = 48 := rfl
  have hvalid : (48 + d).toNat.isValidChar := by
    left
    omega
  rw [digit, hzero, Char.ofNat, dif_pos hvalid]
  rfl

private theorem signedDigits_one (m : Nat) :
    signedDigits 1 m = (Nat.digits 10 m).map Nat.digitChar := by
  apply List.map_congr_left
  intro d hd
  have hlt := digits_lt m d hd
  apply Char.toNat_inj.mp
  rw [digit_toNat (by omega) (by omega), Nat.toNat_digitChar_of_lt_ten hlt]
  omega

private theorem nul_notMem_signedDigits (hsgn : sgn = 1 ∨ sgn = -1) : nul ∉ signedDigits sgn m := by
  rw [signedDigits, List.mem_map]
  rintro ⟨d, hd, hnul⟩
  have hlt := digits_lt m d hd
  have htoNat : (digit (sgn * d)).toNat = 0 := by
    rw [hnul]
    rfl
  rw [digit_toNat (by rcases hsgn with rfl | rfl <;> omega)
    (by rcases hsgn with rfl | rfl <;> omega)] at htoNat
  rcases hsgn with rfl | rfl <;> omega

private theorem digitsFrom_nul (pre rest : List Char) (hsgn : sgn = 1 ∨ sgn = -1)
    (hroom : (signedDigits sgn m).length < rest.length) :
    ∃ buffer behind, digitsFrom (pre ++ rest) pre.length (sgn * m) =
        .ok (buffer, (pre ++ signedDigits sgn m).length) ∧
      poke buffer (pre ++ signedDigits sgn m).length nul =
        .ok (pre ++ signedDigits sgn m ++ nul :: behind) := by
  have hdigits := digitsFrom_append hsgn m pre rest (Nat.le_of_lt hroom)
  rw [List.drop_eq_getElem_cons hroom, ← List.append_assoc, ← List.length_append] at hdigits
  exact ⟨_, _, hdigits, poke_append _ _ _ _⟩

theorem sayi_reversed (pre rest : List Char) (hsgn : sgn = 1 ∨ sgn = -1) (hpre : nul ∉ pre)
    (hroom : (signedDigits sgn m).length < rest.length) :
    (do
      let (buf, i) ← digitsFrom (pre ++ rest) pre.length (sgn * m)
      let buf ← poke buf i nul
      let buf ← reverseFrom i buf 0
      stringAt buf 0) = .ok ((pre ++ signedDigits sgn m).reverse) := by
  obtain ⟨buffer, behind, hdigits, hpoke⟩ := digitsFrom_nul pre rest hsgn hroom
  have hreverse := reverseFrom_append (pre ++ signedDigits sgn m) [] [] (nul :: behind) rfl
  have hnul : nul ∉ (pre ++ signedDigits sgn m).reverse := by
    rw [List.mem_reverse, List.mem_append, not_or]
    exact ⟨hpre, nul_notMem_signedDigits hsgn⟩
  have hstring := stringAt_append hnul [] behind
  simp only [List.length_nil, Nat.zero_add, Nat.add_zero, List.nil_append] at hreverse hstring
  rw [bind_of_ok hdigits]
  dsimp only
  rw [bind_of_ok hpoke, bind_of_ok hreverse]
  exact hstring

end

private theorem signedDigits_length_le {m k : Nat} (sgn : Int) (hm : m < 10 ^ k) :
    (signedDigits sgn m).length ≤ k := by
  rw [signedDigits, List.length_map, Nat.digits_length_le_iff (by decide)]
  exact hm

private theorem sayi_eq (memory : Nat → Char) {n : Int32} (hn : n ≠ 0) :
    sayi memory n = .ok (if n < 0 then ('0' :: signedDigits (-1) n.toInt.natAbs).reverse
      else (signedDigits 1 n.toInt.natAbs).reverse) := by
  have hlow := n.le_toInt
  have hhigh := n.toInt_lt
  have hlength : ∀ sgn, (signedDigits sgn n.toInt.natAbs).length ≤ 10 := fun sgn =>
    signedDigits_length_le sgn (by omega)
  rw [sayi, if_neg hn]
  dsimp only
  split
  · next hneg =>
      have hlt : n.toInt < 0 := Int32.lt_iff_toInt_lt.mp hneg
      have hvalue : n.toInt = -1 * (n.toInt.natAbs : Int) := by omega
      have hsign : (poke ((List.range 33).map memory) 0 '0').map (·, 1) =
          .ok (['0'] ++ ((List.range 33).map memory).drop 1, ['0'].length) := rfl
      have hrest := sayi_reversed (m := n.toInt.natAbs) ['0']
        (((List.range 33).map memory).drop 1) (.inr rfl) (by decide)
        (Nat.lt_of_le_of_lt (hlength (-1)) (by simp))
      rw [← hvalue] at hrest
      rw [bind_of_ok hsign]
      exact hrest
  · next hneg =>
      have hle : ¬n.toInt < 0 := fun hlt => hneg (Int32.lt_iff_toInt_lt.mpr hlt)
      have hvalue : n.toInt = 1 * (n.toInt.natAbs : Int) := by omega
      have hrest := sayi_reversed (m := n.toInt.natAbs) [] ((List.range 33).map memory)
        (.inl rfl) List.not_mem_nil (Nat.lt_of_le_of_lt (hlength 1) (by simp))
      rw [← hvalue] at hrest
      exact hrest

private theorem sayul_eq (memory : Nat → Char) {n : UInt64} (hn : n ≠ 0) :
    sayul memory n = .ok (signedDigits 1 n.toNat) := by
  have hlength := signedDigits_length_le (k := 20) 1 (m := n.toNat) (by have := n.toNat_lt; omega)
  obtain ⟨buffer, behind, hdigits, hpoke⟩ := digitsFrom_nul (m := n.toNat) []
    ((List.range 65).map memory) (.inl rfl) (Nat.lt_of_le_of_lt hlength (by simp))
  have hstring := stringAt_append (nul_notMem_signedDigits (m := n.toNat) (.inl rfl)) [] behind
  simp only [Int.one_mul, List.nil_append, List.length_nil] at hdigits hpoke hstring
  rw [sayul, if_neg hn]
  dsimp only
  rw [bind_of_ok hdigits]
  dsimp only
  rw [bind_of_ok hpoke]
  exact hstring

/-! ## The numerals -/

private theorem prints_iff {text : Except Stuck CStr} {n : Int} :
    Prints text n ↔ text = .ok (numeral n) := by
  constructor
  · rintro ⟨s, rfl, rfl, -⟩
    rfl
  · exact fun h => ⟨numeral n, h, rfl, readInt_numeral n⟩

theorem numeral_eq_reverse {m : Nat} (hm : m ≠ 0) :
    numeral m = (signedDigits 1 m).reverse := by
  rw [signedDigits_one]
  exact if_neg hm

private theorem sayi_negative_ne {m : Nat} (hm : m ≠ 0) :
    ('0' :: signedDigits (-1) m).reverse ≠ numeral (-(m : Int)) := by
  intro h
  have hnumeral : numeral (-(m : Int)) = '-' :: natNumeral m := by
    cases m with
    | zero => exact absurd rfl hm
    | succ m => rfl
  obtain ⟨d, rest, hhead, hpos, hlt⟩ := natNumeral_head hm
  have hmem : Nat.digitChar d ∈ ('0' :: signedDigits (-1) m).reverse := by
    rw [h, hnumeral, hhead]
    simp
  have hvalue := Nat.toNat_digitChar_of_lt_ten hlt
  rw [List.mem_reverse, List.mem_cons, signedDigits, List.mem_map] at hmem
  rcases hmem with hzero | ⟨e, he, hdigit⟩
  · rw [hzero] at hvalue
    have hcode : '0'.toNat = 48 := rfl
    omega
  · have he' := digits_lt m e he
    rw [← hdigit, digit_toNat (by omega) (by omega)] at hvalue
    omega

private theorem sayi_prints_iff (memory : Nat → Char) (n : Int32) :
    Prints (sayi memory n) n.toInt ↔ 0 ≤ n := by
  rw [prints_iff]
  by_cases hn : n = 0
  · subst n
    exact iff_of_true rfl (by decide)
  · have hne : n.toInt ≠ 0 := by
      intro hzero
      exact hn (Int32.toInt_inj.mp hzero)
    have hle : 0 ≤ n ↔ 0 ≤ n.toInt := Int32.le_iff_toInt_le
    have hlt : n < 0 ↔ n.toInt < 0 := Int32.lt_iff_toInt_lt
    rw [sayi_eq memory hn, Except.ok.injEq, hle]
    by_cases hneg : n.toInt < 0
    · have hvalue : n.toInt = -(n.toInt.natAbs : Int) := by omega
      have hdiffer := sayi_negative_ne (m := n.toInt.natAbs) (by omega)
      rw [← hvalue] at hdiffer
      rw [if_pos (hlt.mpr hneg)]
      exact iff_of_false hdiffer (by omega)
    · have hvalue : (n.toInt.natAbs : Int) = n.toInt := by omega
      have hsame := numeral_eq_reverse (m := n.toInt.natAbs) (by omega)
      rw [hvalue] at hsame
      rw [if_neg (hlt.not.mpr hneg), hsame]
      exact iff_of_true rfl (by omega)

private theorem sayul_prints_iff (memory : Nat → Char) (n : UInt64) :
    Prints (sayul memory n) n.toNat ↔ (Nat.digits 10 n.toNat).Palindrome := by
  rw [prints_iff, List.Palindrome.iff_reverse_eq]
  by_cases hn : n = 0
  · subst n
    simp [sayul, numeral, natNumeral]
  · have hm : n.toNat ≠ 0 := by
      intro hzero
      exact hn (UInt64.toNat_inj.mp hzero)
    rw [sayul_eq memory hn, numeral_eq_reverse hm, Except.ok.injEq, signedDigits_one,
      ← List.map_reverse]
    constructor
    · intro h
      refine (map_digitChar_injective (digits_lt _) ?_ h).symm
      simpa using digits_lt n.toNat
    · intro h
      rw [h]

/-- Which integers the two functions print, and when they agree. -/
theorem integer_printing_iff (memory memory' : Nat → Char) (n : Int32) (m : UInt64) :
    (Prints (sayi memory n) n.toInt ↔ 0 ≤ n) ∧
      (Prints (sayul memory' m) m.toNat ↔ (Nat.digits 10 m.toNat).Palindrome) ∧
      (n.toInt = m.toNat →
        (sayi memory n = sayul memory' m ↔ (Nat.digits 10 m.toNat).Palindrome)) := by
  refine ⟨sayi_prints_iff memory n, sayul_prints_iff memory' m, fun hsame => ?_⟩
  have hprints : Prints (sayi memory n) n.toInt := by
    rw [sayi_prints_iff, Int32.le_iff_toInt_le, hsame]
    exact Int.natCast_nonneg _
  rw [prints_iff, hsame] at hprints
  rw [hprints, eq_comm, ← prints_iff]
  exact sayul_prints_iff memory' m

/-- A negative number, and one with its digits in the wrong order. -/
theorem integer_printing_fails :
    ¬Prints (sayi (fun _ => nul) (-5)) (-5) ∧ ¬Prints (sayul (fun _ => nul) 12) 12 := by
  constructor
  · exact (sayi_prints_iff (fun _ => nul) (-5)).not.mpr (by decide)
  · refine (sayul_prints_iff (fun _ => nul) 12).not.mpr ?_
    rw [List.Palindrome.iff_reverse_eq]
    simp

end SyssoftLabs.Lab4
