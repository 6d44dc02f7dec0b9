import Mathlib.Algebra.Group.Nat.Defs
import Mathlib.Data.List.Infix
import Mathlib.Data.Prod.Lex
import SyssoftLabs.Lab4.Parser.Expansion

/-!
# The expansion of a line

The loop of `get_splitted` steps over one character of each value it puts in and expands the rest
of it again. While no value has a `$` behind its first character, a round removes the `$` at its
position, and what it duplicates of the line lies nearer to a terminator than that `$` did.
-/

namespace SyssoftLabs.Lab4

open SyssoftLabs.Framework

/-! ## The `$`s of a buffer -/

/-- Each `$` counts with a power of its distance to the next terminator. -/
def weight : List Char → Nat
  | [] => 0
  | c :: rest => (if c = '$' then 2 ^ (cString rest).length else 0) + weight rest

private theorem weight_dollar (rest : List Char) :
    weight ('$' :: rest) = 2 ^ (cString rest).length + weight rest := by
  rw [weight, if_pos rfl]

private theorem weight_cons_le (c : Char) (rest : List Char) : weight rest ≤ weight (c :: rest) :=
  Nat.le_add_left _ _

private theorem weight_append_of_notMem {u : List Char} (hu : '$' ∉ u) (rest : List Char) :
    weight (u ++ rest) = weight rest := by
  induction u with
  | nil => rfl
  | cons c u ih =>
      rw [List.mem_cons, not_or] at hu
      rw [List.cons_append, weight, if_neg (Ne.symm hu.1), Nat.zero_add, ih hu.2]

private theorem weight_suffix_le {a b : List Char} (h : a <:+ b) : weight a ≤ weight b := by
  obtain ⟨p, rfl⟩ := h
  induction p with
  | nil => exact Nat.le_refl _
  | cons c p ih => exact Nat.le_trans ih (weight_cons_le c _)

private theorem weight_lt (buffer : List Char) : weight buffer < 2 ^ buffer.length := by
  induction buffer with
  | nil => exact Nat.one_pos
  | cons c rest ih =>
      have hpow : 2 ^ (cString rest).length ≤ 2 ^ rest.length :=
        Nat.pow_le_pow_right (by decide) (cString_isPrefix rest).length_le
      rw [weight, List.length_cons, Nat.pow_succ]
      split <;> omega

private theorem cString_append_of_headD {a b : List Char} (hb : b.headD nul = nul) :
    cString (a ++ b) = cString a := by
  induction a with
  | nil => exact cString_eq_nil.mpr hb
  | cons c a ih =>
      unfold cString at ih ⊢
      rw [List.cons_append, List.takeWhile_cons, List.takeWhile_cons, ih]

private theorem weight_append {a b : List Char} (hb : b.headD nul = nul) :
    weight (a ++ b) = weight a + weight b := by
  induction a with
  | nil => exact (Nat.zero_add _).symm
  | cons c a ih =>
      rw [List.cons_append, weight, weight, ih, cString_append_of_headD hb, Nat.add_assoc]

private theorem drop_cString (buffer : List Char) :
    (buffer.drop (cString buffer).length).headD nul = nul := by
  induction buffer with
  | nil => rfl
  | cons c rest ih =>
      by_cases hc : c = nul
      · rw [show cString (c :: rest) = [] from cString_eq_nil.mpr hc]
        exact hc
      · rw [show cString (c :: rest) = c :: cString rest by simp [cString, hc]]
        exact ih

private theorem weight_string (buffer : List Char) :
    weight buffer = weight (cString buffer) + weight (buffer.drop (cString buffer).length) := by
  rw [← weight_append (drop_cString buffer), List.prefix_iff_eq_append.mp (cString_isPrefix buffer)]

private theorem weight_string_succ (buffer : List Char) :
    weight buffer =
      weight (cString buffer) + weight (buffer.drop ((cString buffer).length + 1)) := by
  have hhead := drop_cString buffer
  rw [weight_string, ← List.drop_drop]
  generalize buffer.drop (cString buffer).length = behind at hhead ⊢
  cases behind with
  | nil => rfl
  | cons c rest =>
      rw [show c = nul from hhead, weight, if_neg (by decide), Nat.zero_add]
      rfl

private theorem weight_drop_lt {buffer : List Char} {m n : Nat} (hmn : m ≤ n)
    (hn : (buffer.drop n).headD nul = nul) :
    weight (buffer.drop m) < 2 ^ (n - m) + weight (buffer.drop n) := by
  have hsplit := List.take_append_drop (n - m) (buffer.drop m)
  rw [List.drop_drop, Nat.add_sub_cancel' hmn] at hsplit
  rw [← hsplit, weight_append hn]
  have := weight_lt ((buffer.drop m).take (n - m))
  have hpow : 2 ^ ((buffer.drop m).take (n - m)).length ≤ 2 ^ (n - m) :=
    Nat.pow_le_pow_right (by decide) (List.length_take_le _ _)
  omega

/-! ## A round -/

/-- The value that the next round puts in the line. -/
def inserted (σ : Scope) (line : List Char) : Option CStr :=
  if line.headD nul = '$' then
    match σ.getVar (cString (line.drop 1)) with
    | some value => some value
    | none =>
        (longestName σ.getVar (cString (line.drop 1)) (cString (line.drop 1)).length).map Prod.snd
  else none

/-- The next round puts in no `$` that is expanded again. -/
def Calm (σ : Scope) (line : List Char) : Prop :=
  ∀ value, inserted σ line = some value → '$' ∉ value.drop 1

/-- The next round leaves the line alone, or puts a value in place of what starts at the `$` and
ends inside the text or behind its terminator. -/
inductive Rewrites (σ : Scope) (line : List Char) : List Char → Prop
  | same : Rewrites σ line line
  | inside (value : CStr) (i : Nat) (hd : line.headD nul = '$')
      (hi : i < (cString (line.drop 1)).length) (hv : inserted σ line = some value) :
      Rewrites σ line (substitute line i value)
  | whole (value : CStr) (hd : line.headD nul = '$') (hv : inserted σ line = some value) :
      Rewrites σ line (substitute line ((cString (line.drop 1)).length + 1) value)

private theorem unfoldVariable_rewrites (σ : Scope) (line : List Char) :
    Rewrites σ line (unfoldVariable σ line) := by
  by_cases hd : line.headD nul = '$'
  · have hval : inserted σ line = _ := if_pos hd
    rw [unfoldVariable_dollar hd rfl]
    cases hv : σ.getVar (cString (line.drop 1)) with
    | some value =>
        rw [hv] at hval
        exact .whole value hd hval
    | none =>
        rw [hv] at hval
        cases hl : longestName σ.getVar (cString (line.drop 1)) (cString (line.drop 1)).length with
        | some found =>
            obtain ⟨k, value⟩ := found
            rw [hl] at hval
            obtain ⟨hpos, hk, -⟩ := longestName_some hl
            exact .inside value (k - 1) hd (by omega) hval
        | none => exact .same
  · rw [unfoldVariable, if_pos hd]
    exact .same

theorem expandStep_inl {σ : Scope} {before line : List Char} {t : List Char × List Char}
    (h : expandStep σ (before, line) = .ok (.inl t)) :
    line.headD nul ≠ nul ∧ t.2 = (unfoldVariable σ line).tail := by
  rw [expandStep] at h
  split at h
  · cases h
  · refine ⟨‹_›, ?_⟩
    split at h
    · cases h
    · next hu =>
        cases h
        rw [hu]
        rfl

/-! ## The weight after a round -/

section

variable {value : CStr} {y : List Char}

private theorem substitute_dollar (y : List Char) (i : Nat) (value : CStr) :
    substitute ('$' :: y) i value = value ++ (cString (y.drop i) ++
      nul :: y.drop (value.length + (cString (y.drop i)).length)) := by
  rw [substitute, List.drop_succ_cons, List.append_assoc, List.length_append, List.drop_succ_cons]

private theorem weight_terminated (s behind : List Char) :
    weight (s ++ nul :: behind) = weight s + weight behind := by
  rw [weight_append rfl, weight, if_neg (by decide), Nat.zero_add]

private theorem weight_stepped_le (hv : '$' ∉ value.drop 1) (rest : List Char) :
    weight (value ++ rest).tail ≤ weight rest := by
  cases value with
  | nil => exact weight_suffix_le (List.tail_suffix rest)
  | cons c value => exact Nat.le_of_eq (weight_append_of_notMem hv rest)

theorem cString_drop {i : Nat} (hi : i ≤ (cString y).length) :
    cString (y.drop i) = (cString y).drop i := by
  have hsplit := List.prefix_iff_eq_append.mp (cString_isPrefix y)
  calc cString (y.drop i)
      = cString ((cString y).drop i ++ y.drop (cString y).length) := by
        rw [← List.drop_append_of_le_length hi, hsplit]
    _ = (cString y).drop i := by
        rw [cString_append_of_headD (drop_cString y)]
        exact cString_of_notMem fun h => nul_notMem_cString y (List.mem_of_mem_drop h)

private theorem weight_inside {i : Nat} (hi : i < (cString y).length) (hv : '$' ∉ value.drop 1) :
    weight (substitute ('$' :: y) i value).tail < weight ('$' :: y) := by
  have hkept : weight (cString (y.drop i)) ≤ weight (cString y) := by
    rw [cString_drop (Nat.le_of_lt hi)]
    exact weight_suffix_le (List.drop_suffix i _)
  have hname := weight_lt (cString y)
  have hbehind := weight_suffix_le
    (List.drop_suffix (value.length + (cString (y.drop i)).length) y)
  calc weight (substitute ('$' :: y) i value).tail
      ≤ weight (cString (y.drop i)) +
          weight (y.drop (value.length + (cString (y.drop i)).length)) := by
        rw [substitute_dollar, ← weight_terminated]
        exact weight_stepped_le hv _
    _ < 2 ^ (cString y).length + weight y := by omega
    _ = weight ('$' :: y) := (weight_dollar y).symm

private theorem weight_whole (hne : value ≠ []) (hv : '$' ∉ value.drop 1) :
    weight (substitute ('$' :: y) ((cString y).length + 1) value).tail < weight ('$' :: y) := by
  have hlen := List.length_pos_iff.mpr hne
  have hfirst := weight_string_succ y
  have hdollar := weight_dollar y
  rw [substitute_dollar]
  generalize (cString y).length = n at hfirst hdollar ⊢
  have hsecond := weight_string (y.drop (n + 1))
  have hend := drop_cString (y.drop (n + 1))
  rw [List.drop_drop] at hsecond hend
  generalize cString (y.drop (n + 1)) = r at hsecond hend ⊢
  have hrest : weight (y.drop (value.length + r.length)) <
      2 ^ n + weight (y.drop (n + 1 + r.length)) := by
    rcases Nat.le_total (value.length + r.length) (n + 1 + r.length) with h | h
    · have hdrop := weight_drop_lt h hend
      have hpow : 2 ^ (n + 1 + r.length - (value.length + r.length)) ≤ 2 ^ n :=
        Nat.pow_le_pow_right (by decide) (by omega)
      omega
    · have hsuffix : y.drop (value.length + r.length) <:+ y.drop (n + 1 + r.length) :=
        List.drop_suffix_drop_left y h
      have := weight_suffix_le hsuffix
      have := Nat.two_pow_pos n
      omega
  have hstepped := weight_stepped_le hv (r ++ nul :: y.drop (value.length + r.length))
  rw [weight_terminated] at hstepped
  omega

private theorem weight_moved {Z : List Char} (hfront : '$' :: cString y <:+ Z)
    (hbehind : cString (y.drop ((cString y).length + 1)) <:+ Z)
    (hlen : (cString y).length < (cString (y.drop ((cString y).length + 1))).length) :
    weight (y.drop (cString (y.drop ((cString y).length + 1))).length) +
      weight (cString (y.drop ((cString y).length + 1))) = weight ('$' :: y) := by
  have hfirst := weight_string_succ y
  have hsecond := weight_string (y.drop ((cString y).length + 1))
  have hend := drop_cString (y.drop ((cString y).length + 1))
  have hsplit := List.prefix_iff_eq_append.mp (cString_isPrefix (y.drop ((cString y).length + 1)))
  have hname : cString (cString y) = cString y := cString_of_notMem (nul_notMem_cString y)
  rw [weight_dollar]
  generalize cString y = s at *
  generalize cString (y.drop (s.length + 1)) = r at *
  generalize (y.drop (s.length + 1)).drop r.length = behind at *
  have hsame : '$' :: s = r.drop (r.length - (s.length + 1)) :=
    List.suffix_iff_eq_drop.mp (List.suffix_of_suffix_length_le hfront hbehind hlen)
  have hdrop : y.drop r.length = '$' :: s ++ behind := by
    calc y.drop r.length
        = (y.drop (s.length + 1)).drop (r.length - (s.length + 1)) := by
          rw [List.drop_drop, Nat.add_sub_cancel' hlen]
      _ = '$' :: s ++ behind := by
          rw [← hsplit, List.drop_append_of_le_length (Nat.sub_le _ _), ← hsame]
  have hfrontWeight := weight_dollar s
  rw [hname] at hfrontWeight
  rw [hdrop, weight_append hend]
  omega

private theorem weight_empty {Z : List Char} (hfront : '$' :: cString y <:+ Z)
    (hbehind : cString (y.drop ((cString y).length + 1)) <:+ Z) :
    weight (substitute ('$' :: y) ((cString y).length + 1) []).tail < weight ('$' :: y) ∨
      (weight (substitute ('$' :: y) ((cString y).length + 1) []).tail ≤ weight ('$' :: y) ∧
        (substitute ('$' :: y) ((cString y).length + 1) []).tail.length = y.length) := by
  have hdollar := weight_dollar y
  have hmoved := weight_moved hfront hbehind
  have hshort := (cString_isPrefix (y.drop ((cString y).length + 1))).length_le
  rw [List.length_drop] at hshort
  rw [substitute_dollar, List.nil_append, List.length_nil, Nat.zero_add]
  generalize cString (y.drop ((cString y).length + 1)) = r at hmoved hshort ⊢
  cases r with
  | nil =>
      left
      have := Nat.two_pow_pos (cString y).length
      show weight (y.drop 0) < _
      rw [List.drop_zero]
      omega
  | cons c r =>
      rw [List.cons_append, List.tail_cons, weight_terminated]
      rw [List.length_cons] at hmoved hshort ⊢
      rcases Nat.lt_or_ge (cString y).length (r.length + 1) with h | h
      · right
        have := hmoved h
        have := weight_cons_le c r
        refine ⟨by omega, ?_⟩
        rw [List.length_append, List.length_cons, List.length_drop]
        omega
      · left
        have hpow : 2 ^ r.length ≤ 2 ^ (cString y).length :=
          Nat.pow_le_pow_right (by decide) (by omega)
        have := weight_lt r
        have := weight_suffix_le (List.drop_suffix (r.length + 1) y)
        omega

end

/-! ## The rounds -/

/-- Behind the rest of a value all strings of the buffer are ends of one text. -/
def Chained (text line : List Char) : Prop :=
  ∃ value behind, line = value ++ behind ∧ '$' ∉ value ∧ ∀ q, q <:+ behind → cString q <:+ text

/-- The weight falls, or it stays and a character is stepped over. -/
def Nearer (next line : List Char) : Prop :=
  weight next < weight line ∨ weight next ≤ weight line ∧ next.length < line.length

section

variable {σ : Scope} {text line : List Char} {value : CStr}

private theorem nearer_wellFounded : WellFounded Nearer := by
  let measure (line : List Char) : Nat × Nat := (weight line, line.length)
  have hlex : WellFounded (InvImage (Prod.Lex (· < ·) (· < ·)) measure) :=
    InvImage.wf measure (Prod.lex Nat.lt_wfRel Nat.lt_wfRel).wf
  refine Subrelation.wf (fun {next line} h => ?_) hlex
  rcases h with h | ⟨hle, hlen⟩
  · exact Prod.Lex.left _ _ h
  · rcases Nat.lt_or_eq_of_le hle with hlt | heq
    · exact Prod.Lex.left _ _ hlt
    · show Prod.Lex _ _ (weight next, next.length) (weight line, line.length)
      rw [heq]
      exact Prod.Lex.right _ hlen

private theorem chained_suffix {behind : List Char} (h : ∀ q, q <:+ behind → cString q <:+ text) :
    Chained text behind :=
  ⟨[], behind, rfl, by simp, h⟩

theorem Chained.tail (h : Chained text line) : Chained text line.tail := by
  obtain ⟨value, behind, rfl, hvalue, hbehind⟩ := h
  cases value with
  | nil => exact chained_suffix fun q hq => hbehind q (hq.trans (List.tail_suffix _))
  | cons c value => exact ⟨value, behind, rfl, fun h => hvalue (List.mem_cons_of_mem c h), hbehind⟩

private theorem Chained.strings (h : Chained text line) (hd : line.headD nul = '$') :
    ∀ q, q <:+ line → cString q <:+ text := by
  obtain ⟨value, behind, rfl, hvalue, hbehind⟩ := h
  cases value with
  | nil => exact hbehind
  | cons c value =>
      have hc : c = '$' := hd
      rw [hc] at hvalue
      exact absurd List.mem_cons_self hvalue

private theorem strings_terminated {s behind : List Char} (hs : nul ∉ s) (htext : s <:+ text)
    (hbehind : ∀ q, q <:+ behind → cString q <:+ text) :
    ∀ q, q <:+ s ++ nul :: behind → cString q <:+ text := by
  induction s with
  | nil =>
      intro q hq
      rcases List.suffix_cons_iff.mp hq with rfl | h
      · exact List.nil_suffix
      · exact hbehind q h
  | cons c s ih =>
      intro q hq
      rcases List.suffix_cons_iff.mp hq with rfl | h
      · show cString (c :: s ++ nul :: behind) <:+ text
        rw [cString_append_nul hs]
        exact htext
      · rw [List.mem_cons, not_or] at hs
        exact ih hs.2 ((List.suffix_cons c s).trans htext) q h

private theorem chained_put (hv : '$' ∉ value.drop 1) {s behind : List Char} (hs : nul ∉ s)
    (htext : s <:+ text) (hbehind : ∀ q, q <:+ behind → cString q <:+ text) :
    Chained text (value ++ (s ++ nul :: behind)).tail := by
  have hstrings := strings_terminated hs htext hbehind
  cases value with
  | nil => exact (chained_suffix hstrings).tail
  | cons c value => exact ⟨value, _, rfl, hv, hstrings⟩

private theorem chained_substitute (hline : ∀ q, q <:+ line → cString q <:+ text)
    (hv : '$' ∉ value.drop 1) (i : Nat) : Chained text (substitute line i value).tail := by
  rw [substitute, List.append_assoc]
  exact chained_put hv (nul_notMem_cString _) (hline _ (List.drop_suffix _ _))
    fun q hq => hline q (hq.trans (List.drop_suffix _ _))

private theorem nearer_substitute {y : List Char} {i : Nat}
    (hline : ∀ q, q <:+ '$' :: y → cString q <:+ text) (hv : '$' ∉ value.drop 1)
    (hi : i < (cString y).length ∨ i = (cString y).length + 1) :
    Nearer (substitute ('$' :: y) i value).tail ('$' :: y) := by
  rcases hi with hi | rfl
  · exact .inl (weight_inside hi hv)
  · by_cases hne : value = []
    · subst hne
      have hfront : '$' :: cString y <:+ text := hline ('$' :: y) List.suffix_rfl
      have hbehind : cString (y.drop ((cString y).length + 1)) <:+ text :=
        hline _ ((List.drop_suffix _ y).trans (List.suffix_cons _ y))
      rcases weight_empty hfront hbehind with h | ⟨hle, hlen⟩
      · exact .inl h
      · exact .inr ⟨hle, hlen ▸ Nat.lt_succ_self _⟩
    · exact .inl (weight_whole hne hv)

private theorem nearer_tail (hd : line.headD nul ≠ nul) : Nearer line.tail line := by
  cases line with
  | nil => exact absurd rfl hd
  | cons c line => exact .inr ⟨weight_cons_le c line, Nat.lt_succ_self _⟩

private theorem chained_round (h : Chained text line) (hcalm : Calm σ line)
    (hd : line.headD nul ≠ nul) :
    Chained text (unfoldVariable σ line).tail ∧ Nearer (unfoldVariable σ line).tail line := by
  have hput : ∀ i value, line.headD nul = '$' → inserted σ line = some value →
      (i < (cString (line.drop 1)).length ∨ i = (cString (line.drop 1)).length + 1) →
      Chained text (substitute line i value).tail ∧ Nearer (substitute line i value).tail line := by
    intro i value hdollar hv hi
    have hline := h.strings hdollar
    refine ⟨chained_substitute hline (hcalm value hv) i, ?_⟩
    cases line with
    | nil => exact absurd rfl hd
    | cons c y =>
        have hc : c = '$' := hdollar
        subst hc
        exact nearer_substitute hline (hcalm value hv) hi
  have hrewrites := unfoldVariable_rewrites σ line
  generalize unfoldVariable σ line = next at hrewrites ⊢
  cases hrewrites with
  | same => exact ⟨h.tail, nearer_tail hd⟩
  | inside value i hdollar hi hv => exact hput i value hdollar hv (.inl hi)
  | whole value hdollar hv => exact hput _ value hdollar hv (.inr rfl)

private theorem chained_of_longer (hcalm : Calm σ line) (hd : line.headD nul ≠ nul)
    (hlonger : line.length ≤ (unfoldVariable σ line).tail.length) :
    ∃ text, Chained text (unfoldVariable σ line).tail := by
  have hput : ∀ i value, inserted σ line = some value →
      line.length ≤ (substitute line i value).tail.length →
      ∃ text, Chained text (substitute line i value).tail := by
    intro i value hv hlen
    refine ⟨cString (line.drop (i + 1)), ?_⟩
    have hnil : line.drop ((value ++ cString (line.drop (i + 1))).length + 1) = [] := by
      rw [substitute, List.length_tail, List.length_append, List.length_cons,
        List.length_drop] at hlen
      have : 0 < line.length := by
        cases line with
        | nil => exact absurd rfl hd
        | cons c line => exact Nat.succ_pos _
      rw [List.drop_eq_nil_iff]
      omega
    rw [substitute, hnil, List.append_assoc]
    refine chained_put (hcalm value hv) (nul_notMem_cString _) List.suffix_rfl fun q hq => ?_
    rw [List.suffix_nil.mp hq]
    exact List.nil_suffix
  have hrewrites := unfoldVariable_rewrites σ line
  generalize unfoldVariable σ line = next at hrewrites hlonger ⊢
  cases hrewrites with
  | same =>
      cases line with
      | nil => exact absurd rfl hd
      | cons c line => exact absurd hlonger (Nat.not_succ_le_self _)
  | inside value i _ _ hv => exact hput i value hv hlonger
  | whole value _ hv => exact hput _ value hv hlonger

end

/-! ## The loop -/

section

variable {σ : Scope} {s : List Char × List Char}

/-- From this state on no round puts in a `$` that is expanded again. -/
def CalmFrom (σ : Scope) (s : List Char × List Char) : Prop :=
  ∀ n t, roundAt (expandStep σ) n s = some t → Calm σ t.2

theorem CalmFrom.now (h : CalmFrom σ s) : Calm σ s.2 := h 0 s rfl

theorem CalmFrom.next {t : List Char × List Char} (h : CalmFrom σ s)
    (hs : expandStep σ s = .ok (.inl t)) : CalmFrom σ t :=
  fun n u hu => h (n + 1) u ((roundAt_next hs).trans hu)

private theorem ends_chained {text : List Char} (hs : CalmFrom σ s) (htext : Chained text s.2) :
    Ends (expandStep σ) s := by
  refine ends_of_decreasing nearer_wellFounded (fun s => s.2)
    (fun s => CalmFrom σ s ∧ Chained text s.2) (fun s t h ht => .inr ?_) ⟨hs, htext⟩
  obtain ⟨hd, hrest⟩ := expandStep_inl ht
  obtain ⟨hchained, hnearer⟩ := chained_round h.2 h.1.now hd
  rw [hrest]
  exact ⟨⟨h.1.next ht, hchained⟩, hnearer⟩

private theorem ends_calm (hs : CalmFrom σ s) : Ends (expandStep σ) s := by
  refine ends_of_decreasing Nat.lt_wfRel.wf (fun s => s.2.length) (CalmFrom σ)
    (fun s t h ht => ?_) hs
  obtain ⟨hd, hrest⟩ := expandStep_inl ht
  rcases Nat.lt_or_ge t.2.length s.2.length with hlt | hge
  · exact .inr ⟨h.next ht, hlt⟩
  · obtain ⟨text, htext⟩ := chained_of_longer h.now hd (hrest ▸ hge)
    exact .inl (ends_chained (h.next ht) (hrest ▸ htext))

private theorem expand_ends_of_calm {σ : Scope} {line : List Char} {n : Nat}
    (hcalm : ∀ m before rest, n ≤ m →
      roundAt (expandStep σ) m ([], line) = some (before, rest) → Calm σ rest) :
    ∃ fuel out, expand σ fuel line = .ok out := by
  apply (loop_ok_iff (expandStep_ne_error σ)).mpr
  cases hs : roundAt (expandStep σ) n ([], line) with
  | none => exact ⟨n, hs⟩
  | some s =>
      refine (ends_calm fun m t ht => ?_).of_roundAt hs
      exact hcalm (n + m) t.1 t.2 (Nat.le_add_right n m) ((roundAt_add hs).trans ht)

private theorem exists_expand_iff (σ : Scope) (line : List Char) :
    (∃ fuel out, expand σ fuel line = .ok out) ↔
      ∃ n, ∀ m before rest, n ≤ m →
        roundAt (expandStep σ) m ([], line) = some (before, rest) → Calm σ rest := by
  constructor
  · intro h
    obtain ⟨n, hn⟩ := (loop_ok_iff (expandStep_ne_error σ)).mp h
    refine ⟨n, fun m before rest hle hm => ?_⟩
    rw [roundAt_none hn hle] at hm
    cases hm
  · rintro ⟨n, hn⟩
    exact expand_ends_of_calm hn

private theorem expand_unfinished_iff (σ : Scope) (line : List Char) :
    (∀ fuel, expand σ fuel line = .error .unfinished) ↔
      ¬ ∃ fuel out, expand σ fuel line = .ok out := by
  constructor
  · rintro hall ⟨fuel, out, hok⟩
    cases (hall fuel).symm.trans hok
  · intro hnone fuel
    cases hend : expand σ fuel line with
    | ok out => exact absurd ⟨fuel, out, hend⟩ hnone
    | error e => rw [loop_error (expandStep_ne_error σ) hend]

/-- The expansion of a line comes to its end exactly when, from some round on, no value is put in
that has a `$` behind its first character; it goes on for ever exactly when such values are put in
again and again. -/
theorem expand_ends_iff (σ : Scope) (line : List Char) :
    ((∃ fuel out, expand σ fuel line = .ok out) ↔
      ∃ n, ∀ m before rest, n ≤ m →
        roundAt (expandStep σ) m ([], line) = some (before, rest) → Calm σ rest) ∧
      ((∀ fuel, expand σ fuel line = .error .unfinished) ↔
        ∀ n, ∃ m before rest, n ≤ m ∧
          roundAt (expandStep σ) m ([], line) = some (before, rest) ∧ ¬ Calm σ rest) := by
  refine ⟨exists_expand_iff σ line, ?_⟩
  rw [expand_unfinished_iff, exists_expand_iff]
  push Not
  rfl

private theorem inserted_bound {line : List Char} {value : CStr}
    (h : inserted σ line = some value) :
    ∃ name, σ.getVar name = some value := by
  rw [inserted] at h
  split at h
  · split at h
    · next hv => exact ⟨_, hv.trans h⟩
    · obtain ⟨⟨k, v⟩, hl, rfl⟩ := Option.map_eq_some_iff.mp h
      exact ⟨_, (longestName_some hl).2.2.1⟩
  · cases h

theorem expand_ends (hσ : ∀ name value, σ.getVar name = some value → '$' ∉ value.drop 1)
    (line : List Char) : ∃ fuel out, expand σ fuel line = .ok out := by
  refine expand_ends_of_calm (n := 0) fun m before rest _ _ value hv => ?_
  obtain ⟨name, hname⟩ := inserted_bound hv
  exact hσ name value hname

end

/-- `a=x$a`, and no other variable. -/
def loopScope : Scope where
  vars := [⟨['a'], ['x', '$', 'a']⟩]
  getenv _ := none

private theorem expandStep_loopScope (before : List Char) (k : Nat) :
    expandStep loopScope (before, ['$', 'a'] ++ nul :: List.replicate k nul) =
      .ok (.inl (before ++ ['x'], ['$', 'a'] ++ nul :: List.replicate (k - 1) nul)) := by
  have hbehind : cString (List.replicate k nul) = [] := by
    rw [cString_eq_nil]
    cases k <;> rfl
  have hunfold : unfoldVariable loopScope (['$', 'a'] ++ nul :: List.replicate k nul) =
      ['x', '$', 'a'] ++ nul :: List.replicate (k - 1) nul := by
    have hname : cString ((['$', 'a'] ++ nul :: List.replicate k nul).drop 1) = ['a'] :=
      cString_append_nul (s := ['a']) (by decide) _
    rw [unfoldVariable_dollar rfl hname]
    show substitute _ 2 ['x', '$', 'a'] = _
    rw [substitute]
    simp [hbehind]
  rw [expandStep, hunfold]
  rfl

/-- `$a` in a line of 1024 bytes. -/
theorem expand_endless :
    ¬ ∃ fuel out, expand loopScope fuel (['$', 'a'] ++ nul :: List.replicate 1021 nul) =
      .ok out := by
  intro h
  refine not_ends_of_invariant
    (fun s => ∃ before k, s = (before, ['$', 'a'] ++ nul :: List.replicate k nul)) ?_
    ⟨[], 1021, rfl⟩ ((loop_ok_iff (expandStep_ne_error loopScope)).mp h)
  rintro s ⟨before, k, rfl⟩
  exact ⟨_, expandStep_loopScope before k, _, _, rfl⟩

end SyssoftLabs.Lab4
