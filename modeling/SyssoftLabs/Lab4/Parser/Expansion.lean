import SyssoftLabs.Lab4.Parser.Tokens

/-!
# The variable at the front of a line

`unfold_variable` looks up ever shorter names behind a `$`. A name stands in a scratch buffer that
is terminated one character too late, so that the name tried at the index `i` is one longer than
the part that is cut off the line.
-/

namespace SyssoftLabs.Lab4

/-! ## Strings in buffers -/

private theorem set_nul_at {s : List Char} (junk : List Char) {i : Nat} (hi : i ≤ s.length) :
    ∃ junk', (s ++ nul :: junk).set i nul = s.take i ++ nul :: junk' := by
  rcases Nat.lt_or_eq_of_le hi with h | h
  · refine ⟨s.drop (i + 1) ++ nul :: junk, ?_⟩
    rw [List.set_append_left _ _ h, List.set_eq_take_append_cons_drop, if_pos h]
    simp
  · subst h
    exact ⟨junk, by simp⟩

/-! ## The names that are tried -/

/-- The longest of the first `n` non-empty prefixes of `s` that is bound, by its length. -/
def longestName (lookup : CStr → Option CStr) (s : CStr) : Nat → Option (Nat × CStr)
  | 0 => none
  | k + 1 =>
      match lookup (s.take (k + 1)) with
      | some value => some (k + 1, value)
      | none => longestName lookup s k

theorem longestName_some {lookup : CStr → Option CStr} {s : CStr} {n k : Nat} {value : CStr}
    (h : longestName lookup s n = some (k, value)) :
    0 < k ∧ k ≤ n ∧ lookup (s.take k) = some value ∧
      ∀ j, k < j → j ≤ n → lookup (s.take j) = none := by
  induction n with
  | zero => cases h
  | succ n ih =>
      rw [longestName] at h
      cases hl : lookup (s.take (n + 1)) with
      | some v =>
          rw [hl] at h
          cases h
          exact ⟨by omega, Nat.le_refl _, hl, fun j hj hjn => by omega⟩
      | none =>
          rw [hl] at h
          obtain ⟨hpos, hle, hk, hlonger⟩ := ih h
          refine ⟨hpos, by omega, hk, fun j hj hjn => ?_⟩
          rcases Nat.lt_or_eq_of_le hjn with hlt | rfl
          · exact hlonger j hj (by omega)
          · exact hl

private theorem longestName_none {lookup : CStr → Option CStr} {s : CStr} {n : Nat} :
    longestName lookup s n = none ↔ ∀ k, 0 < k → k ≤ n → lookup (s.take k) = none := by
  induction n with
  | zero => exact ⟨fun _ k hpos hk => by omega, fun _ => rfl⟩
  | succ n ih =>
      rw [longestName]
      constructor
      · intro h k hpos hk
        cases hl : lookup (s.take (n + 1)) with
        | some v =>
            rw [hl] at h
            cases h
        | none =>
            rw [hl] at h
            rcases Nat.lt_or_eq_of_le hk with hlt | rfl
            · exact ih.mp h k hpos (by omega)
            · exact hl
      · intro h
        rw [h (n + 1) (by omega) (Nat.le_refl _)]
        exact ih.mpr fun k hpos hk => h k hpos (by omega)

section

variable {lookup : CStr → Option CStr} {line : List Char}

private theorem tried_inside {s : CStr} {i : Nat} (junk : List Char) (hi : i ≤ s.length) :
    ∃ junk', (strncpy (s.take (i + 2) ++ nul :: junk) s i).set (i + 1) nul =
      s.take (i + 1) ++ nul :: junk' := by
  have hcopy : strncpy (s.take (i + 2) ++ nul :: junk) s i = s.take (i + 2) ++ nul :: junk := by
    have hlen : i ≤ (s.take (i + 2)).length := by
      rw [List.length_take]
      omega
    have hsplit : s.take i ++ (s.take (i + 2)).drop i = s.take (i + 2) := by
      have := List.take_append_drop i (s.take (i + 2))
      rwa [List.take_take, Nat.min_eq_left (by omega)] at this
    rw [strncpy, Nat.sub_eq_zero_of_le hi, List.replicate_zero, List.append_nil,
      List.drop_append_of_le_length hlen, ← List.append_assoc, hsplit]
  rw [hcopy]
  rcases Nat.lt_or_eq_of_le hi with h | rfl
  · obtain ⟨junk', hset⟩ := set_nul_at (s := s.take (i + 2)) junk (i := i + 1) (by
      rw [List.length_take]
      omega)
    refine ⟨junk', ?_⟩
    rw [hset, List.take_take, Nat.min_eq_left (by omega)]
  · refine ⟨junk.set 0 nul, ?_⟩
    rw [List.take_of_length_le (by omega), List.take_of_length_le (by omega),
      List.set_append_right _ _ (by omega), Nat.add_sub_cancel_left]
    rfl

private theorem unfoldNames_found {i : Nat} {subs : List Char} {name value : CStr}
    {junk : List Char}
    (htried : (strncpy subs (cString (line.drop 1)) i).set (i + 1) nul = name ++ nul :: junk)
    (hname : nul ∉ name) (hl : lookup name = some value) :
    unfoldNames lookup line i subs = (some (substitute line i value), name ++ nul :: junk) := by
  unfold unfoldNames
  simp only [htried, cString_append_nul hname, hl]

private theorem unfoldNames_next {i : Nat} {subs : List Char} {name : CStr} {junk : List Char}
    (htried : (strncpy subs (cString (line.drop 1)) (i + 1)).set (i + 2) nul = name ++ nul :: junk)
    (hname : nul ∉ name) (hl : lookup name = none) :
    unfoldNames lookup line (i + 1) subs = unfoldNames lookup line i (name ++ nul :: junk) := by
  rw [unfoldNames.eq_def]
  simp only [htried, cString_append_nul hname, hl]

private theorem unfoldNames_last {subs : List Char} {name : CStr} {junk : List Char}
    (htried : (strncpy subs (cString (line.drop 1)) 0).set 1 nul = name ++ nul :: junk)
    (hname : nul ∉ name) (hl : lookup name = none) :
    unfoldNames lookup line 0 subs = (none, name ++ nul :: junk) := by
  unfold unfoldNames
  simp only [htried, cString_append_nul hname, hl]

private theorem unfoldNames_inside (lookup : CStr → Option CStr) (i : Nat) (junk : List Char)
    {s : CStr} (hs : cString (line.drop 1) = s) (hi : i ≤ s.length) :
    ∃ subs, unfoldNames lookup line i (s.take (i + 2) ++ nul :: junk) =
      ((longestName lookup s (i + 1)).map fun found => substitute line (found.1 - 1) found.2,
        subs) := by
  have hnul : ∀ k, nul ∉ s.take k := fun k h =>
    nul_notMem_cString (line.drop 1) (hs ▸ List.mem_of_mem_take h)
  induction i generalizing junk with
  | zero =>
      obtain ⟨junk', htried⟩ := tried_inside junk hi
      refine ⟨s.take 1 ++ nul :: junk', ?_⟩
      subst hs
      rw [longestName]
      cases hl : lookup ((cString (line.drop 1)).take 1) with
      | some value => exact unfoldNames_found htried (hnul _) hl
      | none => exact unfoldNames_last htried (hnul _) hl
  | succ i ih =>
      obtain ⟨junk', htried⟩ := tried_inside junk hi
      rw [longestName]
      cases hl : lookup (s.take (i + 1 + 1)) with
      | some value =>
          refine ⟨s.take (i + 1 + 1) ++ nul :: junk', ?_⟩
          subst hs
          exact unfoldNames_found htried (hnul _) hl
      | none =>
          obtain ⟨subs, hrest⟩ := ih junk' (by omega)
          refine ⟨subs, ?_⟩
          subst hs
          exact (unfoldNames_next htried (hnul _) hl).trans hrest

theorem tried_whole (s subs : List Char) :
    (strncpy subs s (s.length + 1)).set (s.length + 2) nul =
      s ++ nul :: (subs.drop (s.length + 1)).set 1 nul := by
  rw [strncpy, List.take_of_length_le (by omega), Nat.add_sub_cancel_left]
  simp [List.set_append_right]

private theorem unfoldNames_start (lookup : CStr → Option CStr) (subs : List Char) {s : CStr}
    (hs : cString (line.drop 1) = s) :
    ∃ subs', unfoldNames lookup line (s.length + 1) subs =
      (match lookup s with
        | some value => some (substitute line (s.length + 1) value)
        | none => (longestName lookup s s.length).map
            fun found => substitute line (found.1 - 1) found.2,
        subs') := by
  have hnul : nul ∉ s := hs ▸ nul_notMem_cString _
  have htried := tried_whole s subs
  cases hl : lookup s with
  | some value =>
      subst hs
      exact ⟨_, unfoldNames_found htried hnul hl⟩
  | none =>
      obtain ⟨subs', hin⟩ := unfoldNames_inside lookup s.length
        ((subs.drop (s.length + 1)).set 1 nul) hs (Nat.le_refl _)
      rw [List.take_of_length_le (by omega), longestName, List.take_of_length_le (by omega), hl]
        at hin
      refine ⟨subs', ?_⟩
      subst hs
      exact (unfoldNames_next htried hnul hl).trans hin

end

/-! ## The line after a round -/

section

variable {σ : Scope} {line : List Char}

theorem Scope.getenv_of_getVar {name : CStr} (h : σ.getVar name = none) :
    σ.getenv name = none := by
  unfold Scope.getVar at h
  split at h
  · cases h
  · exact h

/-- What `unfold_variable` leaves: for the whole text behind the `$` its value and the bytes behind
the terminator, for a shorter name its value and the text from the last character of the name on.
The second loop, over the environment alone, finds nothing that the first one did not. -/
theorem unfoldVariable_dollar {s : CStr} (hd : line.headD nul = '$')
    (hs : cString (line.drop 1) = s) :
    unfoldVariable σ line =
      match σ.getVar s with
      | some value => substitute line (s.length + 1) value
      | none =>
          match longestName σ.getVar s s.length with
          | some (k, value) => substitute line (k - 1) value
          | none => line := by
  obtain ⟨rest, rfl⟩ : ∃ rest, line = '$' :: rest := by
    cases line with
    | nil => exact absurd hd (by decide)
    | cons c rest =>
        cases hd
        exact ⟨rest, rfl⟩
  have hlen : (cString ('$' :: rest)).length = s.length + 1 := by
    rw [← hs]
    rfl
  obtain ⟨subs, hvars⟩ := unfoldNames_start σ.getVar
    (List.replicate (s.length + 1 + 2) nul) hs
  rw [unfoldVariable, if_neg (not_not_intro hd), hlen]
  simp only [hvars]
  cases hv : σ.getVar s with
  | some value => rfl
  | none =>
      cases hl : longestName σ.getVar s s.length with
      | some found => rfl
      | none =>
          obtain ⟨subs', henv⟩ := unfoldNames_start σ.getenv subs hs
          have hnone : longestName σ.getenv s s.length = none :=
            longestName_none.mpr fun k hpos hk =>
              Scope.getenv_of_getVar (longestName_none.mp hl k hpos hk)
          simp only [Option.map_none, henv, Scope.getenv_of_getVar hv, hnone]

theorem cString_substitute {value : CStr} (hv : nul ∉ value) (i : Nat) :
    cString (substitute line i value) = value ++ cString (line.drop (i + 1)) := by
  apply cString_append_nul
  rw [List.mem_append, not_or]
  exact ⟨hv, nul_notMem_cString _⟩

/-! ## What the expansion is for -/

/-- The value of the longest bound name in place of the `$` and the name. -/
def expansion (σ : Scope) (s : CStr) : CStr :=
  match longestName σ.getVar s s.length with
  | some (k, value) => value ++ s.drop k
  | none => '$' :: s

/-- The values are strings. -/
def Scope.HasStrings (σ : Scope) : Prop := ∀ name value, σ.getVar name = some value → nul ∉ value

/-- The name is all that follows the `$`, with a second terminator behind that of the line, or no
name is found. Behind a `$` at the end of the line the empty name is looked up. -/
def FoundAtEnd (σ : Scope) (s : CStr) (tail : List Char) : Prop :=
  (s ≠ [] ∧ (σ.getVar s).isSome ∧ tail.headD nul = nul) ∨
    (∀ k, 0 < k → k ≤ s.length → σ.getVar (s.take k) = none) ∧
      (s = [] → ∀ value, σ.getVar [] = some value → value ++ cString tail = ['$'])

private theorem expansion_ne {s : CStr} {k : Nat} {value : CStr} (hpos : 0 < k)
    (hk : k ≤ s.length) :
    value ++ s.drop (k - 1) ≠ value ++ s.drop k := by
  intro h
  have := congrArg List.length (List.append_cancel_left h)
  rw [List.length_drop, List.length_drop] at this
  omega

section

variable {σ : Scope} {s : CStr} {tail : List Char} {k : Nat} {value : CStr}

private theorem expansion_whole (hs : s ≠ []) (hv : σ.getVar s = some value) :
    expansion σ s = value := by
  obtain ⟨n, hn⟩ := Nat.exists_eq_succ_of_ne_zero (mt List.length_eq_zero_iff.mp hs)
  have hall : s.take (n + 1) = s := List.take_of_length_le (Nat.le_of_eq hn)
  have hl : longestName σ.getVar s s.length = some (s.length, value) := by
    rw [hn, longestName, hall, hv]
  rw [expansion, hl]
  simp

private theorem foundAtEnd_whole (hs : s ≠ []) (hv : σ.getVar s = some value) :
    FoundAtEnd σ s tail ↔ tail.headD nul = nul := by
  constructor
  · rintro (⟨-, -, h⟩ | ⟨h, -⟩)
    · exact h
    · have hnone := h s.length (List.length_pos_iff.mpr hs) (Nat.le_refl _)
      rw [List.take_length, hv] at hnone
      cases hnone
  · exact fun h => .inl ⟨hs, by simp [hv], h⟩

private theorem foundAtEnd_empty (hv : σ.getVar [] = some value) :
    FoundAtEnd σ [] tail ↔ value ++ cString tail = ['$'] := by
  constructor
  · rintro (⟨hne, -⟩ | ⟨-, h⟩)
    · exact absurd rfl hne
    · exact h rfl value hv
  · intro h
    refine .inr ⟨fun k hpos hk => absurd hpos (Nat.not_lt.mpr hk), fun _ v hv' => ?_⟩
    rw [hv] at hv'
    cases hv'
    exact h

private theorem not_foundAtEnd (hv : σ.getVar s = none)
    (hl : longestName σ.getVar s s.length = some (k, value)) : ¬ FoundAtEnd σ s tail := by
  obtain ⟨hpos, hk, hbound, -⟩ := longestName_some hl
  rintro (⟨-, h, -⟩ | ⟨h, -⟩)
  · rw [hv] at h
    cases h
  · rw [h k hpos hk] at hbound
    cases hbound

end

theorem unfoldVariable_expansion_iff (σ : Scope) {s : CStr} (tail : List Char) (hs : nul ∉ s)
    (hσ : σ.HasStrings) :
    cString (unfoldVariable σ ('$' :: s ++ nul :: tail)) = expansion σ s ↔ FoundAtEnd σ s tail := by
  have hname : cString (('$' :: s ++ nul :: tail).drop 1) = s := cString_append_nul hs tail
  rw [unfoldVariable_dollar rfl hname]
  cases hv : σ.getVar s with
  | some value =>
      have hbehind : ('$' :: s ++ nul :: tail).drop (s.length + 1 + 1) = tail := by
        simp
      simp only [cString_substitute (hσ s value hv), hbehind]
      by_cases hempty : s = []
      · subst hempty
        exact (foundAtEnd_empty hv).symm
      · rw [expansion_whole hempty hv, List.append_right_eq_self, cString_eq_nil,
          foundAtEnd_whole hempty hv]
  | none =>
      cases hl : longestName σ.getVar s s.length with
      | some found =>
          obtain ⟨k, value⟩ := found
          obtain ⟨hpos, hk, hbound, -⟩ := longestName_some hl
          have hin : ('$' :: s ++ nul :: tail).drop (k - 1 + 1) =
              s.drop (k - 1) ++ nul :: tail := by
            rw [List.cons_append, List.drop_succ_cons, List.drop_append_of_le_length (by omega)]
          have hstays : cString (s.drop (k - 1) ++ nul :: tail) = s.drop (k - 1) :=
            cString_append_nul (fun h => hs (List.mem_of_mem_drop h)) tail
          have hexp : expansion σ s = value ++ s.drop k := by rw [expansion, hl]
          simp only [cString_substitute (hσ _ _ hbound), hin, hstays, hexp]
          exact iff_of_false (expansion_ne hpos hk) (not_foundAtEnd hv hl)
      | none =>
          have hexp : expansion σ s = '$' :: s := by rw [expansion, hl]
          have hline : cString ('$' :: s ++ nul :: tail) = '$' :: s :=
            cString_append_nul (by simpa [nul] using hs) tail
          simp only [hexp, hline, true_iff]
          refine .inr ⟨longestName_none.mp hl, fun h value hvalue => ?_⟩
          rw [h, hvalue] at hv
          cases hv

end

def home : CStr := ['H', 'O', 'M', 'E']

/-- `HOME=/root`, and no other variable. -/
def homeScope : Scope where
  vars := []
  getenv name := if name = home then some ['/', 'r', 'o', 'o', 't'] else none

theorem homeScope_hasStrings : homeScope.HasStrings := by
  intro name value h
  change (if name = home then some ['/', 'r', 'o', 'o', 't'] else none) = some value at h
  split at h
  · cases h
    decide
  · cases h

theorem unfoldVariable_expansion_iff_home :
    cString (unfoldVariable homeScope ('$' :: home ++ nul :: [nul])) = expansion homeScope home ↔
      FoundAtEnd homeScope home [nul] :=
  unfoldVariable_expansion_iff homeScope [nul] (by decide) homeScope_hasStrings

/-- `$HOME/bin` becomes `/rootE/bin`. -/
theorem unfoldVariable_expansion_fails :
    ¬ ∀ (σ : Scope) (s : CStr) (tail : List Char), nul ∉ s → σ.HasStrings →
      cString (unfoldVariable σ ('$' :: s ++ nul :: tail)) = expansion σ s := by
  intro h
  have := h homeScope (home ++ ['/', 'b', 'i', 'n']) [nul] (by decide) homeScope_hasStrings
  revert this
  decide +kernel

end SyssoftLabs.Lab4
