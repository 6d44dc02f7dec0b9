import SyssoftLabs.Lab4.Editor.Model
import SyssoftLabs.Lab4.Parser.Rescanning

/-!
# The expansion in the buffer of the line

`unfold_variable` copies its result over the line, in the 1024 bytes that `get_line` allocates. It
keeps the text of the line behind the index of the name; where the name is the whole rest of the
line, that is what lies behind the terminator.
-/

namespace SyssoftLabs.Lab4

open SyssoftLabs.Framework

/-! ## What is read -/

/-- The last byte of the line that one of the loops reads, from the index `i` down: `strncpy` stops
at the terminator, and `strcat` reads the string from `line + i + 1` on. -/
def namesReach (lookup : CStr → Option CStr) (line : List Char) : Nat → List Char → Nat
  | i, subs =>
      let copied := min i ((cString (line.drop 1)).length + 1)
      let subs := (strncpy subs (cString (line.drop 1)) i).set (i + 1) nul
      match lookup (cString subs), i with
      | some _, i => max copied (i + 1 + (cString (line.drop (i + 1))).length)
      | none, 0 => copied
      | none, i + 1 => max copied (namesReach lookup line i subs)

/-- The last byte of the line that `unfold_variable` reads. -/
def unfoldReach (σ : Scope) (line : List Char) : Nat :=
  if line.headD nul ≠ '$' then 0
  else
    let len := (cString line).length
    let scratch := List.replicate (len + 2) nul
    let vars := max len (namesReach σ.getVar line len scratch)
    match unfoldNames σ.getVar line len scratch with
    | (some _, _) => vars
    | (none, subs) => max vars (namesReach σ.getenv line len subs)

section

variable {lookup : CStr → Option CStr} {line : List Char} {s : CStr}

private theorem cString_behind {i : Nat} (hs : cString (line.drop 1) = s) (hi : i ≤ s.length) :
    cString (line.drop (i + 1)) = s.drop i := by
  subst hs
  rw [Nat.add_comm, ← List.drop_drop]
  exact cString_drop hi

private theorem namesReach_inside (lookup : CStr → Option CStr) {i : Nat} (subs : List Char)
    (hs : cString (line.drop 1) = s) (hi : i ≤ s.length) :
    namesReach lookup line i subs ≤ s.length + 1 := by
  have hcopied : min i ((cString (line.drop 1)).length + 1) ≤ s.length + 1 := by omega
  have hkept : i + 1 + (cString (line.drop (i + 1))).length ≤ s.length + 1 := by
    rw [cString_behind hs hi, List.length_drop]
    omega
  induction i generalizing subs with
  | zero =>
      rw [namesReach.eq_def]
      dsimp only
      cases lookup (cString ((strncpy subs (cString (line.drop 1)) 0).set (0 + 1) nul)) with
      | some value => exact Nat.max_le.mpr ⟨hcopied, hkept⟩
      | none => exact hcopied
  | succ i ih =>
      rw [namesReach.eq_def]
      dsimp only
      cases lookup (cString ((strncpy subs (cString (line.drop 1)) (i + 1)).set (i + 1 + 1) nul))
        with
      | some value => exact Nat.max_le.mpr ⟨hcopied, hkept⟩
      | none =>
          refine Nat.max_le.mpr ⟨hcopied, ih _ (by omega) (by omega) ?_⟩
          rw [cString_behind hs (by omega), List.length_drop]
          omega

private theorem namesReach_start (lookup : CStr → Option CStr) (subs : List Char)
    (hs : cString (line.drop 1) = s) :
    namesReach lookup line (s.length + 1) subs ≤ s.length + 1 ↔ lookup s = none := by
  have hnul : nul ∉ s := hs ▸ nul_notMem_cString _
  have htried := tried_whole s subs
  subst hs
  rw [namesReach.eq_def]
  dsimp only
  rw [htried, cString_append_nul hnul]
  cases lookup (cString (line.drop 1)) with
  | some value =>
      dsimp only
      exact iff_of_false (by omega) nofun
  | none =>
      refine iff_of_true (Nat.max_le.mpr ⟨by omega, ?_⟩) rfl
      exact namesReach_inside lookup _ rfl (Nat.le_refl _)

private theorem unfoldReach_le_iff {σ : Scope} (hd : line.headD nul = '$')
    (hs : cString (line.drop 1) = s) :
    unfoldReach σ line ≤ (cString line).length ↔ σ.getVar s = none := by
  have hlen : (cString line).length = s.length + 1 := by
    cases line with
    | nil => exact absurd hd (by decide)
    | cons c rest =>
        cases hd
        rw [← hs]
        rfl
  rw [unfoldReach, if_neg (not_not_intro hd), hlen]
  dsimp only
  have hvars := namesReach_start σ.getVar (List.replicate (s.length + 1 + 2) nul) hs
  split
  · rw [Nat.max_le, hvars]
    exact and_iff_right (Nat.le_refl _)
  · next subs hsubs =>
      have henv := namesReach_start σ.getenv subs hs
      rw [Nat.max_le, Nat.max_le, hvars, henv]
      exact ⟨fun h => h.1.2, fun h => ⟨⟨Nat.le_refl _, h⟩, Scope.getenv_of_getVar h⟩⟩

end

/-! ## Rounds -/

/-- The line after `unfold_variable` ends in the buffer, and no byte behind the terminator was
read. -/
structure InBuffer (σ : Scope) (s : List Char × List Char) : Prop where
  fits : s.1.length + (cString (unfoldVariable σ s.2)).length < lineSize
  reach : unfoldReach σ s.2 ≤ (cString s.2).length

/-- The whole text behind a `$` is no name, and the line with the value in place of the `$` and all
but the last character of the name is shorter than the buffer. -/
def HasRoom (σ : Scope) (s : List Char × List Char) : Prop :=
  s.2.headD nul = '$' →
    σ.getVar (cString (s.2.drop 1)) = none ∧
      ∀ k value, longestName σ.getVar (cString (s.2.drop 1)) (cString (s.2.drop 1)).length =
          some (k, value) →
        s.1.length + value.length + ((cString (s.2.drop 1)).length + 1 - k) < lineSize

section

variable {σ : Scope} {s t : List Char × List Char}

private theorem unfoldVariable_short {k : Nat} {value : CStr} (hσ : σ.HasStrings)
    (hd : s.2.headD nul = '$') (hv : σ.getVar (cString (s.2.drop 1)) = none)
    (hl : longestName σ.getVar (cString (s.2.drop 1)) (cString (s.2.drop 1)).length =
      some (k, value)) :
    (cString (unfoldVariable σ s.2)).length =
        value.length + ((cString (s.2.drop 1)).length + 1 - k) ∧
      k ≤ (cString (s.2.drop 1)).length := by
  obtain ⟨hpos, hk, hbound, -⟩ := longestName_some hl
  have hline : unfoldVariable σ s.2 = substitute s.2 (k - 1) value := by
    rw [unfoldVariable_dollar hd rfl, hv]
    dsimp only
    rw [hl]
  have hkept : cString (s.2.drop (k - 1 + 1)) = (cString (s.2.drop 1)).drop (k - 1) :=
    cString_behind rfl (by omega)
  rw [hline, cString_substitute (hσ _ _ hbound), hkept, List.length_append, List.length_drop]
  omega

private theorem unfoldVariable_none (hd : s.2.headD nul = '$')
    (hv : σ.getVar (cString (s.2.drop 1)) = none)
    (hl : longestName σ.getVar (cString (s.2.drop 1)) (cString (s.2.drop 1)).length = none) :
    unfoldVariable σ s.2 = s.2 := by
  rw [unfoldVariable_dollar hd rfl, hv]
  dsimp only
  rw [hl]

private theorem inBuffer_iff (hσ : σ.HasStrings)
    (hs : s.1.length + (cString s.2).length < lineSize) : InBuffer σ s ↔ HasRoom σ s := by
  by_cases hd : s.2.headD nul = '$'
  · have hreach := unfoldReach_le_iff (σ := σ) hd rfl
    cases hv : σ.getVar (cString (s.2.drop 1)) with
    | some value =>
        rw [hv] at hreach
        refine iff_of_false (fun h => ?_) fun h => ?_
        · cases hreach.mp h.reach
        · have hnone := (h hd).1
          rw [hv] at hnone
          cases hnone
    | none =>
        cases hl : longestName σ.getVar (cString (s.2.drop 1)) (cString (s.2.drop 1)).length with
        | none =>
            have hsame := unfoldVariable_none hd hv hl
            refine iff_of_true ⟨by rwa [hsame], hreach.mpr hv⟩ fun _ => ⟨hv, fun k value h => ?_⟩
            rw [hl] at h
            cases h
        | some found =>
            obtain ⟨k, value⟩ := found
            obtain ⟨hline, hk⟩ := unfoldVariable_short hσ hd hv hl
            constructor
            · refine fun h _ => ⟨hv, fun k' value' h' => ?_⟩
              rw [hl] at h'
              cases h'
              have hfits := h.fits
              rw [hline] at hfits
              omega
            · refine fun h => ⟨?_, hreach.mpr hv⟩
              have hroom := (h hd).2 k value hl
              rw [hline]
              omega
  · have hsame : unfoldVariable σ s.2 = s.2 := by rw [unfoldVariable, if_pos hd]
    have hreach : unfoldReach σ s.2 = 0 := by rw [unfoldReach, if_pos hd]
    exact iff_of_true ⟨by rwa [hsame], by rw [hreach]; exact Nat.zero_le _⟩ fun h => absurd h hd

private theorem unfoldVariable_ne (hσ : σ.HasStrings) (hroom : HasRoom σ s)
    (hd : s.2.headD nul ≠ nul) :
    (unfoldVariable σ s.2).headD nul ≠ nul := by
  by_cases hdollar : s.2.headD nul = '$'
  · have hv := (hroom hdollar).1
    cases hl : longestName σ.getVar (cString (s.2.drop 1)) (cString (s.2.drop 1)).length with
    | none => rwa [unfoldVariable_none hdollar hv hl]
    | some found =>
        obtain ⟨k, value⟩ := found
        obtain ⟨hline, hk⟩ := unfoldVariable_short hσ hdollar hv hl
        intro hnul
        rw [cString_eq_nil.mpr hnul, List.length_nil] at hline
        omega
  · rwa [unfoldVariable, if_pos hdollar]

private theorem fits_next (hσ : σ.HasStrings) (hs : s.1.length + (cString s.2).length < lineSize)
    (hroom : HasRoom σ s) (h : expandStep σ s = .ok (.inl t)) :
    t.1.length + (cString t.2).length < lineSize := by
  have hfits := ((inBuffer_iff hσ hs).mpr hroom).fits
  have hd := (expandStep_inl h).1
  have hne := unfoldVariable_ne hσ hroom hd
  rw [expandStep, if_neg hd] at h
  cases hline : unfoldVariable σ s.2 with
  | nil =>
      rw [hline] at hne
      exact absurd rfl hne
  | cons c rest =>
      rw [hline] at h hne hfits
      cases h
      rw [cString, List.takeWhile_cons_of_pos (by simpa using hne), List.length_cons] at hfits
      change s.1.length + ((cString rest).length + 1) < lineSize at hfits
      show (s.1 ++ [c]).length + (cString rest).length < lineSize
      rw [List.length_append, List.length_singleton]
      omega

end

/-- The expansion of a line stays in its buffer, and reads nothing behind the line, exactly if every
round has room. -/
theorem expansion_in_buffer_iff (σ : Scope) (hσ : σ.HasStrings) (text behind : List Char)
    (hnul : nul ∉ text) (hsize : (text ++ nul :: behind).length = lineSize) :
    (∀ n s, roundAt (expandStep σ) n ([], text ++ nul :: behind) = some s → InBuffer σ s) ↔
      ∀ n s, roundAt (expandStep σ) n ([], text ++ nul :: behind) = some s → HasRoom σ s := by
  refine rounds_iff (fun s hs => inBuffer_iff hσ hs)
    (fun s t hs hroom h => fits_next hσ hs hroom h) ?_
  have hline : (cString (text ++ nul :: behind)).length = text.length :=
    congrArg _ (cString_append_nul hnul behind)
  rw [List.length_append, List.length_cons] at hsize
  rw [hline, List.length_nil]
  omega

private theorem headD_ne_of_notMem {line : List Char} (h : '$' ∉ line) : line.headD nul ≠ '$' := by
  cases line with
  | nil => decide
  | cons c line => exact fun hc => h (hc ▸ List.mem_cons_self)

/-- There is no `$` from here on. -/
def Unfolded (s : List Char × List Char) : Prop := '$' ∉ s.2

private theorem unfolded_next {σ : Scope} (s t : List Char × List Char) (hs : Unfolded s)
    (h : expandStep σ s = .ok (.inl t)) : Unfolded t := by
  obtain ⟨before, line⟩ := s
  rw [expandStep] at h
  split at h
  · cases h
  · cases line with
    | nil => cases h
    | cons c line =>
        have hc : c ≠ '$' := (headD_ne_of_notMem hs : (c :: line).headD nul ≠ '$')
        rw [unfoldVariable_plain σ line hc] at h
        cases h
        exact fun hmem => hs (List.mem_cons_of_mem c hmem)

/-- `$HOME/x` in a line of 1024 bytes. -/
def homeText : List Char := ['$', 'H', 'O', 'M', 'E', '/', 'x']

/-- It becomes `/rootE/x`. -/
theorem expansion_in_buffer_iff_home :
    roundAt (expandStep homeScope) 1 ([], homeText ++ nul :: List.replicate 1016 nul) =
        some (['/'], ['r', 'o', 'o', 't', 'E', '/', 'x'] ++ List.replicate 1016 nul) ∧
      ∀ n s, roundAt (expandStep homeScope) n ([], homeText ++ nul :: List.replicate 1016 nul) =
        some s → InBuffer homeScope s := by
  have hfirst : roundAt (expandStep homeScope) 1
      ([], homeText ++ nul :: List.replicate 1016 nul) =
        some (['/'], ['r', 'o', 'o', 't', 'E', '/', 'x'] ++ List.replicate 1016 nul) := by
    decide +kernel
  have hname : cString ((homeText ++ nul :: List.replicate 1016 nul).drop 1) =
      ['H', 'O', 'M', 'E', '/', 'x'] := by decide +kernel
  refine ⟨hfirst, ?_⟩
  refine (expansion_in_buffer_iff homeScope homeScope_hasStrings homeText _ (by decide) ?_).mpr ?_
  · rw [List.length_append, List.length_cons, List.length_replicate]
    rfl
  · intro n s hs
    cases n with
    | zero =>
        cases hs
        intro _
        rw [hname]
        refine ⟨by decide, fun k value hlongest => ?_⟩
        have hprefix : longestName homeScope.getVar ['H', 'O', 'M', 'E', '/', 'x'] 6 =
            some (4, ['/', 'r', 'o', 'o', 't']) := by decide
        cases hprefix.symm.trans hlongest
        decide
    | succ n =>
        rw [Nat.add_comm, roundAt_add hfirst] at hs
        have hstart :
            Unfolded (['/'], ['r', 'o', 'o', 't', 'E', '/', 'x'] ++ List.replicate 1016 nul) := by
          intro hmem
          rcases List.mem_append.mp hmem with hmem | hmem
          · exact absurd hmem (by decide)
          · exact absurd (List.eq_of_mem_replicate hmem) (by decide)
        have hplain : Unfolded s := roundAt_invariant unfolded_next hstart hs
        exact fun hdollar => absurd hdollar (headD_ne_of_notMem hplain)

/-- `a` with a value of 1024 characters, and no other variable. -/
def longScope : Scope where
  vars := [⟨['a'], List.replicate 1024 'x'⟩]
  getenv _ := none

/-- `$a` in a line of 1024 bytes. -/
theorem expansion_in_buffer_fails :
    (∃ fuel out, expand longScope fuel (['$', 'a'] ++ nul :: List.replicate 1021 nul) = .ok out) ∧
      ∃ n s, roundAt (expandStep longScope) n
          ([], ['$', 'a'] ++ nul :: List.replicate 1021 nul) = some s ∧
        ¬ s.1.length + (cString (unfoldVariable longScope s.2)).length < lineSize ∧
        ¬ unfoldReach longScope s.2 ≤ (cString s.2).length := by
  have hvalue : ∀ name value, longScope.getVar name = some value →
      value = List.replicate 1024 'x' := by
    intro name value h
    rw [Scope.getVar] at h
    split at h
    · next v hv =>
        cases List.mem_singleton.mp (List.mem_of_find?_eq_some hv)
        exact (Option.some.inj h).symm
    · cases h
  have hmem : ∀ c, c ∈ List.replicate 1024 'x' → c = 'x' := fun c => List.eq_of_mem_replicate
  have ha : longScope.getVar ['a'] = some (List.replicate 1024 'x') := rfl
  have hname : cString ((['$', 'a'] ++ nul :: List.replicate 1021 nul).drop 1) = ['a'] :=
    cString_append_nul (s := ['a']) (by decide) _
  refine ⟨?_, 0, _, rfl, ?_, ?_⟩
  · refine expand_ends (fun name value h hd => ?_) _
    rw [hvalue name value h] at hd
    exact absurd (hmem _ (List.mem_of_mem_drop hd)) (by decide)
  · rw [unfoldVariable_dollar rfl hname, ha]
    dsimp only
    rw [cString_substitute (fun h => absurd (hmem _ h) (by decide)), List.length_append,
      List.length_replicate, lineSize]
    omega
  · rw [unfoldReach_le_iff rfl hname, ha]
    exact nofun

end SyssoftLabs.Lab4
