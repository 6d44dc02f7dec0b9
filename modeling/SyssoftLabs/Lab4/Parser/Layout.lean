import SyssoftLabs.Lab4.Parser.Cutting

/-!
# Tokens written on a line

Words and separators are laid out on a line with any blanks around them, at least one between two
words. Cutting such a line gives the tokens back.
-/

namespace SyssoftLabs.Lab4

open SyssoftLabs.Framework

/-- What a word consists of on a line without variables. -/
def isWordChar (c : Char) : Bool := c != nul && !isSpace c && !isSeparator c && c != '$'

/-- A word, or one separator. -/
inductive IsToken : CStr → Prop
  | word {w : CStr} (hne : w ≠ []) (hw : ∀ c ∈ w, isWordChar c = true) : IsToken w
  | separator {c : Char} (hc : isSeparator c = true) : IsToken [c]

abbrev Blank := { c : Char // isSpace c = true }

def blanks (bs : List Blank) : CStr := bs.map Subtype.val

/-- A token that has to be kept apart from the next one. -/
def needsBlank (token : CStr) : List CStr → Bool
  | [] => false
  | next :: _ => !startsSeparator token && !startsSeparator next

/-- The tokens on a line: `(gaps j).2` in front of token `j`, and `(gaps j).1` behind it where the
next token would run into it. -/
def layout (gaps : Nat → Blank × List Blank) : List CStr → CStr
  | [] => blanks (gaps 0).2
  | t :: ts =>
      blanks (gaps 0).2 ++ t ++ (if needsBlank t ts then blanks [(gaps 0).1] else []) ++
        layout (fun j => gaps (j + 1)) ts

section Characters

variable {c : Char} {w : CStr}

theorem isWordChar_iff : isWordChar c = true ↔
    c ≠ nul ∧ isSpace c = false ∧ isSeparator c = false ∧ c ≠ '$' := by
  simp [isWordChar, and_assoc]

private theorem isSeparator_iff : isSeparator c = true ↔
    c = ';' ∨ c = '|' ∨ c = '&' ∨ c = '>' ∨ c = '<' := by
  simp [isSeparator, or_assoc]

private theorem isSpace_iff : isSpace c = true ↔ c = ' ' ∨ c = '\t' := by
  simp [isSpace]

private theorem isPlain_of_isSpace (hc : isSpace c = true) : isPlain c = true := by
  rcases isSpace_iff.mp hc with h | h <;> subst c <;> decide

private theorem isPlain_of_isSeparator (hc : isSeparator c = true) : isPlain c = true := by
  rcases isSeparator_iff.mp hc with h | h | h | h | h <;> subst c <;> decide

private theorem isPlain_of_isWordChar (hc : isWordChar c = true) : isPlain c = true := by
  obtain ⟨hn, _, _, hd⟩ := isWordChar_iff.mp hc
  simp [isPlain, hn, hd]

private theorem isSpace_of_isSeparator (hc : isSeparator c = true) : isSpace c = false := by
  rcases isSeparator_iff.mp hc with h | h | h | h | h <;> subst c <;> decide

theorem IsToken.isPlain (hw : IsToken w) : ∀ c ∈ w, isPlain c = true := by
  intro c hc
  cases hw with
  | word _ hw => exact isPlain_of_isWordChar (hw c hc)
  | separator hs =>
      rw [List.mem_singleton] at hc
      subst hc
      exact isPlain_of_isSeparator hs

private theorem blanks_isPlain (bs : List Blank) : ∀ c ∈ blanks bs, isPlain c = true := by
  intro c hc
  obtain ⟨b, _, rfl⟩ := List.mem_map.mp hc
  exact isPlain_of_isSpace b.property

theorem layout_isPlain (gaps : Nat → Blank × List Blank) (ts : List CStr)
    (ht : ∀ t ∈ ts, IsToken t) : ∀ c ∈ layout gaps ts, isPlain c = true := by
  induction ts generalizing gaps with
  | nil => exact blanks_isPlain _
  | cons t ts ih =>
      intro c hc
      simp only [layout, List.mem_append] at hc
      rcases hc with ((hc | hc) | hc) | hc
      · exact blanks_isPlain _ c hc
      · exact (ht t List.mem_cons_self).isPlain c hc
      · cases hb : needsBlank t ts with
        | false => simp [hb] at hc
        | true =>
            rw [if_pos hb] at hc
            exact blanks_isPlain _ c hc
      · exact ih (fun j => gaps (j + 1)) (fun u hu => ht u (List.mem_cons_of_mem t hu)) c hc

end Characters

/-! ## Cutting -/

private theorem skipSpaces_blanks (bs : List Blank) (line : CStr) :
    skipSpaces (blanks bs ++ line) = skipSpaces line := by
  induction bs with
  | nil => rfl
  | cons b bs ih =>
      show List.dropWhile isSpace (b.val :: (blanks bs ++ line)) = _
      rw [List.dropWhile_cons_of_pos b.property]
      exact ih

private theorem skipSpaces_token {t : CStr} (line : CStr) (ht : IsToken t) :
    skipSpaces (t ++ line) = t ++ line := by
  cases ht with
  | word hne hw =>
      cases t with
      | nil => exact absurd rfl hne
      | cons c w =>
          have hc := (isWordChar_iff.mp (hw c List.mem_cons_self)).2.1
          exact List.dropWhile_cons_of_neg (by simp [hc])
  | separator hc => exact List.dropWhile_cons_of_neg (by simp [isSpace_of_isSeparator hc])

theorem IsToken.ne_nil {t : CStr} (ht : IsToken t) : t ≠ [] := by
  cases ht with
  | word hne _ => exact hne
  | separator _ => exact List.cons_ne_nil _ _

/-- A word ends at the end of the line, at a blank or at a separator. -/
def endsWord (line : CStr) : Prop := ∀ c, line.head? = some c → isSpace c || isSeparator c

private theorem getArg_token {t : CStr} {line : CStr} (ht : IsToken t)
    (hend : startsSeparator t = false → endsWord line) : getArg (t ++ line) = t := by
  cases ht with
  | separator hc => simp [getArg, startsSeparator, hc]
  | word hne hw =>
      have hstart : startsSeparator (t ++ line) = false ∧ startsSeparator t = false := by
        cases t with
        | nil => exact absurd rfl hne
        | cons c w =>
            have hc := (isWordChar_iff.mp (hw c List.mem_cons_self)).2.2.1
            exact ⟨hc, hc⟩
      have hin : ∀ c ∈ t, (!isSpace c && !isSeparator c) = true := by
        intro c hc
        obtain ⟨_, hs, hp, _⟩ := isWordChar_iff.mp (hw c hc)
        simp [hs, hp]
      rw [getArg, if_neg (by simp [hstart.1]), List.takeWhile_append_of_pos hin]
      have hstop : line.takeWhile (fun c => !isSpace c && !isSeparator c) = [] := by
        cases line with
        | nil => rfl
        | cons c line =>
            have hc : isSpace c = true ∨ isSeparator c = true := by simpa using hend hstart.2 c rfl
            apply List.takeWhile_cons_of_neg
            rcases hc with h | h <;> simp [h]
      rw [hstop, List.append_nil]

private theorem endsWord_layout (gaps : Nat → Blank × List Blank) {t : CStr} {ts : List CStr}
    (b : Blank) (hs : ∀ u ∈ ts, IsToken u) (ht : startsSeparator t = false) :
    endsWord ((if needsBlank t ts then blanks [b] else []) ++ layout gaps ts) := by
  intro c hc
  cases hb : needsBlank t ts with
  | true =>
      rw [hb] at hc
      cases hc
      simp [b.property]
  | false =>
      rw [hb] at hc
      simp only [Bool.false_eq_true, if_false, List.nil_append] at hc
      cases hg : (gaps 0).2 with
      | cons g gs =>
          have : c = g.val := by
            cases ts <;> simp [layout, hg, blanks] at hc <;> exact hc.symm
          simp [this, g.property]
      | nil =>
          cases ts with
          | nil => simp [layout, hg, blanks] at hc
          | cons u us =>
              have hu : startsSeparator u = true := by simpa [needsBlank, ht] using hb
              cases u with
              | nil => exact absurd rfl (hs [] List.mem_cons_self).ne_nil
              | cons d u =>
                  have : c = d := by simpa [layout, hg, blanks] using hc.symm
                  subst this
                  have hd : isSeparator c = true := hu
                  simp [hd]

private theorem skipSpaces_cons {c : Char} (hc : isSpace c = true) (line : CStr) :
    skipSpaces (c :: line) = skipSpaces line := List.dropWhile_cons_of_pos hc

private theorem tokens_congr {line line' : CStr} (h : skipSpaces line = skipSpaces line') :
    tokens line = tokens line' := by
  by_cases hline : skipSpaces line = []
  · rw [tokens_nil hline, tokens_nil (h ▸ hline)]
  · have hline' : skipSpaces line' ≠ [] := h ▸ hline
    rw [tokens_cons hline, tokens_cons hline', h]

private theorem tokens_blanks (bs : List Blank) (line : CStr) :
    tokens (blanks bs ++ line) = tokens line :=
  tokens_congr (skipSpaces_blanks bs line)

private theorem tokens_token {t line : CStr} (ht : IsToken t)
    (hend : startsSeparator t = false → endsWord line) : tokens (t ++ line) = t :: tokens line := by
  have hskip := skipSpaces_token line ht
  have hne : skipSpaces (t ++ line) ≠ [] := by
    rw [hskip]
    exact List.append_ne_nil_of_left_ne_nil ht.ne_nil line
  rw [tokens_cons hne, hskip, getArg_token ht hend, List.drop_left]

theorem tokens_layout (gaps : Nat → Blank × List Blank) {ts : List CStr}
    (ht : ∀ t ∈ ts, IsToken t) : tokens (layout gaps ts) = ts := by
  induction ts generalizing gaps with
  | nil =>
      have h := tokens_blanks (gaps 0).2 []
      rw [List.append_nil] at h
      exact h.trans (tokens_nil rfl)
  | cons t ts ih =>
      have htok := ht t List.mem_cons_self
      have hts : ∀ u ∈ ts, IsToken u := fun u hu => ht u (List.mem_cons_of_mem t hu)
      let gap := if needsBlank t ts then [(gaps 0).1] else []
      have hgap : (if needsBlank t ts then blanks [(gaps 0).1] else []) = blanks gap := by
        cases hb : needsBlank t ts <;> simp [gap, hb, blanks]
      rw [layout, List.append_assoc, List.append_assoc, tokens_blanks,
        tokens_token htok (endsWord_layout (fun j => gaps (j + 1)) (gaps 0).1 hts), hgap,
        tokens_blanks, ih (fun j => gaps (j + 1)) hts]

theorem getSplitted_layout (mem : Arena nul) (σ : Scope) (gaps : Nat → Blank × List Blank)
    {ts : List CStr} (tail : List Char) {fuel : Nat} (ht : ∀ t ∈ ts, IsToken t)
    (hroom : ts.length ≤ argsSize) (hf : (layout gaps ts).length < fuel) :
    getSplitted mem σ fuel (layout gaps ts ++ nul :: tail) =
      .ok ((ts.map (copied mem)).map some ++ [none]) := by
  have hplain := layout_isPlain gaps ts ht
  rw [getSplitted_tokens (expand_plain σ hplain hf), cString_plain tail hplain,
    tokens_layout gaps ht]
  exact if_pos hroom

/-! ## Copies of tokens -/

private theorem copied_of_fits {mem : Arena nul} {token : CStr} (h : mem.Fits token.length token) :
    copied mem token = token := by
  rw [copied, Arena.kept_of_fits h, Arena.kept_of_fits (Allocator.fits_of_lt (Nat.lt_succ_self _))]

theorem map_copied_of_fits {mem : Arena nul} {ts : List CStr}
    (h : ∀ t ∈ ts, mem.Fits t.length t) : ts.map (copied mem) = ts := by
  have hcopied : ts.map (copied mem) = ts.map id :=
    List.map_congr_left fun t ht => copied_of_fits (h t ht)
  rw [hcopied, List.map_id]

theorem prefix_copied (mem : Arena nul) (token : CStr) : token <+: copied mem token := by
  have hinner : token <+: mem.kept token.length token := Arena.prefix_kept (Nat.le_refl _)
  by_cases hfits : mem.Fits (token.length + 1) (mem.kept token.length token)
  · rwa [copied, Arena.kept_of_fits hfits]
  · have hle := mem.le_usable (token.length + 1)
    rw [copied, Arena.kept, if_neg hfits]
    refine (List.prefix_take_iff.mpr ⟨hinner, by omega⟩).trans (List.prefix_append _ _)

private theorem copied_eq_self_iff {mem : Arena nul} (hbehind : ∀ n, mem.behind n ≠ [])
    {token : CStr} :
    copied mem token = token ↔ mem.Fits token.length token := by
  refine ⟨fun h => ?_, copied_of_fits⟩
  have hpos := List.length_pos_iff.mpr (hbehind token.length)
  have houter : mem.Fits (token.length + 1) (mem.kept token.length token) := by
    by_contra hfits
    have hlength := Arena.length_kept hfits
    have hle := mem.le_usable (token.length + 1)
    rw [← copied, h] at hlength
    omega
  rw [copied, Arena.kept_of_fits houter] at h
  exact (Arena.kept_eq_self_iff (by omega)).mp h

private theorem length_flatten_copied_le (mem : Arena nul) (ts : List CStr) :
    ts.flatten.length ≤ (ts.map (copied mem)).flatten.length := by
  induction ts with
  | nil => exact Nat.le_refl _
  | cons t ts ih =>
      rw [List.map_cons, List.flatten_cons, List.flatten_cons, List.length_append,
        List.length_append]
      exact Nat.add_le_add (prefix_copied mem t).length_le ih

private theorem copied_eq_of_flatten {mem : Arena nul} {ts : List CStr}
    (h : (ts.map (copied mem)).flatten.length ≤ ts.flatten.length) :
    ∀ t ∈ ts, copied mem t = t := by
  induction ts with
  | nil => nofun
  | cons t ts ih =>
      have hhead := (prefix_copied mem t).length_le
      have htail := length_flatten_copied_le mem ts
      rw [List.map_cons, List.flatten_cons, List.flatten_cons, List.length_append,
        List.length_append] at h
      intro u hu
      rcases List.mem_cons.mp hu with rfl | hu
      · exact ((prefix_copied mem u).eq_of_length (by omega)).symm
      · exact ih (by omega) u hu

/-! ## Every line -/

private theorem startsSeparator_getArg {line : CStr} (h : startsSeparator (getArg line) = false) :
    startsSeparator line = false := by
  cases hline : startsSeparator line with
  | false => rfl
  | true =>
      rw [getArg, if_pos hline] at h
      cases line with
      | nil => cases hline
      | cons c rest => exact hline.symm.trans h

private theorem getArg_isToken {line : CStr} (hplain : ∀ c ∈ line, isPlain c = true)
    (hne : getArg line ≠ []) : IsToken (getArg line) := by
  have hmem : ∀ c ∈ getArg line, isPlain c = true :=
    fun c hc => hplain c ((getArg_isPrefix line).subset hc)
  by_cases hsep : startsSeparator line = true
  · cases line with
    | nil => cases hsep
    | cons c rest =>
        rw [getArg, if_pos hsep]
        exact .separator hsep
  · refine .word hne fun c hc => ?_
    have hc' := hmem c hc
    rw [getArg, if_neg hsep] at hc
    have hword := List.mem_takeWhile_imp hc
    simp only [isPlain, Bool.and_eq_true, bne_iff_ne, Bool.not_eq_eq_eq_not, Bool.not_true]
      at hc' hword
    exact isWordChar_iff.mpr ⟨hc'.1, hword.1, hword.2, hc'.2⟩

private theorem endsWord_drop_getArg {line : CStr} (hsep : startsSeparator (getArg line) = false) :
    endsWord (line.drop (getArg line).length) := by
  have hline := startsSeparator_getArg hsep
  intro c hc
  have hdrop : line.drop (getArg line).length =
      line.dropWhile fun c => !isSpace c && !isSeparator c := by
    have hsplit : (line.takeWhile fun c => !isSpace c && !isSeparator c) ++
        (line.dropWhile fun c => !isSpace c && !isSeparator c) = line :=
      List.takeWhile_append_dropWhile
    have hleft : ((line.takeWhile fun c => !isSpace c && !isSeparator c) ++
        (line.dropWhile fun c => !isSpace c && !isSeparator c)).drop
          (line.takeWhile fun c => !isSpace c && !isSeparator c).length =
        line.dropWhile fun c => !isSpace c && !isSeparator c := List.drop_left
    rw [getArg, if_neg (by simp [hline])]
    rwa [hsplit] at hleft
  have hstop := List.head?_dropWhile_not (fun c => !isSpace c && !isSeparator c) line
  rw [← hdrop, hc] at hstop
  simpa [or_iff_not_imp_left] using hstop

/-- The blanks around one more token in front. -/
def gapsCons (gap : Blank × List Blank) (gaps : Nat → Blank × List Blank) :
    Nat → Blank × List Blank
  | 0 => gap
  | j + 1 => gaps j

private theorem layout_gapsCons (gap : Blank × List Blank) (gaps : Nat → Blank × List Blank)
    (t : CStr) (ts : List CStr) :
    layout (gapsCons gap gaps) (t :: ts) =
      blanks gap.2 ++ t ++ (if needsBlank t ts then blanks [gap.1] else []) ++ layout gaps ts := rfl

private theorem exists_blanks (line : CStr) : ∃ bs, line = blanks bs ++ skipSpaces line := by
  refine ⟨(line.takeWhile isSpace).attach.map fun c => ⟨c.1, List.mem_takeWhile_imp c.2⟩, ?_⟩
  have hblanks : blanks ((line.takeWhile isSpace).attach.map
      fun c => ⟨c.1, List.mem_takeWhile_imp c.2⟩) = line.takeWhile isSpace := by
    rw [blanks, List.map_map]
    exact List.attach_map_subtype_val _
  rw [hblanks, skipSpaces, List.takeWhile_append_dropWhile]

private theorem gap_ne_nil {gaps : Nat → Blank × List Blank} {u : CStr} {us : List CStr}
    (hu : IsToken u) (hword : startsSeparator u = false) (hend : endsWord (layout gaps (u :: us))) :
    (gaps 0).2 ≠ [] := by
  intro hgap
  rw [layout, hgap] at hend
  cases hu with
  | separator hc => exact absurd hc (by simpa [startsSeparator] using hword)
  | word hne hw =>
      obtain ⟨d, w, rfl⟩ := List.exists_cons_of_ne_nil hne
      have hd := hend d rfl
      obtain ⟨-, hspace, hseparator, -⟩ := isWordChar_iff.mp (hw d List.mem_cons_self)
      rw [hspace, hseparator] at hd
      cases hd

private theorem exists_layout {line : CStr} (hplain : ∀ c ∈ line, isPlain c = true) :
    (∀ t ∈ tokens line, IsToken t) ∧ ∃ gaps, line = layout gaps (tokens line) := by
  induction line using tokens.induct with
  | case1 line h =>
      obtain ⟨bs, hbs⟩ := exists_blanks line
      rw [h, List.append_nil] at hbs
      rw [tokens_nil h]
      exact ⟨List.forall_mem_nil _, fun _ => (⟨' ', rfl⟩, bs), hbs⟩
  | case2 line h ih =>
      obtain ⟨bs, hbs⟩ := exists_blanks line
      have hskip : ∀ c ∈ skipSpaces line, isPlain c = true := fun c hc =>
        hplain c ((List.dropWhile_suffix isSpace).subset hc)
      have htok := getArg_isToken hskip (getArg_ne_nil h)
      have hend : startsSeparator (getArg (skipSpaces line)) = false →
          endsWord ((skipSpaces line).drop (getArg (skipSpaces line)).length) :=
        endsWord_drop_getArg
      have hcut : skipSpaces line = getArg (skipSpaces line) ++
          (skipSpaces line).drop (getArg (skipSpaces line)).length :=
        (List.prefix_iff_eq_append.mp (getArg_isPrefix _)).symm
      obtain ⟨hts, gaps, hrest⟩ := ih fun c hc => hskip c (List.mem_of_mem_drop hc)
      rw [tokens_cons h]
      generalize getArg (skipSpaces line) = t at htok hend hcut hts hrest ⊢
      generalize (skipSpaces line).drop t.length = rest at hend hcut hts hrest ⊢
      generalize tokens rest = ts at hts hrest ⊢
      refine ⟨fun u hu => ?_, ?_⟩
      · rcases List.mem_cons.mp hu with rfl | hu
        · exact htok
        · exact hts u hu
      rw [hbs, hcut]
      cases hb : needsBlank t ts with
      | false =>
          refine ⟨gapsCons (⟨' ', rfl⟩, bs) gaps, ?_⟩
          rw [layout_gapsCons, hb, hrest]
          simp
      | true =>
          cases ts with
          | nil => cases hb
          | cons u us =>
              obtain ⟨hsep, hword⟩ : startsSeparator t = false ∧ startsSeparator u = false := by
                simpa [needsBlank] using hb
              have hgap := gap_ne_nil (hts u List.mem_cons_self) hword (hrest ▸ hend hsep)
              obtain ⟨g, gs, hg⟩ := List.exists_cons_of_ne_nil hgap
              refine ⟨gapsCons (g, bs) (gapsCons ((gaps 0).1, gs) fun j => gaps (j + 1)), ?_⟩
              rw [layout_gapsCons, if_pos hb, layout_gapsCons, hrest, layout, hg]
              simp [blanks]

/-! ## The text of the tokens -/

private theorem filter_blanks (bs : List Blank) :
    (blanks bs).filter (fun c => !isSpace c) = [] := by
  rw [List.filter_eq_nil_iff]
  intro c hc
  obtain ⟨b, -, rfl⟩ := List.mem_map.mp hc
  simp [b.property]

theorem IsToken.filter {t : CStr} (ht : IsToken t) : t.filter (fun c => !isSpace c) = t := by
  rw [List.filter_eq_self]
  intro c hc
  cases ht with
  | word _ hw => simp [(isWordChar_iff.mp (hw c hc)).2.1]
  | separator hs =>
      rw [List.mem_singleton] at hc
      simp [hc, isSpace_of_isSeparator hs]

private theorem filter_gap (t : CStr) (ts : List CStr) (b : Blank) :
    (if needsBlank t ts then blanks [b] else []).filter (fun c => !isSpace c) = [] := by
  split
  · exact filter_blanks [b]
  · rfl

private theorem filter_layout (gaps : Nat → Blank × List Blank) {ts : List CStr}
    (ht : ∀ t ∈ ts, IsToken t) :
    (layout gaps ts).filter (fun c => !isSpace c) = ts.flatten := by
  induction ts generalizing gaps with
  | nil => exact filter_blanks _
  | cons t ts ih =>
      rw [layout, List.filter_append, List.filter_append, List.filter_append, filter_blanks,
        (ht t List.mem_cons_self).filter, filter_gap,
        ih (fun j => gaps (j + 1)) fun u hu => ht u (List.mem_cons_of_mem t hu)]
      simp

private theorem layout_apart (gaps : Nat → Blank × List Blank) {us ws : List CStr} {v w : CStr}
    (ht : ∀ t ∈ us ++ v :: w :: ws, IsToken t) (hv : startsSeparator v = false)
    (hw : startsSeparator w = false) :
    ∃ front c rest, layout gaps (us ++ v :: w :: ws) = front ++ c :: rest ∧ isSpace c = true ∧
      front.filter (fun c => !isSpace c) = (us ++ [v]).flatten := by
  induction us generalizing gaps with
  | nil =>
      have hgap : needsBlank v (w :: ws) = true := by simp [needsBlank, hv, hw]
      refine ⟨blanks (gaps 0).2 ++ v, (gaps 0).1, layout (fun j => gaps (j + 1)) (w :: ws), ?_,
        (gaps 0).1.property, ?_⟩
      · rw [List.nil_append, layout, if_pos hgap]
        simp [blanks]
      · rw [List.filter_append, filter_blanks, (ht v List.mem_cons_self).filter]
        simp
  | cons u us ih =>
      obtain ⟨front, c, rest, hlayout, hc, hfront⟩ :=
        ih (fun j => gaps (j + 1)) fun t h => ht t (List.mem_cons_of_mem u h)
      let first := blanks (gaps 0).2 ++ u ++
        if needsBlank u (us ++ v :: w :: ws) then blanks [(gaps 0).1] else []
      refine ⟨first ++ front, c, rest, ?_, hc, ?_⟩
      · rw [List.cons_append, layout, hlayout, ← List.append_assoc]
      · rw [List.filter_append, List.filter_append, List.filter_append, filter_blanks,
          (ht u List.mem_cons_self).filter, filter_gap, hfront]
        simp

/-! ## Tokens joined by single blanks -/

/-- The tokens with one blank between each two. -/
def joined (ts : List CStr) : CStr := [' '].intercalate ts

private theorem joined_cons (t u : CStr) (ts : List CStr) :
    joined (t :: u :: ts) = t ++ ' ' :: joined (u :: ts) := by
  simp [joined, List.intercalate]

private theorem joined_isPlain {ts : List CStr} (ht : ∀ t ∈ ts, IsToken t) :
    ∀ c ∈ joined ts, isPlain c = true := by
  induction ts with
  | nil => nofun
  | cons t ts ih =>
      cases ts with
      | nil =>
          simpa [joined, List.intercalate] using (ht t List.mem_cons_self).isPlain
      | cons u ts =>
          intro c hc
          rw [joined_cons, List.mem_append, List.mem_cons] at hc
          rcases hc with hc | rfl | hc
          · exact (ht t List.mem_cons_self).isPlain c hc
          · decide
          · exact ih (fun v hv => ht v (List.mem_cons_of_mem t hv)) c hc

private theorem tokens_joined {ts : List CStr} (ht : ∀ t ∈ ts, IsToken t) :
    tokens (joined ts) = ts := by
  induction ts with
  | nil => exact tokens_nil rfl
  | cons t ts ih =>
      have htok := ht t List.mem_cons_self
      cases ts with
      | nil =>
          have h : tokens (t ++ []) = t :: tokens [] := tokens_token htok fun _ => nofun
          have hend : tokens [] = [] := tokens_nil rfl
          rw [hend, List.append_nil] at h
          simpa [joined, List.intercalate] using h
      | cons u ts =>
          have hend : endsWord (' ' :: joined (u :: ts)) := by
            intro c hc
            cases hc
            rfl
          rw [joined_cons, tokens_token htok fun _ => hend, tokens_congr (skipSpaces_cons rfl _),
            ih fun v hv => ht v (List.mem_cons_of_mem t hv)]

/-- The tokens of a line: its text without the blanks, cut into separators and maximal words, which
is the only way to read the line as tokens. -/
structure SplitsInto (line : CStr) (ts : List CStr) : Prop where
  text : ts.flatten = line.filter fun c => !isSpace c
  isToken : ∀ t ∈ ts, IsToken t
  maximal : ∀ us v w ws, ts = us ++ v :: w :: ws → startsSeparator v = false →
    startsSeparator w = false →
    ∃ front c rest, line = front ++ c :: rest ∧ isSpace c = true ∧
      front.filter (fun c => !isSpace c) = (us ++ [v]).flatten
  layout : ∃ gaps, line = layout gaps ts
  unique : ∀ us, (∀ u ∈ us, IsToken u) → (∃ gaps, line = Lab4.layout gaps us) → us = ts

private theorem splitsInto_tokens {line : CStr} (hplain : ∀ c ∈ line, isPlain c = true) :
    SplitsInto line (tokens line) := by
  obtain ⟨htoks, gaps, hgaps⟩ := exists_layout hplain
  refine ⟨?_, htoks, ?_, ⟨gaps, hgaps⟩, ?_⟩
  · rw [← filter_layout gaps htoks, ← hgaps]
  · intro us v w ws hts hv hw
    rw [hts] at htoks hgaps
    obtain ⟨front, c, rest, hline, hspace, hfront⟩ := layout_apart gaps htoks hv hw
    exact ⟨front, c, rest, hgaps.trans hline, hspace, hfront⟩
  · rintro us hus ⟨gaps', hgaps'⟩
    rw [hgaps', tokens_layout gaps' hus]

/-- `get_splitted` stores the tokens of the line, and the same ones for the tokens joined by
blanks. -/
def ExactlySplit (mem : Arena nul) (σ : Scope) (fuel : Nat) (line tail : List Char) : Prop :=
  ∃ ts, getSplitted mem σ fuel (line ++ nul :: tail) = .ok (ts.map some ++ [none]) ∧
    SplitsInto line ts ∧
    ∀ fuel' tail', (joined ts).length < fuel' →
      getSplitted mem σ fuel' (joined ts ++ nul :: tail') = .ok (ts.map some ++ [none])

section

variable {mem : Arena nul} {σ : Scope} {line : CStr} {tail : List Char} {fuel : Nat}

private theorem getSplitted_plain (hplain : ∀ c ∈ line, isPlain c = true)
    (hfew : (tokens line).length < argsSize) (hf : line.length < fuel) :
    getSplitted mem σ fuel (line ++ nul :: tail) =
      .ok (((tokens line).map (copied mem)).map some ++ [none]) := by
  rw [getSplitted_tokens (expand_plain σ hplain hf), cString_plain tail hplain]
  exact if_pos (Nat.le_of_lt hfew)

private theorem exactlySplit_of_fits (hplain : ∀ c ∈ line, isPlain c = true)
    (hfew : (tokens line).length < argsSize) (hf : line.length < fuel)
    (hfits : ∀ t ∈ tokens line, mem.Fits t.length t) : ExactlySplit mem σ fuel line tail := by
  have hcopied := map_copied_of_fits hfits
  have htoks := (exists_layout hplain).1
  have hjoined := tokens_joined htoks
  refine ⟨tokens line, ?_, splitsInto_tokens hplain, fun fuel' tail' hf' => ?_⟩
  · rw [getSplitted_plain hplain hfew hf, hcopied]
  · rw [getSplitted_plain (joined_isPlain htoks) (by rwa [hjoined]) hf', hjoined, hcopied]

private theorem fits_of_exactlySplit (hbehind : ∀ n, mem.behind n ≠ [])
    (hplain : ∀ c ∈ line, isPlain c = true) (hfew : (tokens line).length < argsSize)
    (hf : line.length < fuel) (h : ExactlySplit mem σ fuel line tail) :
    ∀ t ∈ tokens line, mem.Fits t.length t := by
  obtain ⟨ts, hsplit, hinto, -⟩ := h
  rw [getSplitted_plain hplain hfew hf, Except.ok.injEq, List.append_left_inj] at hsplit
  have hts := List.map_injective_iff.mpr (fun _ _ => Option.some.inj) hsplit
  have hlength :
      ((tokens line).map (copied mem)).flatten.length ≤ (tokens line).flatten.length := by
    rw [hts, hinto.text, (splitsInto_tokens hplain).text]
  intro t ht
  exact (copied_eq_self_iff hbehind).mp (copied_eq_of_flatten hlength t ht)

private theorem length_le_of_mem_tokens (hplain : ∀ c ∈ line, isPlain c = true) {t : CStr}
    (ht : t ∈ tokens line) : t.length ≤ line.length := by
  have htext := (splitsInto_tokens hplain).text
  calc t.length
    _ ≤ (tokens line).flatten.length := (List.sublist_flatten_of_mem ht).length_le
    _ ≤ line.length := by
      rw [htext]
      exact List.length_filter_le _ _

end

/-- A line without variables and of fewer than `ARGS_SIZE` tokens is cut exactly, whatever stands
behind the blocks, if and only if the block of every token has room for its terminator. -/
theorem splitted_exact_iff (a : Allocator) (σ : Scope) (line : CStr) (tail : List Char) (fuel : Nat)
    (hnul : nul ∉ line) (hdollar : '$' ∉ line) (hfew : (tokens line).length < argsSize)
    (hf : line.length < fuel) :
    (∀ mem : Arena nul, mem.toAllocator = a → ExactlySplit mem σ fuel line tail) ↔
      ∀ t ∈ tokens line, a.Fits t.length t := by
  have hplain := plain_of_notMem hnul hdollar
  have hone : nul ≠ '1' := by decide
  constructor
  · intro h
    exact fits_of_exactlySplit (fun _ => List.cons_ne_nil _ _) hplain hfew hf
      (h (a.filled hone 1) rfl)
  · rintro h mem rfl
    exact exactlySplit_of_fits hplain hfew hf h

/-- A word that fills its block. -/
def longWord : CStr := List.replicate 24 'w'

theorem longWord_plain : ∀ c ∈ longWord, isWordChar c = true :=
  List.all_eq_true.mp (by decide)

private theorem tokens_longWord : tokens longWord = [longWord] := by
  have htok : IsToken longWord := .word (List.cons_ne_nil _ _) longWord_plain
  have h : tokens (longWord ++ []) = longWord :: tokens [] := tokens_token htok fun _ => nofun
  have hend : tokens [] = [] := tokens_nil rfl
  rwa [List.append_nil, hend] at h

/-- Two short words with a separator, and a word of 24 bytes. -/
theorem splitted_exact_iff_pipe :
    (∀ mem : Arena nul, mem.toAllocator = Allocator.aligned →
        ExactlySplit mem ⟨[], fun _ => none⟩ 9 [' ', 'a', '|', 'b', '\t', ' ', 'c'] [nul]) ∧
      ¬ ∀ mem : Arena nul, mem.toAllocator = Allocator.aligned →
        ExactlySplit mem ⟨[], fun _ => none⟩ 25 longWord [] := by
  have hplain : ∀ c ∈ [' ', 'a', '|', 'b', '\t', ' ', 'c'], isPlain c = true :=
    List.all_eq_true.mp (by decide)
  have hcount := tokens_length_le [' ', 'a', '|', 'b', '\t', ' ', 'c']
  constructor
  · refine (splitted_exact_iff Allocator.aligned _ _ _ _ (by decide) (by decide)
      (Nat.lt_of_le_of_lt hcount (by decide)) (by decide)).mpr fun t ht => ?_
    have hlength : t.length ≤ 7 := length_le_of_mem_tokens hplain ht
    exact Nat.lt_of_lt_of_le (by omega) (Nat.le_max_left _ _)
  · rw [splitted_exact_iff Allocator.aligned _ _ _ _ (by decide) (by decide)
      (by rw [tokens_longWord]; decide) (by decide), tokens_longWord]
    decide

/-- A word of 24 bytes. -/
theorem splitted_exact_fails :
    ¬ ∀ (mem : Arena nul) (σ : Scope) (fuel : Nat) (line tail : List Char), nul ∉ line →
      '$' ∉ line → (tokens line).length < argsSize → line.length < fuel →
        ExactlySplit mem σ fuel line tail := by
  intro h
  have hfew : (tokens longWord).length < argsSize := by
    rw [tokens_longWord]
    decide
  have hexact := h lengthBehind ⟨[], fun _ => none⟩ 25 longWord [] (by decide) (by decide) hfew
    (by decide)
  have hplain (c : Char) (hc : c ∈ longWord) : isPlain c = true :=
    isPlain_of_isWordChar (longWord_plain c hc)
  have hfits := fits_of_exactlySplit (fun _ => List.cons_ne_nil _ _) hplain hfew (by decide) hexact
    longWord (by rw [tokens_longWord]; exact List.mem_singleton_self _)
  exact absurd hfits (by decide)

example : getSplitted lengthBehind ⟨[], fun _ => none⟩ 25 (longWord ++ [nul]) =
    .ok [some (longWord ++ ['1']), none] := by decide +kernel

end SyssoftLabs.Lab4
