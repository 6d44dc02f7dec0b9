import Mathlib.Data.List.Induction
import SyssoftLabs.Lab4.Editor.Model

/-!
# The buffer of the editor

The text before the cursor, the text after it, and bytes of any kind behind them. Each key changes
the two texts, and no more than the first two bytes behind them.
-/

namespace SyssoftLabs.Lab4

/-! ## Shifting a string -/

variable {buffer pre rest : List Char} {s : CStr} {x c : Char}

theorem stringAt_append (hs : nul ∉ s) (pre rest : List Char) :
    stringAt (pre ++ (s ++ nul :: rest)) pre.length = .ok s := by
  rw [stringAt, List.drop_left, cString_append_nul hs]
  simp only [List.length_append, List.length_cons]
  rw [if_pos (by omega)]

theorem exists_of_stringAt {str : Nat} (h : stringAt buffer str = .ok s) :
    nul ∉ s ∧ ∃ rest, buffer.drop str = s ++ nul :: rest := by
  unfold stringAt at h
  dsimp only at h
  split at h
  · next hlt =>
      cases h
      refine ⟨nul_notMem_cString _, ?_⟩
      have hsplit : cString (buffer.drop str) ++ (buffer.drop str).dropWhile (· ≠ nul) =
          buffer.drop str := List.takeWhile_append_dropWhile
      cases hdrop : (buffer.drop str).dropWhile (· ≠ nul) with
      | nil =>
          rw [hdrop, List.append_nil] at hsplit
          have hlen := congrArg List.length hsplit
          rw [List.length_drop] at hlen
          omega
      | cons c rest =>
          have hc : c = nul := by
            have hhead := List.head?_dropWhile_not (· ≠ nul) (buffer.drop str)
            rw [hdrop] at hhead
            simpa using hhead
          rw [hdrop, hc] at hsplit
          exact ⟨rest, hsplit.symm⟩
  · cases h

theorem peek_append (pre : List Char) (x : Char) (rest : List Char) :
    peek (pre ++ x :: rest) pre.length = .ok x := by
  simp [peek]

theorem poke_append (pre : List Char) (x c : Char) (rest : List Char) :
    poke (pre ++ x :: rest) pre.length c = .ok (pre ++ c :: rest) := by
  simp [poke]

private theorem strshlFrom_append (hs : nul ∉ s) (pre : List Char) (x : Char) (rest : List Char) :
    strshlFrom 1 (pre ++ x :: (s ++ nul :: rest)) (pre.length + 1) =
      .ok (pre ++ (s ++ nul :: nul :: rest)) := by
  induction s generalizing pre x with
  | nil =>
      rw [strshlFrom]
      simp
  | cons c s ih =>
      rw [List.mem_cons, not_or] at hs
      have hstep := ih hs.2 (pre ++ [c]) c
      rw [strshlFrom]
      simpa [Ne.symm hs.1] using hstep

private theorem strshrFrom_append (s pre : List Char) (x : Char) (rest : List Char) :
    strshrFrom 1 pre.length (pre ++ (s ++ x :: rest)) s.length =
      .ok (pre ++ s.headD x :: (s ++ rest)) := by
  induction s using List.reverseRecOn generalizing x rest with
  | nil => simp [strshrFrom]
  | append_singleton s c ih =>
      have hread : peek (pre ++ (s ++ [c] ++ x :: rest)) (pre.length + s.length) = .ok c := by
        have h := peek_append (pre ++ s) c (x :: rest)
        simpa using h
      have hwrite : poke (pre ++ (s ++ [c] ++ x :: rest)) (pre.length + (s.length + 1)) c =
          .ok (pre ++ (s ++ c :: c :: rest)) := by
        have h := poke_append (pre ++ (s ++ [c])) x c rest
        simpa using h
      rw [List.length_append, List.length_singleton, strshrFrom, if_neg (by omega),
        Nat.add_sub_cancel, hread]
      have hhead : (s ++ [c]).headD x = s.headD c := by
        cases s with
        | nil => rfl
        | cons d s => rfl
      rw [hhead]
      change (poke _ _ c >>= fun buffer => strshrFrom 1 pre.length buffer s.length) = _
      rw [hwrite]
      change strshrFrom 1 pre.length (pre ++ (s ++ c :: c :: rest)) s.length = _
      rw [ih c (c :: rest)]
      simp

private theorem strshr_append (hs : nul ∉ s) (pre rest : List Char) (x : Char) :
    strshr (pre ++ (s ++ nul :: x :: rest)) pre.length 1 =
      .ok (pre ++ s.headD nul :: (s ++ nul :: rest)) := by
  have hwrite : poke (pre ++ (s ++ nul :: x :: rest)) (pre.length + s.length + 1) nul =
      .ok (pre ++ (s ++ nul :: nul :: rest)) := by
    have h := poke_append (pre ++ (s ++ [nul])) x nul rest
    simpa [Nat.add_assoc] using h
  rw [strshr, if_neg (by decide), stringAt_append hs]
  change (poke _ _ nul >>= fun buffer => strshrFrom 1 pre.length buffer s.length) = _
  rw [hwrite]
  exact strshrFrom_append s pre nul (nul :: rest)

/-! ## Symbols and deletions -/

section

variable {e e' : Editor} {before : List Char}

/-- A symbol is shown alone at the end of the line, and with the string behind it inside. -/
theorem Editor.insert_cases (h : e.insert c = .ok e') :
    e'.reading = e.reading ∧
      ((e.pos = e.length ∧ e'.out = e.out ++ cString [c]) ∨
        e.pos ≠ e.length ∧ ∃ tail, stringAt e'.line e.pos = .ok tail ∧
          e'.out = e.out ++ tail ++ List.replicate (e.length - e.pos) back) := by
  unfold Editor.insert at h
  split at h
  · next hend =>
      cases hline : poke e.line e.pos c <;> rw [hline] at h <;> cases h
      exact ⟨rfl, .inl ⟨hend, rfl⟩⟩
  · next hend =>
      cases hshift : strshr e.line e.pos 1 with
      | error stuck =>
          rw [hshift] at h
          cases h
      | ok line =>
          rw [hshift, Framework.bind_of_ok rfl] at h
          cases hline : poke line e.pos c with
          | error stuck =>
              rw [hline] at h
              cases h
          | ok line =>
              rw [hline, Framework.bind_of_ok rfl] at h
              cases htail : stringAt line e.pos <;> rw [htail] at h <;> cases h
              exact ⟨rfl, .inr ⟨hend, _, htail, rfl⟩⟩

theorem Editor.insert_atEnd (hpos : e.pos = before.length) (hend : e.pos = e.length)
    (hline : e.line = before ++ x :: rest) (c : Char) :
    ∃ e', e.insert c = .ok e' ∧ e'.reading = e.reading ∧ e'.pos = e.pos + 1 ∧
      e'.length = e.length + 1 ∧ e'.line = before ++ c :: rest := by
  have hwrite := poke_append before x c rest
  rw [← hline, ← hpos] at hwrite
  rw [Editor.insert, if_pos hend, hwrite]
  exact ⟨_, rfl, rfl, rfl, rfl, rfl⟩

theorem Editor.insert_inside (hpos : e.pos = before.length) (hend : e.pos ≠ e.length)
    (hs : nul ∉ s) (hline : e.line = before ++ (s ++ nul :: x :: rest)) (c : Char) :
    ∃ e', e.insert c = .ok e' ∧ e'.reading = e.reading ∧ e'.pos = e.pos + 1 ∧
      e'.length = e.length + 1 ∧ e'.line = before ++ c :: (s ++ nul :: rest) := by
  have hshift := strshr_append hs before rest x
  rw [← hline, ← hpos] at hshift
  have hwrite := poke_append before (s.headD nul) c (s ++ nul :: rest)
  have hshown : ∃ tail, stringAt (before ++ c :: (s ++ nul :: rest)) before.length = .ok tail := by
    by_cases hc : c = nul
    · exact ⟨[], by rw [hc]; exact stringAt_append List.not_mem_nil before _⟩
    · have hmem : nul ∉ c :: s := by
        rw [List.mem_cons, not_or]
        exact ⟨Ne.symm hc, hs⟩
      exact ⟨c :: s, stringAt_append hmem before rest⟩
  obtain ⟨tail, hshown⟩ := hshown
  rw [← hpos] at hwrite hshown
  rw [Editor.insert, if_neg hend, hshift]
  change ∃ e', (poke _ _ c >>= fun line => stringAt line e.pos >>= fun tail => _) = .ok e' ∧ _
  rw [hwrite]
  change ∃ e', (stringAt _ e.pos >>= fun tail => _) = .ok e' ∧ _
  rw [hshown]
  exact ⟨_, rfl, rfl, rfl, rfl, rfl⟩

theorem Editor.insert_stuck (hpos : e.pos = before.length) (hend : e.pos ≠ e.length) (hs : nul ∉ s)
    (hline : e.line = before ++ (s ++ [nul])) (c : Char) : e.insert c = .error .fault := by
  have hlen : e.line.length = e.pos + s.length + 1 := by
    rw [hline, hpos]
    simp only [List.length_append, List.length_singleton]
    omega
  have hstring : stringAt e.line e.pos = .ok s := by
    rw [hline, hpos]
    exact stringAt_append hs before []
  have hwrite : poke e.line (e.pos + s.length + 1) nul = .error .fault := by
    rw [poke, if_neg (by omega)]
  have hshift : strshr e.line e.pos 1 = .error .fault := by
    rw [strshr, if_neg (by decide), hstring]
    change (poke e.line (e.pos + s.length + 1) nul >>= _) = _
    rw [hwrite]
    rfl
  rw [Editor.insert, if_neg hend, hshift]
  rfl

theorem Editor.backspace_atEnd (hpos : e.pos = before.length + 1) (hend : e.pos = e.length)
    (hline : e.line = before ++ x :: rest) :
    ∃ e', e.backspace = .ok e' ∧ e'.reading = e.reading ∧ e'.pos = before.length ∧
      e'.length = e.length - 1 ∧ e'.line = before ++ nul :: rest := by
  have hprev : before.length = e.pos - 1 := by omega
  have hwrite := poke_append before x nul rest
  rw [← hline, hprev] at hwrite
  rw [Editor.backspace, if_neg (by omega), if_pos hend, hwrite]
  exact ⟨_, rfl, rfl, hprev.symm, rfl, rfl⟩

theorem Editor.backspace_inside (hpos : e.pos = before.length + 1) (hend : e.pos ≠ e.length)
    (hlength : e.length ≤ e.line.length) (hs : nul ∉ s)
    (hline : e.line = before ++ x :: (s ++ nul :: rest)) :
    ∃ e', e.backspace = .ok e' ∧ e'.reading = e.reading ∧ e'.pos = before.length ∧
      e'.length = e.length - 1 ∧ e'.line = before ++ (s ++ nul :: nul :: rest) := by
  have htext : between e.line e.pos e.length =
      .ok ((e.line.drop e.pos).take (e.length - e.pos)) := if_pos hlength
  have hshift := strshlFrom_append hs before x rest
  rw [← hline, ← hpos] at hshift
  rw [Editor.backspace, if_neg (by omega), if_neg hend, htext]
  change ∃ e', (strshlFrom 1 e.line e.pos >>= fun line => _) = .ok e' ∧ _
  rw [hshift]
  exact ⟨_, rfl, rfl, by change e.pos - 1 = _; omega, rfl, rfl⟩

end

/-! ## The text around the cursor -/

/-- The buffer holds the text around the cursor, and these bytes behind it. -/
structure Stores (e : Editor) (before after : CStr) (tail : List Char) : Prop where
  pos : e.pos = before.length
  length : e.length = before.length + after.length
  line : e.line = before ++ (after ++ tail)
  clean : nul ∉ before ++ after

section

variable {e e' : Editor} {before after : CStr} {tail : List Char}

theorem Stores.congr (h : Stores e before after tail) (hpos : e'.pos = e.pos)
    (hlength : e'.length = e.length) (hline : e'.line = e.line) : Stores e' before after tail where
  pos := hpos.trans h.pos
  length := hlength.trans h.length
  line := hline.trans h.line
  clean := h.clean

theorem Stores.line_length (h : Stores e before after tail) :
    e.line.length = e.length + tail.length := by
  rw [h.line, h.length, List.length_append, List.length_append, Nat.add_assoc]

theorem Stores.atEnd (h : Stores e before after tail) : e.pos = e.length ↔ after = [] := by
  rw [h.pos, h.length, Nat.left_eq_add, List.length_eq_zero_iff]

theorem Stores.atStart (h : Stores e before after tail) : e.pos = 0 ↔ before = [] := by
  rw [h.pos, List.length_eq_zero_iff]

theorem Stores.clean_after (h : Stores e before after tail) : nul ∉ after :=
  fun hmem => h.clean (List.mem_append_right _ hmem)

private theorem Stores.clean_insert (h : Stores e before after tail) (hc : c ≠ nul) :
    nul ∉ before ++ [c] ++ after := by
  have hold := h.clean
  simp only [List.mem_append, List.mem_singleton, not_or] at hold ⊢
  exact ⟨⟨hold.1, Ne.symm hc⟩, hold.2⟩

theorem Stores.insert_atEnd (h : Stores e before [] (x :: rest)) (c : Char) :
    ∃ e', e.insert c = .ok e' ∧ e'.reading = e.reading ∧ e'.pos = e.pos + 1 ∧
      e'.length = e.length + 1 ∧ e'.line = before ++ c :: rest :=
  Editor.insert_atEnd h.pos (h.atEnd.mpr rfl) h.line c

theorem Stores.insert_inside (h : Stores e before after (nul :: x :: rest)) (hafter : after ≠ [])
    (c : Char) :
    ∃ e', e.insert c = .ok e' ∧ e'.reading = e.reading ∧ e'.pos = e.pos + 1 ∧
      e'.length = e.length + 1 ∧ e'.line = before ++ c :: (after ++ nul :: rest) :=
  Editor.insert_inside h.pos (h.atEnd.not.mpr hafter) h.clean_after h.line c

theorem Stores.insert_stuck (h : Stores e before after [nul]) (hafter : after ≠ []) (c : Char) :
    e.insert c = .error .fault :=
  Editor.insert_stuck h.pos (h.atEnd.not.mpr hafter) h.clean_after h.line c

theorem Stores.append (h : Stores e before [] (x :: rest)) (hc : c ≠ nul) :
    ∃ e', e.insert c = .ok e' ∧ e'.reading = e.reading ∧ Stores e' (before ++ [c]) [] rest := by
  obtain ⟨e', he', hreading, hpos, hlength, hline⟩ := h.insert_atEnd c
  refine ⟨e', he', hreading, ?_, ?_, ?_, h.clean_insert hc⟩
  · simp [hpos, h.pos]
  · simp [hlength, h.length]
  · simp [hline]

/-- A symbol inside the line, behind which the byte after the NUL is lost. -/
theorem Stores.insert (h : Stores e before after (nul :: x :: rest)) (hafter : after ≠ [])
    (hc : c ≠ nul) :
    ∃ e', e.insert c = .ok e' ∧ e'.reading = e.reading ∧
      Stores e' (before ++ [c]) after (nul :: rest) := by
  obtain ⟨e', he', hreading, hpos, hlength, hline⟩ := h.insert_inside hafter c
  refine ⟨e', he', hreading, ?_, ?_, ?_, h.clean_insert hc⟩
  · simp [hpos, h.pos]
  · simp [hlength, h.length]
    omega
  · simp [hline]

/-- The text ends one byte earlier, with a NUL in place of its last byte. Inside the line there has
to be a NUL behind it. -/
theorem Stores.backspace (h : Stores e before after tail)
    (htail : before ≠ [] → after ≠ [] → ∃ rest, tail = nul :: rest) :
    ∃ e', e.backspace = .ok e' ∧ e'.reading = e.reading ∧
      Stores e' before.dropLast after (if before = [] then tail else nul :: tail) := by
  cases before using List.reverseRecOn with
  | nil =>
      rw [Editor.backspace, if_pos (h.atStart.mpr rfl)]
      exact ⟨e, rfl, rfl, h⟩
  | append_singleton before x =>
      have hbefore : before ++ [x] ≠ [] :=
        List.append_ne_nil_of_right_ne_nil before (List.cons_ne_nil x [])
      have hpos : e.pos = before.length + 1 := by simpa using h.pos
      have hlen : e.length = before.length + after.length + 1 := by
        have hlength := h.length
        simp only [List.length_append, List.length_singleton] at hlength
        omega
      have hline : e.line = before ++ x :: (after ++ tail) := by simpa using h.line
      have hclean : nul ∉ before ++ after := by
        have hold := h.clean
        simp only [List.mem_append, not_or] at hold ⊢
        exact ⟨hold.1.1, hold.2⟩
      have hrest : (if before ++ [x] = [] then tail else nul :: tail) = nul :: tail :=
        if_neg hbefore
      rw [List.dropLast_concat, hrest]
      by_cases hafter : after = []
      · subst hafter
        obtain ⟨e', he', hreading, hpos', hlength', hline'⟩ :=
          Editor.backspace_atEnd hpos (h.atEnd.mpr rfl) hline
        exact ⟨e', he', hreading, hpos', by rw [hlength', hlen]; rfl, hline', hclean⟩
      · obtain ⟨rest, rfl⟩ := htail hbefore hafter
        have hwithin : e.length ≤ e.line.length := by
          rw [h.line_length]
          exact Nat.le_add_right _ _
        obtain ⟨e', he', hreading, hpos', hlength', hline'⟩ :=
          Editor.backspace_inside hpos (h.atEnd.not.mpr hafter) hwithin h.clean_after hline
        exact ⟨e', he', hreading, hpos', by rw [hlength', hlen]; rfl, hline', hclean⟩

theorem Stores.left (h : Stores e before after tail) :
    Stores e.left before.dropLast (before.getLast?.toList ++ after) tail := by
  cases before using List.reverseRecOn with
  | nil =>
      rw [Editor.left, if_pos (h.atStart.mpr rfl)]
      exact h
  | append_singleton before x =>
      have hpos : e.pos = before.length + 1 := by simpa using h.pos
      have hlen := h.length
      have hline := h.line
      have hclean := h.clean
      rw [Editor.left, if_neg (by omega), List.dropLast_concat, List.getLast?_concat]
      refine ⟨?_, ?_, ?_, ?_⟩
      · change e.pos - 1 = before.length
        omega
      · change e.length = _
        simp at hlen ⊢
        omega
      · change e.line = _
        simpa using hline
      · simpa using hclean

theorem Stores.right (h : Stores e before after tail) :
    ∃ e', e.right = .ok e' ∧ e'.reading = e.reading ∧
      Stores e' (before ++ after.head?.toList) after.tail tail := by
  unfold Editor.right
  cases after with
  | nil =>
      rw [if_pos (h.atEnd.mpr rfl)]
      refine ⟨e, rfl, rfl, ?_⟩
      simpa using h
  | cons a after =>
      have hpos := h.pos
      have hline : e.line = before ++ a :: (after ++ tail) := h.line
      have hread := peek_append before a (after ++ tail)
      rw [← hline, ← hpos] at hread
      rw [if_neg (h.atEnd.not.mpr (List.cons_ne_nil a after)), hread]
      have hlen := h.length
      have hclean := h.clean
      refine ⟨_, rfl, rfl, ?_, ?_, ?_, ?_⟩
      · simp [hpos]
      · simp only [List.length_cons, List.head?_cons, Option.toList_some, List.length_append,
          List.tail_cons, List.length_nil] at hlen ⊢
        change e.length = _
        omega
      · change e.line = _
        simpa using hline
      · simpa using hclean

end

end SyssoftLabs.Lab4
