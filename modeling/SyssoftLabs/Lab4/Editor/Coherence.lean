import SyssoftLabs.Framework.Transition
import SyssoftLabs.Lab4.Editor.Buffer
import SyssoftLabs.Lab4.Editor.Completion
import SyssoftLabs.Lab4.Editor.Cursor

/-!
# What a completion leaves behind

A completion that makes the line shorter leaves bytes of the old line behind the terminator. The
next symbol at the end of the line takes the place of the terminator, and the old bytes are part of
the line again.
-/

namespace SyssoftLabs.Lab4

open SyssoftLabs.Framework

/-- The cursor is in the line, and the string in the buffer is as long as the editor takes it to
be. -/
structure Coherent (e : Editor) : Prop where
  pos : e.pos ≤ e.length
  string : (stringAt e.line 0).map List.length = .ok e.length

instance (e : Editor) : Decidable (Coherent e) :=
  decidable_of_iff (e.pos ≤ e.length ∧ (stringAt e.line 0).map List.length = .ok e.length)
    ⟨fun h => ⟨h.1, h.2⟩, fun h => ⟨h.pos, h.string⟩⟩

/-- At the top of the loop no NUL is typed, and a symbol at the end of the line finds another NUL
behind the one it takes the place of. -/
def Covered (e : Editor) (c : Char) : Prop :=
  e.reading = .key → c ≠ nul ∧
    (c ∉ controls → e.pos = e.length → e.line[e.length + 1]? = some nul)

section

variable {e e' : Editor} {before after : CStr} {tail rest : List Char} {c : Char}
  {complete : CStr → Nat → Except Stuck CStr}

/-! ## Strings and texts -/

private theorem stringAt_length (hs : nul ∉ before ++ after) (rest : List Char) :
    stringAt (before ++ (after ++ nul :: rest)) 0 = .ok (before ++ after) := by
  have h := stringAt_append hs [] rest
  rwa [List.nil_append, List.append_assoc] at h

private theorem Stores.coherent (h : Stores e before after (nul :: rest)) : Coherent e where
  pos := by
    rw [h.pos, h.length]
    exact Nat.le_add_right _ _
  string := by
    rw [h.line, stringAt_length h.clean, h.length, ← List.length_append]
    rfl

theorem Coherent.stores (h : Coherent e) :
    ∃ before after rest, Stores e before after (nul :: rest) := by
  cases hs : stringAt e.line 0 with
  | error stuck =>
      have hstring := h.string
      rw [hs] at hstring
      cases hstring
  | ok s =>
      have hlen : s.length = e.length := by
        have hstring := h.string
        rw [hs] at hstring
        exact Except.ok.inj hstring
      obtain ⟨hclean, rest, hline⟩ := exists_of_stringAt hs
      have hpos : (s.take e.pos).length = e.pos := by
        rw [List.length_take, hlen, Nat.min_eq_left h.pos]
      refine ⟨s.take e.pos, s.drop e.pos, rest, hpos.symm, ?_, ?_, ?_⟩
      · rw [← List.length_append, List.take_append_drop, hlen]
      · rw [← List.append_assoc, List.take_append_drop, ← hline, List.drop_zero]
      · rwa [List.take_append_drop]

theorem Coherent.split {s : CStr} (h : Coherent e) (hline : e.line = s ++ tail)
    (hlen : s.length = e.length) : nul ∉ s ∧ tail.head? = some nul := by
  obtain ⟨before, after, rest, hstores⟩ := h.stores
  have heq : s ++ tail = (before ++ after) ++ nul :: rest := by
    rw [← hline, hstores.line, List.append_assoc]
  obtain ⟨rfl, rfl⟩ := List.append_inj heq (by rw [hlen, hstores.length, List.length_append])
  exact ⟨hstores.clean, rfl⟩

/-! ## What a byte does -/

private theorem Stores.again_sequence (h : Stores e before after tail) (hreading : e.reading ≠ .key)
    (hagain : e.again complete c = some e') :
    ∃ before after, Stores e' before after tail := by
  unfold Editor.again Editor.step at hagain
  cases hr : e.reading with
  | key => exact absurd hr hreading
  | escape =>
      simp only [hr] at hagain
      cases hagain
      exact ⟨before, after, h.congr rfl rfl rfl⟩
  | bracket =>
      have hkey : Stores { e with reading := .key } before after tail := h.congr rfl rfl rfl
      simp only [hr] at hagain
      by_cases hright : c = 'C'
      · obtain ⟨f, hf, -, hstores⟩ := hkey.right
        rw [if_pos hright, hf] at hagain
        cases hagain
        exact ⟨_, _, hstores⟩
      by_cases hleft : c = 'D'
      · rw [if_neg hright, if_pos hleft] at hagain
        cases hagain
        exact ⟨_, _, hkey.left⟩
      · rw [if_neg hright, if_neg hleft] at hagain
        cases hagain
        exact ⟨_, _, hkey⟩

private theorem Editor.again_of_map {x : Except Stuck Editor} (h : e.step complete c = x.map .again)
    (hagain : e.again complete c = some e') : x = .ok e' := by
  rw [Editor.again, h] at hagain
  cases x with
  | error stuck => cases hagain
  | ok f =>
      cases hagain
      rfl

private theorem Editor.again_key (hreading : e.reading = .key)
    (hagain : e.again complete c = some e') :
    (c = rubout ∧ { e with completion := false }.backspace = .ok e') ∨
      (e'.pos = e.pos ∧ e'.length = e.length ∧ e'.line = e.line ∧ c ∈ controls ∧ c ≠ nul) ∨
      (c = '\t' ∧ e.tab complete = .ok e') ∨
      (c = nul ∨ c ∉ controls) ∧ { e with completion := false }.insert c = .ok e' := by
  by_cases hsymbol : c ∉ controls.tail
  · refine .inr (.inr (.inr ⟨?_, again_of_map (step_symbol complete hreading hsymbol) hagain⟩))
    refine (Classical.em (c = nul)).imp_right fun hnul hc => hsymbol ?_
    exact (List.mem_cons.mp hc).resolve_left hnul
  have hc : c ∈ [interrupt, endOfInput, '\t', '\n', escape, rubout] := not_not.mp hsymbol
  simp only [List.mem_cons, List.not_mem_nil, or_false] at hc
  rcases hc with rfl | rfl | rfl | rfl | rfl | rfl
  · have hstep : e.step complete interrupt =
        .ok (.again ({ e with completion := false }.say ['^', 'C'])) := by
      rw [Editor.step, hreading]
      rfl
    rw [Editor.again, hstep] at hagain
    cases hagain
    exact .inr (.inl ⟨rfl, rfl, rfl, by decide, by decide⟩)
  · have hstep : e.step complete endOfInput = .ok .exit := by
      rw [Editor.step, hreading]
      rfl
    rw [Editor.again, hstep] at hagain
    cases hagain
  · have hstep : e.step complete '\t' = (e.tab complete).map .again := by
      rw [Editor.step, hreading]
      rfl
    exact .inr (.inr (.inl ⟨rfl, again_of_map hstep hagain⟩))
  · rw [Editor.again, step_return complete hreading] at hagain
    cases henter : { e with completion := false }.enter <;> rw [henter] at hagain <;> cases hagain
  · rw [Editor.again, step_escape complete hreading] at hagain
    cases hagain
    exact .inr (.inl ⟨rfl, rfl, rfl, by decide, by decide⟩)
  · exact .inl ⟨rfl, again_of_map (step_rubout complete hreading) hagain⟩

theorem Stores.tab (h : Stores e before after (nul :: rest))
    (hclean : ∀ pre n s, complete pre n = .ok s → nul ∉ pre → nul ∉ s)
    (htab : e.tab complete = .ok e') :
    ∃ before after rest, Stores e' before after (nul :: rest) := by
  have hbefore : nul ∉ before := fun hmem => h.clean (List.mem_append_left _ hmem)
  have hpre : cString (e.line.take e.pos) = before := by
    rw [h.line, h.pos, List.take_left, cString_of_notMem hbefore]
  have hpost : stringAt e.line e.pos = .ok after := by
    rw [h.line, h.pos]
    exact stringAt_append h.clean_after before rest
  unfold Editor.tab at htab
  dsimp only at htab
  rw [hpre, hpost, bind_of_ok rfl] at htab
  split at htab
  · cases htab
  cases hcomplete : complete before e.compPos with
  | error stuck =>
      rw [hcomplete, bind_of_error rfl] at htab
      cases htab
  | ok s =>
      rw [hcomplete, bind_of_ok rfl] at htab
      split at htab
      · cases htab
      · cases htab
        refine ⟨s, after, e.line.drop ((s ++ after).length + 1), rfl, List.length_append, ?_, ?_⟩
        · exact List.append_assoc _ _ _
        · rw [List.mem_append, not_or]
          exact ⟨hclean _ _ _ hcomplete hbefore, h.clean_after⟩

private theorem Stores.insert_coherent (h : Stores e before after (nul :: rest))
    (hinsert : e.insert c = .ok e') :
    Coherent e' ↔ c ≠ nul ∧ (after = [] → rest.head? = some nul) := by
  by_cases hafter : after = []
  · subst hafter
    obtain ⟨f, hf, -, hpos, hlength, hline⟩ := h.insert_atEnd c
    rw [hf] at hinsert
    cases hinsert
    constructor
    · intro he
      have hsplit : e'.line = (before ++ [c]) ++ rest := by simp [hline]
      obtain ⟨hnul, hhead⟩ := he.split hsplit (by simp [hlength, h.length])
      exact ⟨fun hc => hnul (by simp [hc]), fun _ => hhead⟩
    · rintro ⟨hc, hhead⟩
      obtain ⟨rest, rfl⟩ : ∃ more, rest = nul :: more := List.head?_eq_some_iff.mp (hhead rfl)
      obtain ⟨g, hg, -, hstores⟩ := h.append hc
      rw [hf] at hg
      cases hg
      exact hstores.coherent
  · simp only [hafter, false_implies, and_true]
    cases rest with
    | nil =>
        rw [h.insert_stuck hafter] at hinsert
        cases hinsert
    | cons x rest =>
        obtain ⟨f, hf, -, hpos, hlength, hline⟩ := h.insert_inside hafter c
        rw [hf] at hinsert
        cases hinsert
        constructor
        · rintro he rfl
          have hsplit : e'.line = (before ++ nul :: after) ++ nul :: rest := by simp [hline]
          have hlen : (before ++ nul :: after).length = e'.length := by
            rw [hlength, h.length, List.length_append, List.length_cons]
            omega
          exact (he.split hsplit hlen).1 (by simp)
        · intro hc
          obtain ⟨g, hg, -, hstores⟩ := h.insert hafter hc
          rw [hf] at hg
          cases hg
          exact hstores.coherent

/-! ## Runs -/

private theorem Coherent.again_iff (h : Coherent e)
    (hclean : ∀ pre n s, complete pre n = .ok s → nul ∉ pre → nul ∉ s)
    (hagain : e.again complete c = some e') : Coherent e' ↔ Covered e c := by
  obtain ⟨before, after, rest, hstores⟩ := h.stores
  by_cases hreading : e.reading = .key
  · rcases Editor.again_key hreading hagain with ⟨rfl, hback⟩ | ⟨hpos, hlength, hline, hc, hnul⟩ |
      ⟨rfl, htab⟩ | ⟨hc, hinsert⟩
    · have hfree : Stores { e with completion := false } before after (nul :: rest) :=
        hstores.congr rfl rfl rfl
      obtain ⟨f, hf, -, hnext⟩ := hfree.backspace fun _ _ => ⟨rest, rfl⟩
      rw [hf] at hback
      cases hback
      refine iff_of_true ?_ fun _ => ⟨by decide, fun h => absurd (by decide) h⟩
      split at hnext <;> exact hnext.coherent
    · exact iff_of_true (hstores.congr hpos hlength hline).coherent
        fun _ => ⟨hnul, fun h => absurd hc h⟩
    · obtain ⟨_, _, _, hnext⟩ := hstores.tab hclean htab
      exact iff_of_true hnext.coherent fun _ => ⟨by decide, fun h => absurd (by decide) h⟩
    · have hfree : Stores { e with completion := false } before after (nul :: rest) :=
        hstores.congr rfl rfl rfl
      have hbehind : e.line[e.length + 1]? = rest.head? := by
        rw [hstores.line, hstores.length, ← List.append_assoc, ← List.length_append,
          List.getElem?_append_right (Nat.le_add_right _ _), Nat.add_sub_cancel_left]
        cases rest <;> rfl
      rw [hfree.insert_coherent hinsert, Covered, hbehind, hstores.atEnd]
      constructor
      · exact fun hi _ => ⟨hi.1, fun _ => hi.2⟩
      · intro hi
        exact ⟨(hi hreading).1, (hi hreading).2 (hc.resolve_left (hi hreading).1)⟩
  · obtain ⟨_, _, hnext⟩ := hstores.again_sequence hreading hagain
    exact iff_of_true hnext.coherent fun hr => absurd hr hreading

private theorem Coherent.again_sequence (h : Coherent e)
    (hclean : ∀ pre n s, complete pre n = .ok s → nul ∉ pre → nul ∉ s)
    (hagain : e.again complete c = some e') (hreading : e'.reading ≠ .key) : Coherent e' := by
  rw [h.again_iff hclean hagain]
  intro hkey
  rcases Editor.again_key hkey hagain with ⟨rfl, -⟩ | ⟨-, -, -, hc, hnul⟩ | ⟨rfl, -⟩ | ⟨-, hinsert⟩
  · exact ⟨by decide, fun hc => absurd (by decide) hc⟩
  · exact ⟨hnul, fun h => absurd hc h⟩
  · exact ⟨by decide, fun hc => absurd (by decide) hc⟩
  · exact absurd ((Editor.insert_cases hinsert).1.trans hkey) hreading

theorem Coherent.start (prompt : CStr) (completion : Bool) (compPos : Nat) :
    Coherent (Editor.start prompt completion compPos) := by
  have hstores := (Shows.start prompt completion compPos).fills.stores
  rw [zeros_eq_cons (by decide)] at hstores
  exact hstores.coherent

end

/-- Wherever the loop waits for a key, the editor is coherent, exactly in the runs whose keys are
all covered. -/
theorem coherent_iff_covered (mem : Arena nul) (found : Nat → Listing) (prompt : CStr)
    (completed : Bool) (compPos : Nat) (input : List Char) (e : Editor)
    (hrun : run (Editor.again (completion mem found)) (Editor.start prompt completed compPos)
      input = some e) :
    Throughout (Editor.again (completion mem found)) (fun e => e.reading = .key → Coherent e)
        (Editor.start prompt completed compPos) input ↔
      Guarded (Editor.again (completion mem found)) Covered (Editor.start prompt completed compPos)
        input := by
  have hclean : ∀ pre n s, completion mem found pre n = .ok s → nul ∉ pre → nul ∉ s :=
    fun _ _ _ h => complete_clean h
  have hstart := Coherent.start prompt completed compPos
  rw [← throughout_iff_guarded (I := Coherent) (J := fun _ => True) (fun _ _ _ _ _ => trivial)
    (fun _ _ _ _ h => h.again_iff hclean) hrun trivial hstart]
  constructor
  · intro h
    refine h.strengthen (fun s c t hs hstep ht => ?_) hstart
    by_cases hreading : t.reading = .key
    · exact ht hreading
    · exact hs.again_sequence hclean hstep hreading
  · exact fun h => h.imp (J := fun e => e.reading = .key → Coherent e) fun _ hs _ => hs

/-- The directory `/` holds the file `b`. -/
def oneEntry : Listing :=
  let names : List FileName :=
    [⟨['.'], by decide⟩, ⟨['.', '.'], by decide⟩, ⟨['b'], by decide⟩]
  ⟨fun _ => some names, fun _ => some names⟩

theorem coherent_iff_covered_oneEntry :
    Throughout (Editor.again (completion lengthBehind fun _ => oneEntry))
        (fun e => e.reading = .key → Coherent e) (Editor.start ['%', ' '] false 0)
        ['x', ' ', '/', '\t', rubout] ↔
      Guarded (Editor.again (completion lengthBehind fun _ => oneEntry)) Covered
        (Editor.start ['%', ' '] false 0) ['x', ' ', '/', '\t', rubout] := by
  obtain ⟨e, he⟩ := Option.isSome_iff_exists.mp
    (show (run (Editor.again (completion lengthBehind fun _ => oneEntry))
      (Editor.start ['%', ' '] false 0) ['x', ' ', '/', '\t', rubout]).isSome from by
        decide +kernel)
  exact coherent_iff_covered lengthBehind (fun _ => oneEntry) ['%', ' '] false 0 _ e he

/-- A completion shortens the line by two bytes, and the next symbol brings one of them back. -/
theorem coherent_fails :
    ¬ ∀ (mem : Arena nul) (found : Nat → Listing) (prompt : CStr) (completed : Bool)
      (compPos : Nat) (input : List Char),
      Throughout (Editor.again (completion mem found)) (fun e => e.reading = .key → Coherent e)
        (Editor.start prompt completed compPos) input := by
  intro h
  exact absurd (h lengthBehind (fun _ => oneEntry) ['%', ' '] false 0
    ['x', ' ', '/', 'a', 'b', 'c', '\t', 'd']) (by decide +kernel)

end SyssoftLabs.Lab4
