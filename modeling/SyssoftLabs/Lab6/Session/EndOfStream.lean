import Mathlib.Order.RelClasses
import SyssoftLabs.Framework.Loop
import SyssoftLabs.Lab6.Session.Lines

/-!
# A client that goes away

At the end of the stream `read` returns zero and leaves the last byte in place, which the loop over
a line stores once more. A session that no `//close` ends goes on until a call fails.
-/

namespace SyssoftLabs.Lab6

open SyssoftLabs.Framework

namespace Work

/-! ## The server on a closed stream -/

/-- A step on a stream that is closed behind these bytes. -/
def round (calls : Calls) : Work × List Char → Except Unit (Work × List Char ⊕ Work)
  | (w, input) =>
      match w.step calls input true with
      | none => .ok (.inr w)
      | some (v, rest, _) => .ok (.inl (v, rest))

/-- `do_work` returns. -/
def ReturnsOn (calls : Calls) (w : Work) (input : List Char) : Prop :=
  ∃ out v left, Runs calls true w input out v left ∧ v.pc = .returned

section

variable {calls : Calls} {w v : Work} {input rest left sent out : List Char}

private theorem step_closed (calls : Calls) (w : Work) (input : List Char) :
    w.step calls input true = none ↔ w.pc = .returned := by
  cases hpc : w.pc with
  | malloc => cases ha : calls.alloc w.allocs <;> simp [step, hpc, ha]
  | read => cases input <;> cases hr : calls.readFails w.reads <;> simp [step, hpc, hr]
  | line =>
      simp only [step, hpc]
      split <;> simp
  | opendir => cases hd : calls.opendir (cString w.buf) <;> simp [step, hpc, hd]
  | entries names => cases names <;> simp [step, hpc]
  | colon | entryName _ _ | entryEnd _ | refuse | free | clean | returned => simp [step, hpc]

private theorem round_next (h : w.step calls input true = some (v, rest, sent)) :
    round calls (w, input) = .ok (.inl (v, rest)) := by
  simp only [round, h]

private theorem round_inl {t : Work × List Char} (h : round calls (w, input) = .ok (.inl t)) :
    ∃ sent, w.step calls input true = some (t.1, t.2, sent) := by
  rw [round] at h
  split at h
  · cases h
  · next hstep =>
      cases h
      exact ⟨_, hstep⟩

private theorem ends_returned (hpc : w.pc = .returned) (input : List Char) :
    Ends (round calls) (w, input) := by
  refine ⟨1, ?_⟩
  simp only [roundAt, round, (step_closed calls w input).mpr hpc]

private theorem returnsOn_iff : ReturnsOn calls w input ↔ Ends (round calls) (w, input) := by
  constructor
  · rintro ⟨out, v, left, hruns, hpc⟩
    induction hruns with
    | refl => exact ends_returned hpc _
    | next first others ih => exact .of_next (round_next first) (ih hpc)
  · rintro ⟨n, hn⟩
    induction n generalizing w input with
    | zero => cases hn
    | succ n ih =>
        cases hstep : w.step calls input true with
        | none => exact ⟨[], w, input, .refl w input, (step_closed calls w input).mp hstep⟩
        | some next =>
            obtain ⟨v, rest, sent⟩ := next
            rw [roundAt_next (round_next hstep)] at hn
            obtain ⟨out, u, left, hruns, hpc⟩ := ih hn
            exact ⟨sent ++ out, u, left, .next hstep hruns, hpc⟩

theorem Runs.ends (h : Runs calls true w input out v left) (hw : Ends (round calls) (w, input)) :
    Ends (round calls) (v, left) := by
  induction h with
  | refl => exact hw
  | next first others ih => exact ih (hw.next (round_next first))

end

/-! ## A call that fails -/

/-- How far the server is from its next `read`; in the loop over a line, how much room there is. -/
def rank (w : Work) : Nat × Nat :=
  match w.pc with
  | .returned => (0, 0)
  | .clean => (1, 0)
  | .read => (2, w.buf.length - w.len)
  | .malloc => (3, 0)
  | .free => (4, 0)
  | .refuse => (5, 0)
  | .entries names => (6, 3 * names.length)
  | .entryEnd names => (6, 3 * names.length + 1)
  | .entryName _ names => (6, 3 * names.length + 2)
  | .opendir => (7, 0)
  | .colon => (8, 0)
  | .line => (9, 0)

/-- In the loop over a line its end has not been read, and there is room for a byte. -/
def Ready (w : Work) : Prop := w.pc = .read → w.c ≠ '\n' ∧ w.len < w.buf.length

section

variable {calls : Calls} {w v : Work} {input rest sent : List Char}

private theorem step_answer (hread : w.pc ≠ .read) (hmalloc : w.pc ≠ .malloc)
    (h : w.step calls input true = some (v, rest, sent)) :
    v.reads = w.reads ∧ v.allocs = w.allocs ∧ rest = input ∧ v.pc ≠ .read ∧
      Prod.Lex (· < ·) (· < ·) v.rank w.rank := by
  cases hw : w.pc with
  | read => exact absurd hw hread
  | malloc => exact absurd hw hmalloc
  | line | opendir =>
      simp only [step, hw] at h
      split at h <;> cases h <;> refine ⟨rfl, rfl, rfl, (fun hr => by cases hr), ?_⟩
      · simp only [rank, hw]
        exact .left _ _ (by decide)
      · simp only [rank, hw]
        exact .left _ _ (by decide)
  | entries names =>
      cases names with
      | nil =>
          simp only [step, hw] at h
          cases h
          refine ⟨rfl, rfl, rfl, (fun hr => by cases hr), ?_⟩
          simp only [rank, hw]
          exact .left _ _ (by decide)
      | cons name names =>
          simp only [step, hw] at h
          cases h
          refine ⟨rfl, rfl, rfl, (fun hr => by cases hr), ?_⟩
          simp only [rank, hw, List.length_cons]
          exact .right _ (by omega)
  | entryName name names | entryEnd names =>
      simp only [step, hw] at h
      cases h
      refine ⟨rfl, rfl, rfl, (fun hr => by cases hr), ?_⟩
      simp only [rank, hw]
      exact .right _ (by omega)
  | returned => simp [step, hw] at h
  | colon | refuse | free | clean =>
      simp only [step, hw] at h
      cases h
      refine ⟨rfl, rfl, rfl, (fun hr => by cases hr), ?_⟩
      simp only [rank, hw]
      exact .left _ _ (by decide)

private theorem step_other (hread : w.pc ≠ .read)
    (h : w.step calls input true = some (v, rest, sent)) :
    v.reads = w.reads ∧ rest = input ∧ Ready v ∧
      Prod.Lex (· < ·) (· < ·) v.rank w.rank ∧
      (v.allocs = w.allocs ∨ v.pc = .clean ∨
        v.allocs = w.allocs + 1 ∧ calls.alloc w.allocs ≠ none) := by
  by_cases hmalloc : w.pc = .malloc
  · have hrank : w.rank = (3, 0) := by simp only [rank, hmalloc]
    rw [hrank]
    cases ha : calls.alloc w.allocs with
    | none =>
        simp only [step, hmalloc, ha] at h
        cases h
        exact ⟨rfl, rfl, (fun hr => by cases hr), .left _ _ (by decide), .inr (.inl rfl)⟩
    | some memory =>
        simp only [step, hmalloc, ha] at h
        have hsize : 0 < ((List.range bufSize).map memory).length := by
          rw [List.length_map, List.length_range]
          decide
        have hready : nul ≠ '\n' := by decide
        generalize (List.range bufSize).map memory = buf at h hsize
        cases h
        exact ⟨rfl, rfl, fun _ => ⟨hready, hsize⟩, .left _ _ (by decide),
          .inr (.inr ⟨rfl, Option.some_ne_none _⟩)⟩
  · obtain ⟨hreads, hallocs, hrest, hpc, hlt⟩ := step_answer hread hmalloc h
    exact ⟨hreads, hrest, fun hr => absurd hr hpc, hlt, .inl hallocs⟩

private theorem step_store (hlen : w.len < w.buf.length) (c : Char) :
    (w.store calls c).pc = .clean ∨ (w.store calls c).reads = w.reads ∧ Ready (w.store calls c) ∧
      ((w.store calls c).allocs = w.allocs + 1 ∧ calls.alloc w.allocs ≠ none ∨
        (w.store calls c).allocs = w.allocs ∧ (c ≠ '\n' → w.pc = .read →
          Prod.Lex (· < ·) (· < ·) (w.store calls c).rank w.rank)) := by
  have hready : ∀ {u : Work}, u.pc = (if c = '\n' then .line else .read) → u.c = c →
      u.len < u.buf.length → Ready u := by
    intro u hpc huc hroom hread
    refine ⟨fun hnl => ?_, hroom⟩
    rw [hpc, if_pos (huc ▸ hnl)] at hread
    cases hread
  have hset : (w.buf.set w.len c).length = w.buf.length := List.length_set
  unfold store
  dsimp only
  split
  · next hfull =>
      cases ha : calls.alloc w.allocs with
      | none => exact .inl rfl
      | some memory =>
          refine .inr ⟨rfl, hready rfl rfl ?_, .inl ⟨rfl, Option.some_ne_none _⟩⟩
          show w.len + 1 < (_ ++ _ : List Char).length
          rw [List.length_append, List.length_map, List.length_range, hset]
          omega
  · next hroomy =>
      refine .inr ⟨rfl, hready rfl rfl ?_, .inr ⟨rfl, fun hc hpc => ?_⟩⟩
      · show w.len + 1 < (w.buf.set w.len c).length
        omega
      · simp only [rank, hpc, if_neg hc]
        refine .right _ ?_
        omega

theorem step_read (hpc : w.pc = .read) (hready : Ready w)
    (h : w.step calls input true = some (v, rest, sent)) :
    v.pc = .clean ∨ calls.readFails w.reads = false ∧ v.reads = w.reads + 1 ∧ Ready v ∧
      (v.allocs = w.allocs + 1 ∧ calls.alloc w.allocs ≠ none ∨ v.allocs = w.allocs ∧
        (rest.length < input.length ∨ rest = input ∧ Prod.Lex (· < ·) (· < ·) v.rank w.rank)) := by
  obtain ⟨hc, hlen⟩ := hready hpc
  simp only [step, hpc, if_true] at h
  split at h
  · cases h
    exact .inl rfl
  · next hread =>
      rw [Bool.not_eq_true] at hread
      cases input with
      | cons c input =>
          cases h
          rcases step_store (w := { w with reads := w.reads + 1 }) hlen c with hclean | ⟨hr, hs, ha⟩
          · exact .inl hclean
          · refine .inr ⟨hread, hr, hs, ha.imp id fun ha => ⟨ha.1, .inl ?_⟩⟩
            exact Nat.lt_succ_self _
      | nil =>
          cases h
          rcases step_store (w := { w with reads := w.reads + 1 }) hlen w.c with
            hclean | ⟨hr, hs, ha⟩
          · exact .inl hclean
          · exact .inr ⟨hread, hr, hs, ha.imp id fun ha => ⟨ha.1, .inr ⟨rfl, ha.2 hc hpc⟩⟩⟩

private theorem ends_clean (hpc : w.pc = .clean) (input : List Char) :
    Ends (round calls) (w, input) := by
  have hstep : w.step calls input true =
      some ({ w with pc := .returned }, input, serverError ++ [nul]) := by
    simp only [step, hpc]
  exact .of_next (round_next hstep) (ends_returned rfl input)

private theorem ends_of_alloc {n : Nat} (hn : calls.alloc n = none) (hready : Ready w)
    (hallocs : w.allocs ≤ n) (input : List Char) : Ends (round calls) (w, input) := by
  have hwf : WellFounded (Prod.Lex (· < ·) (Prod.Lex (· < ·) (Prod.Lex (· < ·) (· < ·))) :
      Nat × Nat × Nat × Nat → _ → Prop) :=
    Nat.lt_wfRel.wf.prod_lex (Nat.lt_wfRel.wf.prod_lex
      (Nat.lt_wfRel.wf.prod_lex Nat.lt_wfRel.wf))
  refine ends_of_decreasing hwf (fun s => (n - s.1.allocs, s.2.length, s.1.rank))
    (fun s => Ready s.1 ∧ s.1.allocs ≤ n) ?_ ⟨hready, hallocs⟩
  rintro ⟨w, input⟩ ⟨v, rest⟩ ⟨hready, hallocs⟩ hround
  replace hallocs : w.allocs ≤ n := hallocs
  obtain ⟨sent, hstep⟩ : ∃ sent, w.step calls input true = some (v, rest, sent) := round_inl hround
  have hgrow : v.allocs = w.allocs + 1 → calls.alloc w.allocs ≠ none →
      v.allocs ≤ n ∧ n - v.allocs < n - w.allocs := by
    intro hv ha
    have hne : w.allocs ≠ n := fun hw => ha (hw ▸ hn)
    omega
  by_cases hpc : w.pc = .read
  · rcases step_read hpc hready hstep with hclean | ⟨-, -, hv, ⟨hva, ha⟩ | ⟨hva, hrest⟩⟩
    · exact .inl (ends_clean hclean rest)
    · obtain ⟨hle, hlt⟩ := hgrow hva ha
      exact .inr ⟨⟨hv, hle⟩, .left _ _ hlt⟩
    · refine .inr ⟨⟨hv, hva.trans_le hallocs⟩, ?_⟩
      show Prod.Lex _ _ (n - v.allocs, rest.length, v.rank) (n - w.allocs, input.length, w.rank)
      rw [hva]
      rcases hrest with hlt | ⟨rfl, hlt⟩
      · exact .right _ (.left _ _ hlt)
      · exact .right _ (.right _ hlt)
  · obtain ⟨-, rfl, hv, hlt, hva | hclean | ⟨hva, ha⟩⟩ := step_other hpc hstep
    · refine .inr ⟨⟨hv, hva.trans_le hallocs⟩, ?_⟩
      show Prod.Lex _ _ (n - v.allocs, rest.length, v.rank) (n - w.allocs, rest.length, w.rank)
      rw [hva]
      exact .right _ (.right _ hlt)
    · exact .inl (ends_clean hclean rest)
    · obtain ⟨hle, hlt⟩ := hgrow hva ha
      exact .inr ⟨⟨hv, hle⟩, .left _ _ hlt⟩

private theorem ends_of_read {n : Nat} (hn : calls.readFails n = true) (hready : Ready w)
    (hreads : w.reads ≤ n) (input : List Char) : Ends (round calls) (w, input) := by
  have hwf : WellFounded (Prod.Lex (· < ·) (Prod.Lex (· < ·) (· < ·)) :
      Nat × Nat × Nat → _ → Prop) :=
    Nat.lt_wfRel.wf.prod_lex (Nat.lt_wfRel.wf.prod_lex Nat.lt_wfRel.wf)
  refine ends_of_decreasing hwf (fun s => (n - s.1.reads, s.1.rank))
    (fun s => Ready s.1 ∧ s.1.reads ≤ n) ?_ ⟨hready, hreads⟩
  rintro ⟨w, input⟩ ⟨v, rest⟩ ⟨hready, hreads⟩ hround
  replace hreads : w.reads ≤ n := hreads
  obtain ⟨sent, hstep⟩ : ∃ sent, w.step calls input true = some (v, rest, sent) := round_inl hround
  by_cases hpc : w.pc = .read
  · rcases step_read hpc hready hstep with hclean | ⟨hread, hvr, hv, -⟩
    · exact .inl (ends_clean hclean rest)
    · have hne : w.reads ≠ n := by
        rintro rfl
        rw [hn] at hread
        cases hread
      have hlt : v.reads ≤ n ∧ n - v.reads < n - w.reads := by omega
      exact .inr ⟨⟨hv, hlt.1⟩, .left _ _ hlt.2⟩
  · obtain ⟨hvr, -, hv, hlt, -⟩ := step_other hpc hstep
    refine .inr ⟨⟨hv, hvr.trans_le hreads⟩, ?_⟩
    show Prod.Lex _ _ (n - v.reads, v.rank) (n - w.reads, w.rank)
    rw [hvr]
    exact .right _ hlt

end

/-! ## No call that fails -/

/-- Some line is `//close` and read into memory with a NUL behind its eight bytes, where the server
allocates `a` next. -/
def SomeCloses (calls : Calls) : Nat → List Line → Prop
  | _, [] => False
  | a, line :: lines => Closes calls a line ∨ SomeCloses calls (nextAlloc a line) lines

section

variable {calls : Calls} {w : Work} {a : Nat} {s : List Char}

private theorem serve_someCloses (calls : Calls) (a : Nat) (lines : List Line) :
    (serve calls a lines).2.1 = true ↔ SomeCloses calls a lines := by
  induction lines generalizing a with
  | nil => simp [serve, SomeCloses]
  | cons line lines ih =>
      rw [serve, SomeCloses]
      by_cases hclose : Closes calls a line
      · simp [hclose]
      · rw [if_neg hclose]
        simp only [hclose, false_or]
        exact ih (nextAlloc a line)

private theorem Holds.not_ends (h : Holds calls a w s) (hpc : w.pc = .read) (hc : w.c ≠ '\n')
    (halloc : ∀ n, calls.alloc n ≠ none) (hread : ∀ n, calls.readFails n = false) :
    ¬ Ends (round calls) (w, []) := by
  refine not_ends_of_invariant
    (fun t => t.2 = [] ∧ t.1.pc = .read ∧ t.1.c ≠ '\n' ∧ ∃ s, Holds calls a t.1 s) ?_
    ⟨rfl, hpc, hc, s, h⟩
  rintro ⟨w, input⟩ ⟨rfl, hpc, hc, s, h⟩
  obtain ⟨v, hstep, hv, hvpc, hvc⟩ :=
    h.step_read hpc w.c true (.inr ⟨rfl, rfl, rfl, rfl⟩) halloc hread
  rw [if_neg hc] at hvpc
  exact ⟨(v, []), round_next hstep, rfl, hvpc, hvc ▸ hc, _, hv⟩

private theorem not_ends_malloc (hpc : w.pc = .malloc) {rest : List Char} (hrest : '\n' ∉ rest)
    (halloc : ∀ n, calls.alloc n ≠ none) (hread : ∀ n, calls.readFails n = false) :
    ¬ Ends (round calls) (w, rest) := by
  obtain ⟨memory, hmemory⟩ := Option.ne_none_iff_exists'.mp (halloc w.allocs)
  obtain ⟨v, hstep, hv, hvpc, hvc⟩ := step_malloc hpc hmemory rest true
  obtain ⟨u, hruns, hu, hupc, huc⟩ := hv.runs_read hvpc hrest true [] halloc hread
  rw [List.append_nil] at hruns
  have hlast : u.c ≠ '\n' := by
    rw [huc, hvc, List.getLastD_eq_getLast?]
    cases hl : rest.getLast? with
    | none => decide
    | some c => exact ne_of_mem_of_not_mem (List.mem_of_getLast? hl) hrest
  exact fun hw => hu.not_ends hupc hlast halloc hread (hruns.ends (hw.next (round_next hstep)))

end

/-- The session of a client that goes away ends exactly when a call of the server fails or one of
the lines is `//close` and passes its test. -/
theorem work_returns_iff (calls : Calls) (input : List Char) :
    ReturnsOn calls .start input ↔ (∃ n, calls.alloc n = none) ∨
      (∃ n, calls.readFails n = true) ∨ SomeCloses calls 0 (splitLines input).1 := by
  have hready : Ready .start := fun hr => by cases hr
  rw [returnsOn_iff]
  by_cases halloc : ∃ n, calls.alloc n = none
  · obtain ⟨n, hn⟩ := halloc
    exact iff_of_true (ends_of_alloc hn hready (Nat.zero_le n) input) (.inl ⟨n, hn⟩)
  by_cases hread : ∃ n, calls.readFails n = true
  · obtain ⟨n, hn⟩ := hread
    exact iff_of_true (ends_of_read hn hready (Nat.zero_le n) input) (.inr (.inl ⟨n, hn⟩))
  simp only [halloc, hread, false_or]
  rw [not_exists] at halloc
  replace hread : ∀ n, calls.readFails n = false := by simpa using hread
  obtain ⟨hsplit, hrest⟩ := splitLines_stream input
  obtain ⟨v, hruns, hend⟩ :=
    runs_lines calls true halloc hread (splitLines input).1 (w := .start) rfl (splitLines input).2
  rw [hsplit] at hruns
  rw [← serve_someCloses]
  cases hserved : (serve calls 0 (splitLines input).1).2.1 with
  | true =>
      have hpc : v.pc = .returned := by simpa [hserved, Work.start] using hend
      exact iff_of_true (returnsOn_iff.mp ⟨_, v, _, hruns, hpc⟩) rfl
  | false =>
      obtain ⟨hpc, hleft⟩ : v.pc = .malloc ∧ (serve calls 0 (splitLines input).1).2.2 = [] := by
        simpa [hserved, Work.start] using hend
      refine iff_of_false (fun hw => ?_) Bool.false_ne_true
      have hv := hruns.ends hw
      rw [show (serve calls Work.start.allocs (splitLines input).1).2.2 = [] from hleft] at hv
      exact not_ends_malloc hpc hrest halloc hread hv

/-- A client that sends nothing and goes away. -/
theorem work_returns_fails : ¬ ∀ (calls : Calls) (input : List Char),
    ReturnsOn calls .start input := by
  intro h
  have hends := returnsOn_iff.mp (h (.zeroed fun _ => none) [])
  exact not_ends_malloc rfl List.not_mem_nil (fun _ => Option.some_ne_none _) (fun _ => rfl) hends

end Work

end SyssoftLabs.Lab6
