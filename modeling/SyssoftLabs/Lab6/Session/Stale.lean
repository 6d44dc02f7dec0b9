import SyssoftLabs.Lab6.Session.Lines

/-!
# What a session makes of stale memory

The server compares a line with `//close` before it has put an end to it. The byte behind the line
is whatever the memory held, so that two servers may part at a line they both have to stop at.
-/

namespace SyssoftLabs.Lab6

open SyssoftLabs.Framework Work

/-- No call fails, and fresh memory holds these bytes. -/
def Calls.filled (memory : Nat → Nat → Char)
    (opendir : List Char → Option (List (List Char))) : Calls :=
  ⟨fun n => some (memory n), fun _ => false, opendir⟩

/-- What the server writes for the lines until it waits or returns, whether it returns, and what it
has not read. -/
def Outcome (calls : Calls) (lines : List Line) (out : List Char) (ended : Bool)
    (left : List Char) : Prop :=
  ∃ v, Runs calls false .start (stream lines) out v left ∧ v.step calls left false = none ∧
    ended = decide (v.pc = .returned)

/-- The session ends at the first `//close`. -/
def EndsAtClose (calls : Calls) (lines : List Line) : Prop :=
  ∀ out ended left, Outcome calls lines out ended left →
    (ended = true ↔ ∃ line ∈ lines, line.IsClose) ∧
      (ended = true → left = stream (lines.dropWhile fun line => !decide line.IsClose).tail)

/-- Two sessions on the same lines, with fresh memory of different contents. -/
structure Agree (memory memory' : Nat → Nat → Char)
    (opendir : List Char → Option (List (List Char))) (lines : List Line) : Prop where
  same : ∀ out ended left, Outcome (.filled memory opendir) lines out ended left ↔
    Outcome (.filled memory' opendir) lines out ended left
  ends : EndsAtClose (.filled memory opendir) lines
  ends' : EndsAtClose (.filled memory' opendir) lines

/-- The first `//close` is read into memory with a NUL behind its eight bytes, where the server
allocates `a` next. -/
def NulBehindClose (memory : Nat → Nat → Char) : Nat → List Line → Prop
  | _, [] => True
  | a, line :: lines =>
      if line.IsClose then memory a closeLine.length = nul
      else NulBehindClose memory (nextAlloc a line) lines

section

variable {calls : Calls} {memory memory' : Nat → Nat → Char}
  {opendir : List Char → Option (List (List Char))} {lines : List Line} {line : Line} {a : Nat}

private theorem outcome_iff (halloc : ∀ n, calls.alloc n ≠ none)
    (hread : ∀ n, calls.readFails n = false) {out left : List Char} {ended : Bool} :
    Outcome calls lines out ended left ↔
      out = (serve calls 0 lines).1 ∧ ended = (serve calls 0 lines).2.1 ∧
        left = stream (serve calls 0 lines).2.2 := by
  obtain ⟨v, hruns, hend⟩ := runs_lines calls false halloc hread lines (w := .start) rfl []
  rw [List.append_nil, List.append_nil] at hruns
  change Runs calls false .start (stream lines) (serve calls 0 lines).1 v _ at hruns
  have hstop : ∃ u, Runs calls false .start (stream lines) (serve calls 0 lines).1 u
      (stream (serve calls 0 lines).2.2) ∧
      u.step calls (stream (serve calls 0 lines).2.2) false = none ∧
      (serve calls 0 lines).2.1 = decide (u.pc = .returned) := by
    cases hserved : (serve calls 0 lines).2.1 with
    | true =>
        have hpc : v.pc = .returned := by
          simpa [hserved, Work.start] using hend
        exact ⟨v, hruns, by simp only [Work.step, hpc], by rw [hpc]; rfl⟩
    | false =>
        obtain ⟨hpc, hleft⟩ : v.pc = .malloc ∧ (serve calls 0 lines).2.2 = [] := by
          simpa [hserved, Work.start] using hend
        obtain ⟨bytes, hbytes⟩ := Option.ne_none_iff_exists'.mp (halloc v.allocs)
        obtain ⟨u, hu, -, hupc, -⟩ := step_malloc hpc hbytes
          (stream (serve calls 0 lines).2.2) false
        refine ⟨u, ?_, ?_, ?_⟩
        · have hall := hruns.trans (Runs.single hu)
          rwa [List.append_nil] at hall
        · rw [hleft]
          simp [Work.step, hupc, hread, stream]
        · rw [hupc]
          rfl
  obtain ⟨u, huruns, hustop, huend⟩ := hstop
  constructor
  · rintro ⟨x, hx, hxstop, rfl⟩
    obtain ⟨rfl, rfl, rfl⟩ := huruns.unique hustop hx hxstop
    exact ⟨rfl, huend.symm, rfl⟩
  · rintro ⟨rfl, rfl, rfl⟩
    exact ⟨u, huruns, hustop, huend⟩

private theorem closes_filled : Closes (.filled memory opendir) a line ↔
    line.IsClose ∧ memory a closeLine.length = nul := by
  simp [Closes, Calls.filled]

private theorem serve_of_nulBehindClose (opendir : List Char → Option (List (List Char)))
    (h : NulBehindClose memory a lines) :
    ((serve (.filled memory opendir) a lines).2.1 = true ↔ ∃ line ∈ lines, line.IsClose) ∧
      ((serve (.filled memory opendir) a lines).2.1 = true →
        (serve (.filled memory opendir) a lines).2.2 =
          (lines.dropWhile fun line => !decide line.IsClose).tail) := by
  induction lines generalizing a with
  | nil => simp [serve]
  | cons line lines ih =>
      rw [NulBehindClose] at h
      by_cases hclose : line.IsClose
      · rw [if_pos hclose] at h
        rw [serve, if_pos (closes_filled.mpr ⟨hclose, h⟩)]
        simp [hclose]
      · rw [if_neg hclose] at h
        rw [serve, if_neg fun hc => hclose hc.1]
        simpa [hclose] using ih h

private theorem serve_same (h : NulBehindClose memory a lines)
    (h' : NulBehindClose memory' a lines) :
    serve (.filled memory opendir) a lines = serve (.filled memory' opendir) a lines := by
  induction lines generalizing a with
  | nil => rfl
  | cons line lines ih =>
      rw [NulBehindClose] at h h'
      by_cases hclose : line.IsClose
      · rw [if_pos hclose] at h h'
        rw [serve, if_pos (closes_filled.mpr ⟨hclose, h⟩), serve,
          if_pos (closes_filled.mpr ⟨hclose, h'⟩)]
      · rw [if_neg hclose] at h h'
        rw [serve, if_neg fun hc => hclose hc.1, serve, if_neg fun hc => hclose hc.1, ih h h']
        rfl

private theorem stream_left_lt (h : (serve calls a lines).2.1 = true) :
    (stream (serve calls a lines).2.2).length < (stream lines).length := by
  induction lines generalizing a with
  | nil => cases h
  | cons line lines ih =>
      have hlonger : (stream lines).length < (stream (line :: lines)).length := by
        simp [stream]
        omega
      rw [serve] at h ⊢
      by_cases hclose : Closes calls a line
      · rw [if_pos hclose]
        exact hlonger
      · rw [if_neg hclose] at h ⊢
        exact Nat.lt_trans (ih h) hlonger

private theorem nulBehindClose_of_serve
    (hended : (∃ line ∈ lines, line.IsClose) → (serve (.filled memory opendir) a lines).2.1 = true)
    (hleft : (serve (.filled memory opendir) a lines).2.1 = true →
      stream (serve (.filled memory opendir) a lines).2.2 =
        stream (lines.dropWhile fun line => !decide line.IsClose).tail) :
    NulBehindClose memory a lines := by
  induction lines generalizing a with
  | nil => trivial
  | cons line lines ih =>
      rw [NulBehindClose]
      rw [serve] at hended hleft
      by_cases hclose : line.IsClose
      · rw [if_pos hclose]
        by_contra hnul
        have hopen : ¬ Closes (.filled memory opendir) a line := fun h =>
          hnul (closes_filled.mp h).2
        rw [if_neg hopen] at hended hleft
        have hend := hended ⟨line, List.mem_cons_self, hclose⟩
        have hlt := stream_left_lt hend
        rw [hleft hend] at hlt
        simp [hclose] at hlt
      · rw [if_neg hclose]
        rw [if_neg fun hc => hclose hc.1] at hended hleft
        apply ih
        · rintro ⟨l, hl, hlclose⟩
          exact hended ⟨l, List.mem_cons_of_mem line hl, hlclose⟩
        · intro hend
          have hstream := hleft hend
          simpa [hclose] using hstream

private theorem filled_alloc (n : Nat) : (Calls.filled memory opendir).alloc n ≠ none :=
  Option.some_ne_none _

private theorem endsAtClose_iff :
    EndsAtClose (.filled memory opendir) lines ↔ NulBehindClose memory 0 lines := by
  have houtcome : ∀ out ended left, Outcome (.filled memory opendir) lines out ended left ↔ _ :=
    fun out ended left => outcome_iff filled_alloc fun _ => rfl
  constructor
  · intro h
    obtain ⟨hended, hleft⟩ := h _ _ _ ((houtcome _ _ _).mpr ⟨rfl, rfl, rfl⟩)
    exact nulBehindClose_of_serve hended.mpr hleft
  · intro h out ended left hout
    obtain ⟨-, rfl, rfl⟩ := (houtcome _ _ _).mp hout
    obtain ⟨hended, hleft⟩ := serve_of_nulBehindClose opendir h
    exact ⟨hended, fun hend => by rw [hleft hend]⟩

/-- Two sessions on the same lines agree, and end at the first `//close`, exactly when both read
that line into memory with a NUL behind it. -/
theorem agree_iff (memory memory' : Nat → Nat → Char)
    (opendir : List Char → Option (List (List Char))) (lines : List Line) :
    Agree memory memory' opendir lines ↔
      NulBehindClose memory 0 lines ∧ NulBehindClose memory' 0 lines := by
  constructor
  · exact fun h => ⟨endsAtClose_iff.mp h.ends, endsAtClose_iff.mp h.ends'⟩
  · rintro ⟨h, h'⟩
    refine ⟨fun out ended left => ?_, endsAtClose_iff.mpr h, endsAtClose_iff.mpr h'⟩
    rw [outcome_iff filled_alloc fun _ => rfl, outcome_iff filled_alloc fun _ => rfl,
      serve_same h h']

end

/-- `//close` as a line. -/
def closingLine : Line := ⟨closeLine.dropLast, by decide⟩

/-- The line `//close`, read into memory that is not zero. -/
theorem agree_fails :
    ¬ ∀ (memory memory' : Nat → Nat → Char)
      (opendir : List Char → Option (List (List Char))) (lines : List Line),
      Agree memory memory' opendir lines := by
  intro h
  have hclose : closingLine.IsClose := rfl
  have hclean := endsAtClose_iff.mp
    (h (fun _ _ => nul) (fun _ _ => 'x') (fun _ => none) [closingLine]).ends'
  rw [NulBehindClose, if_pos hclose] at hclean
  exact absurd hclean (by decide)

end SyssoftLabs.Lab6
