import SyssoftLabs.Lab5.TwoThreads

/-!
# Rounds that end

The sections of `multithread` take a bounded number of steps, and a thread that waits for the lock
waits for one that can go on. So `main` prints line after line, whoever takes the next step.
-/

namespace SyssoftLabs.Lab5

open SyssoftLabs.Framework

variable {len : Nat}

/-! ## The sections -/

private theorem passes_left {j : Nat} (hj : j + 1 < repeats) (pass : Nat) :
    (repeats - (j + 1)) * pass = (repeats - (j + 1 + 1)) * pass + pass := by
  have hsucc : repeats - (j + 1) = repeats - (j + 1 + 1) + 1 := by omega
  rw [hsucc, Nat.add_mul, Nat.one_mul]

/-- The steps of `reverse` that are left at a place of its loops. -/
def Reversing.left : Reversing len → Nat
  | .loop j i =>
      if j < repeats then (repeats - (j + 1)) * (4 * (len / 2) + 1) + 4 * (len / 2 - i) + 1 else 0
  | .first j i _ => (repeats - (j + 1)) * (4 * (len / 2) + 1) + 4 * (len / 2 - i.val)
  | .second j i _ _ => (repeats - (j + 1)) * (4 * (len / 2) + 1) + 4 * (len / 2 - i.val) - 1
  | .third j i _ => (repeats - (j + 1)) * (4 * (len / 2) + 1) + 4 * (len / 2 - i.val) - 2

/-- The steps of `change_register` that are left. -/
def Changing.left : Changing len → Nat
  | .loop j i =>
      if j < repeats then (repeats - (j + 1)) * (4 * len + 1) + 4 * (len - i) + 1 else 0
  | .upper j i => (repeats - (j + 1)) * (4 * len + 1) + 4 * (len - i.val)
  | .toLower j i | .toUpper j i => (repeats - (j + 1)) * (4 * len + 1) + 4 * (len - i.val) - 1
  | .write j i _ => (repeats - (j + 1)) * (4 * len + 1) + 4 * (len - i.val) - 2

private theorem next_pass_left (j pass : Nat) :
    (if j + 1 < repeats then (repeats - (j + 1 + 1)) * (pass + 1) + pass + 1 else 0) <
      (repeats - (j + 1)) * (pass + 1) + 1 := by
  split
  · next hj =>
      rw [passes_left hj]
      omega
  · exact Nat.succ_pos _

theorem reverse_endsBy : (reverse len).EndsBy Reversing.left := by
  intro l toy l' toy' h
  change l.step toy = some (l', toy') at h
  cases l with
  | loop j i =>
      rw [Reversing.step] at h
      split at h
      · next hj =>
          split at h
          · cases h
            simp only [Reversing.left, if_pos hj]
            omega
          · next hi =>
              cases h
              have hnext := next_pass_left j (4 * (len / 2))
              have hzero : len / 2 - i = 0 := by omega
              simpa only [Reversing.left, if_pos hj, hzero, Nat.sub_zero] using hnext
      · cases h
  | first j i c =>
      have hi := i.isLt
      cases h
      simp only [Reversing.left]
      omega
  | second j i c d =>
      have hi := i.isLt
      cases h
      simp only [Reversing.left]
      omega
  | third j i c =>
      have hi := i.isLt
      cases h
      simp only [Reversing.left]
      split <;> omega

private theorem changeRegister_endsBy : (changeRegister len).EndsBy Changing.left := by
  intro l toy l' toy' h
  change l.step toy = some (l', toy') at h
  cases l with
  | loop j i =>
      rw [Changing.step] at h
      split at h
      · next hj =>
          split at h
          · cases h
            split
            · simp only [Changing.left, if_pos hj]
              omega
            · simp only [Changing.left, if_pos hj]
              omega
          · next hi =>
              cases h
              have hnext := next_pass_left j (4 * len)
              have hzero : len - i = 0 := by omega
              simpa only [Changing.left, if_pos hj, hzero, Nat.sub_zero] using hnext
      · cases h
  | upper j i =>
      have hi := i.isLt
      cases h
      split
      · simp only [Changing.left]
        omega
      · simp only [Changing.left]
        omega
  | toLower j i =>
      have hi := i.isLt
      cases h
      simp only [Changing.left]
      omega
  | toUpper j i =>
      have hi := i.isLt
      cases h
      simp only [Changing.left]
      omega
  | write j i c =>
      have hi := i.isLt
      cases h
      simp only [Changing.left]
      split <;> omega

/-! ## A thread -/

namespace Thread

variable {Local : Type} {sync : SyncType} {body : Section (Toy len) Local}
  {t t' : Thread Local} {value value' : Nat} {toy toy' : Toy len}

/-- Created and not joined. -/
def Alive (t : Thread Local) : Prop := t ≠ .idle ∧ t ≠ .joined

private theorem alive_waiting : (waiting : Thread Local).Alive := ⟨by simp, by simp⟩

private theorem alive_inside (l : Local) : (inside l).Alive := ⟨by simp, by simp⟩

private theorem alive_finished : (finished : Thread Local).Alive := ⟨by simp, by simp⟩

/-- The steps of the thread that are left, if its section ends by the measure. -/
def left (body : Section (Toy len) Local) (measure : Local → Nat) : Thread Local → Nat
  | .idle | .waiting => measure body.start + 2
  | .inside l => measure l + 1
  | .finished | .joined => 0

private theorem step_left {measure : Local → Nat} (hends : body.EndsBy measure)
    (h : t.step sync body value toy = some (t', value', toy')) :
    t.Alive ∧ t'.Alive ∧ t'.left body measure < t.left body measure := by
  cases t with
  | idle => cases h
  | finished => cases h
  | joined => cases h
  | waiting =>
      rw [step, Option.map_eq_some_iff] at h
      obtain ⟨taken, -, heq⟩ := h
      cases heq
      exact ⟨alive_waiting, alive_inside _, Nat.lt_succ_self _⟩
  | inside l =>
      rw [step] at h
      split at h
      · next hstep =>
          cases h
          have hlt := hends _ _ _ _ hstep
          exact ⟨alive_inside l, alive_inside _, Nat.succ_lt_succ hlt⟩
      · obtain ⟨left, -, heq⟩ := Option.map_eq_some_iff.mp h
        cases heq
        exact ⟨alive_inside l, alive_finished, Nat.succ_pos _⟩

private theorem step_inside (sync : SyncType) (body : Section (Toy len) Local) (l : Local)
    (value : Nat) (toy : Toy len) : ∃ u, (Thread.inside l).step sync body value toy = some u := by
  rw [step]
  split
  · exact ⟨_, rfl⟩
  · cases sync with
    | sem => exact ⟨_, rfl⟩
    | ipcSem => exact ⟨_, rfl⟩
    | none => exact ⟨_, rfl⟩

end Thread

private theorem SyncType.lock_isSome {sync : SyncType} {value : Nat}
    (h : sync ≠ .none → 0 < value) :
    ∃ left, sync.lock value = some left := by
  by_cases hsync : sync = .none
  · subst hsync
    exact ⟨value, rfl⟩
  · have hpos := h hsync
    exact ⟨value - 1, (SyncType.lock_eq_some hsync).mpr (by omega)⟩

/-! ## A round -/

namespace Rounds

variable {sync : SyncType} {s t : Rounds len} {toy : Toy len} {party : Party}

/-- Which threads there are, by where `main` stands. -/
def Present (s : Rounds len) : Prop :=
  match s.main with
  | .createReverse => s.reverse = .idle ∧ s.register = .idle
  | .createRegister => s.reverse.Alive ∧ s.register = .idle
  | .joinReverse => s.reverse.Alive ∧ s.register.Alive
  | .joinRegister => s.reverse = .joined ∧ s.register.Alive
  | .print => s.reverse = .joined ∧ s.register = .joined

/-- The steps of `main` that are left in a round. -/
def mainLeft : Main → Nat
  | .createReverse => 5
  | .createRegister => 4
  | .joinReverse => 3
  | .joinRegister => 2
  | .print => 1

/-- The steps of the round that are left. -/
def left (s : Rounds len) : Nat :=
  mainLeft s.main + s.reverse.left (Lab5.reverse len) Reversing.left +
    s.register.left (changeRegister len) Changing.left

/-- The steps of a whole round. -/
def roundSteps (len : Nat) : Nat := 20 * (len / 2) + 20 * len + 19

private theorem left_start (sync : SyncType) (value : Nat) (toy : Toy len) :
    (start sync value toy).left = roundSteps len := by
  have hreverse : Reversing.left (Lab5.reverse len).start = 5 * (4 * (len / 2) + 1) := by
    change (if 0 < repeats then (repeats - 1) * (4 * (len / 2) + 1) + 4 * (len / 2) + 1 else 0) = _
    rw [if_pos (by decide), show repeats - 1 = 4 from rfl]
    omega
  have hregister : Changing.left (changeRegister len).start = 5 * (4 * len + 1) := by
    change (if 0 < repeats then (repeats - 1) * (4 * len + 1) + 4 * len + 1 else 0) = _
    rw [if_pos (by decide), show repeats - 1 = 4 from rfl]
    omega
  change 5 + (Reversing.left (Lab5.reverse len).start + 2) +
    (Changing.left (changeRegister len).start + 2) = _
  rw [hreverse, hregister, roundSteps]
  omega

private theorem left_pos (s : Rounds len) : 0 < s.left := by
  have hmain : 0 < mainLeft s.main := by
    cases s.main with
    | createReverse | createRegister | joinReverse | joinRegister | print => decide
  rw [left]
  omega

/-- The steps of all rounds so far. -/
def made (s : Rounds len) : Nat := roundSteps len * s.printed.length + (roundSteps len - s.left)

/-- The threads are there, and the round is no longer than a whole one. -/
structure Ongoing (s : Rounds len) : Prop where
  present : s.Present
  left_le : s.left ≤ roundSteps len

theorem Ongoing.start (sync : SyncType) (value : Nat) (toy : Toy len) :
    Ongoing (start sync value toy) :=
  ⟨⟨rfl, rfl⟩, Nat.le_of_eq (left_start sync value toy)⟩

private theorem made_lt (hs : s.left ≤ roundSteps len) (hlt : t.left < s.left)
    (hprinted : t.printed = s.printed) : s.made < t.made := by
  rw [made, made, hprinted]
  omega

theorem Ongoing.stepMain (hs : Ongoing s) (h : s.stepMain = some t) :
    Ongoing t ∧ s.made < t.made := by
  obtain ⟨hpresent, hleft⟩ := hs
  obtain ⟨string, value, reverse, register, main, printed⟩ := s
  cases main with
  | createReverse =>
      obtain ⟨rfl, rfl⟩ : reverse = .idle ∧ register = .idle := hpresent
      cases h
      have hlt : @left len ⟨string, value, .waiting, .idle, .createRegister, printed⟩ <
          left ⟨string, value, .idle, .idle, .createReverse, printed⟩ := by
        simp [left, mainLeft, Thread.left]
      exact ⟨⟨⟨Thread.alive_waiting, rfl⟩, (Nat.le_of_lt hlt).trans hleft⟩, made_lt hleft hlt rfl⟩
  | createRegister =>
      obtain ⟨halive, rfl⟩ : reverse.Alive ∧ register = .idle := hpresent
      cases h
      have hlt : left ⟨string, value, reverse, .waiting, .joinReverse, printed⟩ <
          left ⟨string, value, reverse, .idle, .createRegister, printed⟩ := by
        simp [left, mainLeft, Thread.left]
      exact ⟨⟨⟨halive, Thread.alive_waiting⟩, (Nat.le_of_lt hlt).trans hleft⟩,
        made_lt hleft hlt rfl⟩
  | joinReverse =>
      obtain ⟨-, halive⟩ : reverse.Alive ∧ register.Alive := hpresent
      cases reverse with
      | finished =>
          cases h
          have hlt : left ⟨string, value, .joined, register, .joinRegister, printed⟩ <
              left ⟨string, value, .finished, register, .joinReverse, printed⟩ := by
            simp [left, mainLeft, Thread.left]
          exact ⟨⟨⟨rfl, halive⟩, (Nat.le_of_lt hlt).trans hleft⟩, made_lt hleft hlt rfl⟩
      | idle => cases h
      | waiting => cases h
      | inside l => cases h
      | joined => cases h
  | joinRegister =>
      obtain ⟨rfl, -⟩ : reverse = .joined ∧ register.Alive := hpresent
      cases register with
      | finished =>
          cases h
          have hlt : @left len ⟨string, value, .joined, .joined, .print, printed⟩ <
              left ⟨string, value, .joined, .finished, .joinRegister, printed⟩ := by
            simp [left, mainLeft, Thread.left]
          exact ⟨⟨⟨rfl, rfl⟩, (Nat.le_of_lt hlt).trans hleft⟩, made_lt hleft hlt rfl⟩
      | idle => cases h
      | waiting => cases h
      | inside l => cases h
      | joined => cases h
  | print =>
      obtain ⟨rfl, rfl⟩ : reverse = .joined ∧ register = .joined := hpresent
      cases h
      have hnew := left_start .sem 0 string
      refine ⟨⟨⟨rfl, rfl⟩, Nat.le_of_eq hnew⟩, ?_⟩
      have hone : @left len ⟨string, value, .joined, .joined, .print, printed⟩ = 1 := rfl
      have hwhole : @left len
          ⟨string, value, .idle, .idle, .createReverse, printed ++ [string]⟩ =
            roundSteps len := hnew
      simp only [made, hone, hwhole, List.length_append, List.length_singleton, Nat.mul_succ]
      omega

theorem Present.reverse (h : s.Present) (halive : s.reverse.Alive) {thread : Thread (Reversing len)}
    (hthread : thread.Alive) (value : Nat) (toy : Toy len) :
    Present { s with reverse := thread, value := value, toy := toy } := by
  unfold Present at h ⊢
  cases hmain : s.main with
  | createReverse =>
      rw [hmain] at h
      exact absurd h.1 halive.1
  | createRegister =>
      rw [hmain] at h
      exact ⟨hthread, h.2⟩
  | joinReverse =>
      rw [hmain] at h
      exact ⟨hthread, h.2⟩
  | joinRegister =>
      rw [hmain] at h
      exact absurd h.1 halive.2
  | print =>
      rw [hmain] at h
      exact absurd h.1 halive.2

theorem Present.register (h : s.Present) (halive : s.register.Alive)
    {thread : Thread (Changing len)} (hthread : thread.Alive) (value : Nat) (toy : Toy len) :
    Present { s with register := thread, value := value, toy := toy } := by
  unfold Present at h ⊢
  cases hmain : s.main with
  | createReverse =>
      rw [hmain] at h
      exact absurd h.2 halive.1
  | createRegister =>
      rw [hmain] at h
      exact absurd h.2 halive.1
  | joinReverse =>
      rw [hmain] at h
      exact ⟨h.1, hthread⟩
  | joinRegister =>
      rw [hmain] at h
      exact ⟨h.1, hthread⟩
  | print =>
      rw [hmain] at h
      exact absurd h.2 halive.2

/-- Every step brings the next line nearer. -/
theorem Ongoing.step (hs : Ongoing s) (h : s.step sync party = some t) :
    Ongoing t ∧ s.made < t.made := by
  cases party with
  | main => exact hs.stepMain h
  | reverse =>
      rw [Rounds.step, Option.map_eq_some_iff] at h
      obtain ⟨⟨thread, value, string⟩, hthread, rfl⟩ := h
      obtain ⟨halive, halive', hlt⟩ := Thread.step_left reverse_endsBy hthread
      have hleft : left { s with reverse := thread, value := value, toy := string } < s.left := by
        simp only [left]
        omega
      have hle := hs.left_le
      exact ⟨⟨hs.present.reverse halive halive' value string, (Nat.le_of_lt hleft).trans hle⟩,
        made_lt hle hleft rfl⟩
  | register =>
      rw [Rounds.step, Option.map_eq_some_iff] at h
      obtain ⟨⟨thread, value, string⟩, hthread, rfl⟩ := h
      obtain ⟨halive, halive', hlt⟩ := Thread.step_left changeRegister_endsBy hthread
      have hleft : left { s with register := thread, value := value, toy := string } < s.left := by
        simp only [left]
        omega
      have hle := hs.left_le
      exact ⟨⟨hs.present.register halive halive' value string, (Nat.le_of_lt hleft).trans hle⟩,
        made_lt hle hleft rfl⟩

/-- A unit of the semaphore is in it, or with a thread that can go on. -/
theorem Present.enabled (h : s.Present)
    (hunits : sync ≠ .none → s.value + s.reverse.holds + s.register.holds = 1) :
    ∃ party t, s.step sync party = some t := by
  have hreverse : ∀ l, s.reverse = .inside l → ∃ party t, s.step sync party = some t := by
    intro l hl
    obtain ⟨u, hu⟩ := Thread.step_inside sync (Lab5.reverse len) l s.value s.toy
    refine ⟨.reverse, ?_⟩
    rw [Rounds.step, hl, hu]
    exact ⟨_, rfl⟩
  have hregister : ∀ l, s.register = .inside l → ∃ party t, s.step sync party = some t := by
    intro l hl
    obtain ⟨u, hu⟩ := Thread.step_inside sync (changeRegister len) l s.value s.toy
    refine ⟨.register, ?_⟩
    rw [Rounds.step, hl, hu]
    exact ⟨_, rfl⟩
  unfold Present at h
  cases hmain : s.main with
  | createReverse | createRegister | print => exact ⟨.main, by simp [Rounds.step, stepMain, hmain]⟩
  | joinReverse =>
      rw [hmain] at h
      cases hthread : s.reverse with
      | idle => exact absurd hthread h.1.1
      | joined => exact absurd hthread h.1.2
      | finished => exact ⟨.main, by simp [Rounds.step, stepMain, hmain, hthread]⟩
      | inside l => exact hreverse l hthread
      | waiting =>
          cases hother : s.register with
          | inside l => exact hregister l hother
          | idle | waiting | finished | joined =>
              rw [hthread, hother] at hunits
              have hlock : ∃ value, sync.lock s.value = some value := by
                apply SyncType.lock_isSome
                intro hsync
                have hone := hunits hsync
                simp only [Thread.holds] at hone
                omega
              obtain ⟨value, hvalue⟩ := hlock
              exact ⟨.reverse, by simp [Rounds.step, hthread, Thread.step, hvalue]⟩
  | joinRegister =>
      rw [hmain] at h
      cases hthread : s.register with
      | idle => exact absurd hthread h.2.1
      | joined => exact absurd hthread h.2.2
      | finished => exact ⟨.main, by simp [Rounds.step, stepMain, hmain, hthread]⟩
      | inside l => exact hregister l hthread
      | waiting =>
          rw [hthread, h.1] at hunits
          have hlock : ∃ value, sync.lock s.value = some value := by
            apply SyncType.lock_isSome
            intro hsync
            have hone := hunits hsync
            simp only [Thread.holds] at hone
            omega
          obtain ⟨value, hvalue⟩ := hlock
          exact ⟨.register, by simp [Rounds.step, hthread, Thread.step, hvalue]⟩

/-- Whoever takes the next step, `main` prints again and again: from every state that is reached a
step is possible, and as many steps as a round has print a line. -/
theorem rounds_keep_printing {value : Nat} {as : List Party}
    (h : run (Rounds.step sync) (Rounds.start sync value toy) as = some s) :
    as.length ≤ (20 * (len / 2) + 20 * len + 19) * (s.printed.length + 1) ∧
      (∃ party t, s.step sync party = some t) ∧
      ∀ bs t, run (Rounds.step sync) s bs = some t → 20 * (len / 2) + 20 * len + 19 ≤ bs.length →
        s.printed.length < t.printed.length := by
  have hstart := Ongoing.start sync value toy
  have hkeep (s : Rounds len) (a : Party) (t : Rounds len) (hs : Ongoing s)
      (ht : s.step sync a = some t) : Ongoing t := (hs.step ht).1
  have hmore (s : Rounds len) (a : Party) (t : Rounds len) (hs : Ongoing s)
      (ht : s.step sync a = some t) : s.made < t.made := (hs.step ht).2
  have hs : Ongoing s := run_invariant hkeep h hstart
  have hmade (u : Rounds len) : u.made < roundSteps len * (u.printed.length + 1) := by
    rw [made, Nat.mul_succ]
    have hleft := u.left_pos
    have hround : 0 < roundSteps len := Nat.succ_pos _
    omega
  refine ⟨?_, ?_, ?_⟩
  · have hlen := add_length_le (m := made) hkeep hmore h hstart
    have hle : as.length ≤ roundSteps len * (s.printed.length + 1) := by
      have hlt := hmade s
      omega
    exact hle
  · apply hs.present.enabled
    intro hsync
    exact (keeps_of_reachable hsync ⟨as, h⟩).units
  · intro bs t ht hround
    have hlen := add_length_le (m := made) hkeep hmore ht hs
    have hbelow : roundSteps len * s.printed.length ≤ s.made := Nat.le_add_right _ _
    have hsteps : roundSteps len ≤ bs.length := hround
    have hlines : roundSteps len * (s.printed.length + 1) <
        roundSteps len * (t.printed.length + 1) := by
      calc roundSteps len * (s.printed.length + 1)
          = roundSteps len * s.printed.length + roundSteps len := Nat.mul_succ _ _
        _ ≤ s.made + bs.length := Nat.add_le_add hbelow hsteps
        _ ≤ t.made := hlen
        _ < roundSteps len * (t.printed.length + 1) := hmade t
    exact Nat.lt_of_succ_lt_succ (Nat.lt_of_mul_lt_mul_left hlines)

/-- The steps of a round on `ab`, from a state in which one thread waits for the other. -/
theorem rounds_keep_printing_ab :
    ∃ s t, run (Rounds.step .sem) (Rounds.start .sem 0 (#v[97, 98] : Toy 2))
        [.main, .main, .register] = some s ∧
      s.step .sem .reverse = none ∧ (∃ party u, s.step .sem party = some u) ∧
      run (Rounds.step .sem) s (List.replicate 46 .register ++ List.replicate 27 .reverse ++
        List.replicate 5 .main ++ [.reverse]) = some t ∧
      s.printed.length < t.printed.length := by
  have hwaits : ((run (Rounds.step .sem) (Rounds.start .sem 0 (#v[97, 98] : Toy 2))
      [.main, .main, .register]).bind fun s => s.step .sem .reverse) = none := by decide +kernel
  have hround : ((run (Rounds.step .sem) (Rounds.start .sem 0 (#v[97, 98] : Toy 2))
      [.main, .main, .register]).bind fun s => run (Rounds.step .sem) s
        (List.replicate 46 .register ++ List.replicate 27 .reverse ++ List.replicate 5 .main ++
          [.reverse])).isSome := by decide +kernel
  obtain ⟨t, ht⟩ := Option.isSome_iff_exists.mp hround
  obtain ⟨s, hs, hrun⟩ := Option.bind_eq_some_iff.mp ht
  rw [hs, Option.bind_some] at hwaits
  obtain ⟨-, hstep, hprints⟩ := rounds_keep_printing hs
  exact ⟨s, t, hs, hwaits, hstep, hrun, hprints _ t hrun (by decide)⟩

end Rounds

end SyssoftLabs.Lab5
