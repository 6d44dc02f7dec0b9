import SyssoftLabs.Lab5.Pipes.Delivery

/-!
# How pipes ends

The parent and `wc` never wait for each other: the pipe is full for the one or empty for the other.
-/

namespace SyssoftLabs.Lab5

open SyssoftLabs.Framework

namespace Pipes

variable {file : List UInt8} {s t : Pipes} {capacity : Nat} {a : PipesAction}

/-- The steps that the parent still takes, with so many bytes left to read, and those that `wc`
takes for them. -/
def senderWork (left : Nat) : Sender → Nat
  | .closeRead => 3 * (left / 2) + 4
  | .read => 3 * (left / 2) + 3
  | .write _ => 3 * (left / 2) + 5
  | .closeWrite => 2
  | .closeFile => 1
  | .exited | .killed => 0

def work (s : Pipes) : Nat :=
  senderWork s.file.length s.parent + counterWork s.child + s.pipe.length

private theorem work_stepParent (h : s.stepParent capacity = some t) (hs : s.SenderFds) :
    t.work < s.work := by
  cases hparent : s.parent with
  | closeRead =>
      simp only [stepParent, hparent] at h
      cases h
      simp only [work, senderWork, hparent]
      omega
  | read =>
      simp only [stepParent, hparent] at h
      split at h
      · next b c rest _ hfile =>
          cases h
          simp only [work, senderWork, hparent, hfile, List.length_cons]
          omega
      · cases h
        simp only [work, senderWork, hparent]
        omega
  | write c =>
      simp only [stepParent, hparent] at h
      simp only [SenderFds, hparent] at hs
      rw [hs.2.1] at h
      dsimp only at h
      split at h
      · split at h
        · cases h
          simp only [work, senderWork, hparent, List.length_append, List.length_singleton]
          omega
        · cases h
      · cases h
        simp only [work, senderWork, hparent]
        omega
  | closeWrite =>
      simp only [stepParent, hparent] at h
      cases h
      simp only [work, senderWork, hparent]
      omega
  | closeFile =>
      simp only [stepParent, hparent] at h
      cases h
      simp only [work, senderWork, hparent]
      omega
  | exited => simp [stepParent, hparent] at h
  | killed => simp [stepParent, hparent] at h

private theorem work_step (hs : Sound file s) (h : step capacity s a = some t) :
    t.work < s.work := by
  cases a with
  | parent => exact work_stepParent h hs.sender
  | child =>
      obtain ⟨hparent, hfile, hpipe, hchild⟩ := stepChild_frame h
      rw [work, work, hparent, hfile, hpipe]
      omega
  | short =>
      simp only [step, Option.ite_none_right_eq_some] at h
      obtain ⟨hparent, h⟩ := h
      cases h
      simp only [work, senderWork, hparent]
      omega
  | wc n =>
      simp only [step, Option.ite_none_right_eq_some] at h
      obtain ⟨⟨-, -, hpos, hle⟩, h⟩ := h
      cases h
      simp only [work, List.length_drop]
      omega
  | fail =>
      simp only [step, Option.ite_none_left_eq_some, not_or] at h
      obtain ⟨⟨hdone, hfailed⟩, h⟩ := h
      cases h
      have hpos : 0 < counterWork s.child := by
        cases hchild : s.child with
        | done => exact absurd hchild hdone
        | failed => exact absurd hchild hfailed
        | closeWrite | closeStdin | dup | closeRead | exec | wc => simp [counterWork]
      change senderWork s.file.length s.parent + 0 + s.pipe.length < s.work
      rw [work]
      omega

/-- Both processes have ended. -/
def Over (s : Pipes) : Prop :=
  (s.parent = .exited ∨ s.parent = .killed) ∧ (s.child = .done ∨ s.child = .failed)

/-- A parent that can take no step has ended, or waits for room in the pipe. -/
theorem Sound.blocked (hs : Sound file s) (h : ¬∃ t, s.stepParent capacity = some t) :
    s.parent = .exited ∨ s.parent = .killed ∨
      (∃ c, s.parent = .write c) ∧ s.hasReader = true ∧ ¬s.pipe.length < capacity := by
  have hsender := hs.sender
  unfold SenderFds at hsender
  cases hparent : s.parent with
  | closeRead => exact absurd (by simp [Pipes.stepParent, hparent]) h
  | read =>
      refine absurd ?_ h
      simp only [Pipes.stepParent, hparent]
      split
      · exact ⟨_, rfl⟩
      · exact ⟨_, rfl⟩
  | write c =>
      rw [hparent] at hsender
      refine .inr (.inr ⟨⟨c, rfl⟩, ?_⟩)
      simp only [Pipes.stepParent, hparent, hsender.2.1] at h
      split at h
      · next hreader =>
          refine ⟨hreader, fun hroom => h ?_⟩
          rw [if_pos hroom]
          exact ⟨_, rfl⟩
      · exact absurd ⟨_, rfl⟩ h
  | closeWrite => exact absurd (by simp [Pipes.stepParent, hparent]) h
  | closeFile => exact absurd (by simp [Pipes.stepParent, hparent]) h
  | exited => exact .inl rfl
  | killed => exact .inr (.inl rfl)

private theorem Sound.no_reader (hs : Sound file s) {c : UInt8} (hparent : s.parent = .write c)
    (hend : s.child = .done ∨ s.child = .failed) : ¬s.hasReader = true := by
  have hsender := hs.sender
  have hcounter := hs.counter
  unfold SenderFds at hsender
  unfold CounterFds at hcounter
  rw [hparent] at hsender
  have hnil : s.childFds = [] := by
    rcases hend with hchild | hchild
    · rw [hchild] at hcounter
      exact hcounter
    · rw [hchild] at hcounter
      exact hcounter
  rw [hasReader_eq_true, hnil, not_or]
  exact ⟨hsender.2.2.2, Descriptors.not_holds_nil _⟩

theorem Sound.enabled (hcapacity : 0 < capacity) (hs : Sound file s) (hover : ¬s.Over) :
    ∃ a t, (a = .parent ∨ a = .child ∨ ∃ n, a = .wc n) ∧ Pipes.step capacity s a = some t := by
  have hcounter := hs.counter
  unfold CounterFds at hcounter
  have hbefore : ∀ child, s.child = child → child ≠ .wc → child ≠ .done → child ≠ .failed →
      ∃ t, s.stepChild = some t := by
    intro child hchild hwc hdone hfailed
    cases child with
    | closeWrite | closeStdin | closeRead | exec => simp [Pipes.stepChild, hchild]
    | dup =>
        rw [hchild] at hcounter
        simp [Pipes.stepChild, hchild, hcounter.1]
    | wc => exact absurd rfl hwc
    | done => exact absurd rfl hdone
    | failed => exact absurd rfl hfailed
  by_cases hparent : ∃ t, s.stepParent capacity = some t
  · obtain ⟨t, ht⟩ := hparent
    exact ⟨.parent, t, .inl rfl, ht⟩
  · by_cases hchild : s.child = .wc
    · rw [hchild] at hcounter
      obtain ⟨hstdin, hnone⟩ := hcounter
      cases hpipe : s.pipe with
      | cons c rest =>
          refine ⟨.wc 1, _, .inr (.inr ⟨1, rfl⟩), if_pos ⟨hchild, hstdin, Nat.one_pos, ?_⟩⟩
          simp [hpipe]
      | nil =>
          have hwriter : s.hasWriter = false := by
            have hsender := hs.sender
            unfold SenderFds at hsender
            rw [← Bool.not_eq_true, hasWriter_eq_true, not_or]
            refine ⟨?_, hnone⟩
            rcases hs.blocked hparent with hp | hp | ⟨-, -, hfull⟩
            · rw [hp] at hsender
              exact hsender
            · rw [hp] at hsender
              exact hsender
            · rw [hpipe] at hfull
              exact absurd hcapacity hfull
          have hend : s.stepChild = some { s with child := .done, childFds := [] } := by
            simp [Pipes.stepChild, hchild, hstdin, hpipe, hwriter]
          exact ⟨.child, _, .inr (.inl rfl), hend⟩
    · by_cases hend : s.child = .done ∨ s.child = .failed
      · rcases hs.blocked hparent with hp | hp | ⟨⟨c, hp⟩, hreader, -⟩
        · exact absurd ⟨.inl hp, hend⟩ hover
        · exact absurd ⟨.inr hp, hend⟩ hover
        · exact absurd hreader (hs.no_reader hp hend)
      · rw [not_or] at hend
        obtain ⟨t, ht⟩ := hbefore s.child rfl hchild hend.1 hend.2
        exact ⟨.child, t, .inr (.inl rfl), ht⟩

/-- Every run ends: its length has a bound, and while a process has not ended one of the two can
go on. -/
theorem pipes_ends {inherited : Descriptors Nat} {as : List PipesAction}
    (hcapacity : 0 < capacity) (h : run (step capacity) (start inherited file) as = some s) :
    as.length ≤ 3 * (file.length / 2) + 10 ∧
      (¬s.Over → ∃ a t, (a = .parent ∨ a = .child ∨ ∃ n, a = .wc n) ∧
        step capacity s a = some t) := by
  have hstart := Sound.start inherited file
  have hs : Sound file s := run_invariant (fun _ _ _ hs ht => hs.step ht) h hstart
  refine ⟨?_, hs.enabled hcapacity⟩
  have hlen := length_add_le (m := work) (fun _ _ _ hs ht => hs.step ht)
    (fun _ _ _ hs ht => work_step hs ht) h hstart
  have hwork : (start inherited file).work = 3 * (file.length / 2) + 10 := rfl
  omega

/-- The parent goes on, to its end by a signal, when the child has failed. -/
theorem pipes_ends_failed :
    ∃ s,
      run (step 1) (start [some 0, some 1, some 2] [1, 2, 3]) [.parent, .parent, .fail] = some s ∧
      ∃ a t, (a = .parent ∨ a = .child ∨ ∃ n, a = .wc n) ∧ step 1 s a = some t := by
  have hchild : ((run (step 1) (start [some 0, some 1, some 2] [1, 2, 3])
      [.parent, .parent, .fail]).map Pipes.parent) = some (.write 2) := by decide
  obtain ⟨s, hs, hparent⟩ := Option.map_eq_some_iff.mp hchild
  refine ⟨s, hs, (pipes_ends (by decide) hs).2 ?_⟩
  rintro ⟨hover | hover, -⟩
  · rw [hparent] at hover
    cases hover
  · rw [hparent] at hover
    cases hover

end Pipes

end SyssoftLabs.Lab5
