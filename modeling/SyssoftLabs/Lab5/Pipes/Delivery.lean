import SyssoftLabs.Lab5.Pipes.Model

/-!
# What wc reads

No byte is lost between the two processes, and `wc` sees the end of its input when the parent has
closed the last write end.
-/

namespace SyssoftLabs.Lab5

open SyssoftLabs.Framework

/-- The second, the fourth, the sixth byte and so on. -/
def everySecond : List UInt8 → List UInt8
  | _ :: c :: rest => c :: everySecond rest
  | _ => []

private theorem everySecond_of_short {bytes : List UInt8} (h : bytes.length < 2) :
    everySecond bytes = [] := by
  match bytes, h with
  | [], _ => rfl
  | [b], _ => rfl

private theorem everySecond_getElem? (bytes : List UInt8) (i : Nat) :
    (everySecond bytes)[i]? = bytes[2 * i + 1]? := by
  induction bytes using everySecond.induct generalizing i with
  | case1 b c rest ih =>
      cases i with
      | zero => rfl
      | succ i =>
          rw [everySecond, List.getElem?_cons_succ, ih]
          rfl
  | case2 bytes hshort =>
      have hlen : bytes.length < 2 := by
        match bytes, hshort with
        | [], _ => exact Nat.zero_lt_two
        | [b], _ => exact Nat.one_lt_two
        | b :: c :: rest, hshort => exact absurd rfl (hshort b c rest)
      rw [everySecond_of_short hlen, List.getElem?_nil, List.getElem?_eq_none (by omega)]

private theorem everySecond_take_append (bytes : List UInt8) (k : Nat) :
    everySecond (bytes.take (2 * k)) ++ everySecond (bytes.drop (2 * k)) = everySecond bytes := by
  induction k generalizing bytes with
  | zero => rfl
  | succ k ih =>
      rw [Nat.mul_succ]
      by_cases hlen : bytes.length < 2
      · rw [List.take_of_length_le (by omega), List.drop_eq_nil_of_le (by omega)]
        exact List.append_nil _
      · match bytes, hlen with
        | b :: c :: rest, _ =>
            change c :: (everySecond (rest.take (2 * k)) ++ everySecond (rest.drop (2 * k))) = _
            rw [ih rest]
            rfl
        | [b], hlen => exact absurd Nat.one_lt_two hlen
        | [], hlen => exact absurd Nat.zero_lt_two hlen

private theorem everySecond_take_succ {bytes rest : List UInt8} {b c : UInt8} {k : Nat}
    (h : bytes.drop (2 * k) = b :: c :: rest) :
    everySecond (bytes.take (2 * (k + 1))) = everySecond (bytes.take (2 * k)) ++ [c] ∧
      bytes.drop (2 * (k + 1)) = rest := by
  have hdrop : bytes.drop (2 * (k + 1)) = rest := by
    rw [Nat.mul_succ, ← List.drop_drop, h]
    rfl
  refine ⟨?_, hdrop⟩
  have hall := everySecond_take_append bytes (k + 1)
  rw [hdrop, ← everySecond_take_append bytes k, h, everySecond, List.append_cons] at hall
  exact List.append_cancel_right hall

namespace Pipes

/-! ## Descriptors -/

/-- The descriptors of the parent, by where it stands. -/
def SenderFds (s : Pipes) : Prop :=
  match s.parent with
  | .closeRead =>
      Descriptors.get s.parentFds s.fd = some .file ∧
        Descriptors.get s.parentFds s.pipefd.2 = some .write ∧
        (∀ n, Descriptors.get s.parentFds n = some .write → n = s.pipefd.2) ∧
        ∀ n, Descriptors.get s.parentFds n = some .read → n = s.pipefd.1
  | .read | .write _ =>
      Descriptors.get s.parentFds s.fd = some .file ∧
        Descriptors.get s.parentFds s.pipefd.2 = some .write ∧
        (∀ n, Descriptors.get s.parentFds n = some .write → n = s.pipefd.2) ∧
        ¬Descriptors.Holds s.parentFds .read
  | .closeWrite => ∀ n, Descriptors.get s.parentFds n = some .write → n = s.pipefd.2
  | .closeFile | .exited | .killed => ¬Descriptors.Holds s.parentFds .write

/-- The descriptors of the child. -/
def CounterFds (s : Pipes) : Prop :=
  match s.child with
  | .closeWrite =>
      Descriptors.get s.childFds s.pipefd.1 = some .read ∧
        ∀ n, Descriptors.get s.childFds n = some .write → n = s.pipefd.2
  | .closeStdin | .dup =>
      Descriptors.get s.childFds s.pipefd.1 = some .read ∧ ¬Descriptors.Holds s.childFds .write
  | .closeRead | .exec | .wc =>
      Descriptors.get s.childFds 0 = some .read ∧ ¬Descriptors.Holds s.childFds .write
  | .done | .failed => s.childFds = []

/-- What the parent has read and not written. -/
def pending (s : Pipes) : List UInt8 :=
  match s.parent with
  | .write c => [c]
  | _ => []

/-- The descriptors are where the two branches expect them, and no byte is lost on the way before
the child has failed. -/
structure Sound (file : List UInt8) (s : Pipes) : Prop where
  stdin : s.pipefd.1 ≠ 0
  fdRead : s.fd ≠ s.pipefd.1
  ends : s.pipefd.2 ≠ s.pipefd.1
  sender : s.SenderFds
  counter : s.CounterFds
  bytes : ∃ k lost, s.file = file.drop (2 * k) ∧
    s.received ++ s.pipe ++ s.pending ++ lost = everySecond (file.take (2 * k)) ∧
    (s.parent ≠ .killed → lost = [])
  done : s.child = .done → s.pipe = [] ∧ ¬Descriptors.Holds s.parentFds .write
  killed : s.parent = .killed → s.child = .failed

variable {file : List UInt8} {s t : Pipes} {capacity : Nat} {a : PipesAction}

theorem Sound.start (inherited : Descriptors Nat) (file : List UInt8) :
    Sound file (start inherited file) := by
  let t₀ := inherited.map (Option.map PipesDesc.inherited)
  let fd := Descriptors.free t₀
  let t₁ := Descriptors.put t₀ fd PipesDesc.file
  let r := Descriptors.free t₁
  let t₂ := Descriptors.put t₁ r PipesDesc.read
  let w := Descriptors.free t₂
  let t₃ := Descriptors.put t₂ w PipesDesc.write
  have hinherited : ∀ n d, (∀ k, PipesDesc.inherited k ≠ d) → Descriptors.get t₀ n ≠ some d := by
    intro n d hd hn
    rw [Descriptors.get_map, Option.map_eq_some_iff] at hn
    obtain ⟨k, -, hk⟩ := hn
    exact hd k hk
  have hfd₁ : Descriptors.get t₁ fd = some .file := Descriptors.get_put_self _ _ _
  have hfdr : fd ≠ r := Descriptors.ne_free hfd₁
  have hfd₂ : Descriptors.get t₂ fd = some .file := by
    rw [Descriptors.get_put_ne _ hfdr]
    exact hfd₁
  have hr₂ : Descriptors.get t₂ r = some .read := Descriptors.get_put_self _ _ _
  have hfdw : fd ≠ w := Descriptors.ne_free hfd₂
  have hrw : r ≠ w := Descriptors.ne_free hr₂
  have hr₃ : Descriptors.get t₃ r = some .read := by
    rw [Descriptors.get_put_ne _ hrw]
    exact hr₂
  have hfd₃ : Descriptors.get t₃ fd = some .file := by
    rw [Descriptors.get_put_ne _ hfdw]
    exact hfd₂
  -- the file takes the lowest number, so that the pipe does not get number 0
  have hstdin : r ≠ 0 := by
    intro hr
    have hopen : Descriptors.get t₁ 0 ≠ none := by
      by_cases hfd : fd = 0
      · rw [← hfd, hfd₁]
        exact nofun
      · rw [Descriptors.get_put_ne _ (Ne.symm hfd)]
        exact Descriptors.get_of_lt_free (Nat.pos_of_ne_zero hfd)
    rw [← hr] at hopen
    exact hopen (Descriptors.get_free t₁)
  have honly : ∀ n, Descriptors.get t₃ n = some .write → n = w := by
    intro n hn
    rcases Descriptors.get_put_eq_some.mp hn with ⟨hnw, -⟩ | ⟨-, hn⟩
    · exact hnw
    · rcases Descriptors.get_put_eq_some.mp hn with ⟨-, hd⟩ | ⟨-, hn⟩
      · cases hd
      · rcases Descriptors.get_put_eq_some.mp hn with ⟨-, hd⟩ | ⟨-, hn⟩
        · cases hd
        · exact absurd hn (hinherited n .write nofun)
  have hread : ∀ n, Descriptors.get t₃ n = some .read → n = r := by
    intro n hn
    rcases Descriptors.get_put_eq_some.mp hn with ⟨-, hd⟩ | ⟨-, hn⟩
    · cases hd
    · rcases Descriptors.get_put_eq_some.mp hn with ⟨hnr, -⟩ | ⟨-, hn⟩
      · exact hnr
      · rcases Descriptors.get_put_eq_some.mp hn with ⟨-, hd⟩ | ⟨-, hn⟩
        · cases hd
        · exact absurd hn (hinherited n .read nofun)
  exact ⟨hstdin, hfdr, hrw.symm, ⟨hfd₃, Descriptors.get_put_self _ _ _, honly, hread⟩, ⟨hr₃, honly⟩,
    ⟨0, [], rfl, rfl, fun _ => rfl⟩, nofun, nofun⟩

theorem hasReader_eq_true :
    s.hasReader = true ↔
      Descriptors.Holds s.parentFds .read ∨ Descriptors.Holds s.childFds .read := by
  rw [hasReader, Bool.or_eq_true, List.contains_iff_mem, List.contains_iff_mem,
    Descriptors.holds_iff_mem, Descriptors.holds_iff_mem]

theorem hasWriter_eq_true :
    s.hasWriter = true ↔
      Descriptors.Holds s.parentFds .write ∨ Descriptors.Holds s.childFds .write := by
  rw [hasWriter, Bool.or_eq_true, List.contains_iff_mem, List.contains_iff_mem,
    Descriptors.holds_iff_mem, Descriptors.holds_iff_mem]

theorem CounterFds.hasReader (h : s.CounterFds) (hdone : s.child ≠ .done)
    (hfailed : s.child ≠ .failed) : s.hasReader = true := by
  rw [hasReader_eq_true]
  right
  unfold CounterFds at h
  cases hchild : s.child with
  | closeWrite =>
      rw [hchild] at h
      exact ⟨_, h.1⟩
  | closeStdin =>
      rw [hchild] at h
      exact ⟨_, h.1⟩
  | dup =>
      rw [hchild] at h
      exact ⟨_, h.1⟩
  | closeRead =>
      rw [hchild] at h
      exact ⟨_, h.1⟩
  | exec =>
      rw [hchild] at h
      exact ⟨_, h.1⟩
  | wc =>
      rw [hchild] at h
      exact ⟨_, h.1⟩
  | done => exact absurd hchild hdone
  | failed => exact absurd hchild hfailed

/-! ## Steps of the parent -/

theorem Sound.stepParent (hs : Sound file s) (h : s.stepParent capacity = some t) :
    Sound file t := by
  obtain ⟨hstdin, hfd, hends, hsender, hcounter, ⟨k, lost, hfile, hbytes, hlost⟩, hdone, hkilled⟩ :=
    hs
  cases hparent : s.parent with
  | closeRead =>
      simp only [Pipes.stepParent, hparent] at h
      simp only [SenderFds, hparent] at hsender
      obtain ⟨hopen, hwrite, honly, hread⟩ := hsender
      cases h
      refine ⟨hstdin, hfd, hends, ⟨?_, ?_, fun n hn => ?_, ?_⟩, hcounter,
        ⟨k, lost, hfile, ?_, fun _ => hlost (by simp [hparent])⟩, fun hend => ?_, nofun⟩
      · exact (Descriptors.get_close_ne hfd).trans hopen
      · exact (Descriptors.get_close_ne hends).trans hwrite
      · exact honly n (Descriptors.get_close_eq_some.mp hn).2
      · rintro ⟨n, hn⟩
        obtain ⟨hne, hn⟩ := Descriptors.get_close_eq_some.mp hn
        exact hne (hread n hn)
      · simpa [pending, hparent] using hbytes
      · exact absurd ⟨_, hwrite⟩ (hdone hend).2
  | read =>
      simp only [Pipes.stepParent, hparent] at h
      simp only [SenderFds, hparent] at hsender
      obtain ⟨hopen, hwrite, honly, hread⟩ := hsender
      rw [hlost (by simp [hparent]), pending, hparent, List.append_nil, List.append_nil] at hbytes
      split at h
      · next b c rest hget hrest =>
          cases h
          obtain ⟨hsucc, hdrop⟩ := everySecond_take_succ (hfile.symm.trans hrest)
          refine ⟨hstdin, hfd, hends, ⟨hopen, hwrite, honly, hread⟩, hcounter,
            ⟨k + 1, [], hdrop.symm, ?_, fun _ => rfl⟩, hdone, nofun⟩
          rw [List.append_nil, hsucc, ← hbytes]
          rfl
      · cases h
        refine ⟨hstdin, hfd, hends, honly, hcounter, ⟨k, [], hfile, ?_, fun _ => rfl⟩, hdone, nofun⟩
        simpa [pending] using hbytes
  | write c =>
      simp only [Pipes.stepParent, hparent] at h
      simp only [SenderFds, hparent] at hsender
      obtain ⟨hopen, hwrite, honly, hread⟩ := hsender
      have hnotDone : s.child ≠ .done := fun hend => (hdone hend).2 ⟨_, hwrite⟩
      rw [hlost (by simp [hparent]), pending, hparent, List.append_nil] at hbytes
      rw [hwrite] at h
      dsimp only at h
      split at h
      · split at h
        · cases h
          refine ⟨hstdin, hfd, hends, ⟨hopen, hwrite, honly, hread⟩, hcounter,
            ⟨k, [], hfile, ?_, fun _ => rfl⟩, fun hend => absurd hend hnotDone, nofun⟩
          simpa [pending] using hbytes
        · cases h
      · next hreader =>
          cases h
          refine ⟨hstdin, hfd, hends, Descriptors.not_holds_nil _, hcounter,
            ⟨k, [c], hfile, ?_, fun hne => absurd rfl hne⟩, fun hend => absurd hend hnotDone,
            fun _ => ?_⟩
          · simpa [pending] using hbytes
          · by_contra hfailed
            exact hreader (hcounter.hasReader hnotDone hfailed)
  | closeWrite =>
      simp only [Pipes.stepParent, hparent] at h
      simp only [SenderFds, hparent] at hsender
      cases h
      have hnone : ¬Descriptors.Holds (Descriptors.close s.parentFds s.pipefd.2) .write := by
        rintro ⟨n, hn⟩
        obtain ⟨hne, hn⟩ := Descriptors.get_close_eq_some.mp hn
        exact hne (hsender n hn)
      refine ⟨hstdin, hfd, hends, hnone, hcounter,
        ⟨k, lost, hfile, ?_, fun _ => hlost (by simp [hparent])⟩,
        fun hend => ⟨(hdone hend).1, hnone⟩, nofun⟩
      simpa [pending, hparent] using hbytes
  | closeFile =>
      simp only [Pipes.stepParent, hparent] at h
      cases h
      have hnone := Descriptors.not_holds_nil PipesDesc.write
      refine ⟨hstdin, hfd, hends, hnone, hcounter,
        ⟨k, lost, hfile, ?_, fun _ => hlost (by simp [hparent])⟩,
        fun hend => ⟨(hdone hend).1, hnone⟩, nofun⟩
      simpa [pending, hparent] using hbytes
  | exited => simp [Pipes.stepParent, hparent] at h
  | killed => simp [Pipes.stepParent, hparent] at h

/-! ## Steps of the child -/

private theorem Sound.ofChild (hs : Sound file s) {child : Counter} {fds : Descriptors PipesDesc}
    (hcounter : CounterFds { s with child := child, childFds := fds })
    (hdone : child = .done → s.pipe = [] ∧ ¬Descriptors.Holds s.parentFds .write)
    (hkilled : s.parent = .killed → child = .failed) :
    Sound file { s with child := child, childFds := fds } :=
  ⟨hs.stdin, hs.fdRead, hs.ends, hs.sender, hcounter, hs.bytes, hdone, hkilled⟩

theorem Sound.stepChild (hs : Sound file s) (h : s.stepChild = some t) : Sound file t := by
  have hcounter := hs.counter
  have hstdin := hs.stdin
  have hends := hs.ends
  have hkilled : s.child ≠ .failed → s.parent ≠ .killed := fun hfailed hparent =>
    hfailed (hs.killed hparent)
  unfold CounterFds at hcounter
  cases hchild : s.child with
  | closeWrite =>
      simp only [Pipes.stepChild, hchild] at h
      simp only [hchild] at hcounter
      cases h
      refine hs.ofChild ⟨?_, ?_⟩ nofun fun hp => absurd hp (hkilled (by simp [hchild]))
      · exact (Descriptors.get_close_ne hends.symm).trans hcounter.1
      · rintro ⟨n, hn⟩
        obtain ⟨hne, hn⟩ := Descriptors.get_close_eq_some.mp hn
        exact hne (hcounter.2 n hn)
  | closeStdin =>
      simp only [Pipes.stepChild, hchild] at h
      simp only [hchild] at hcounter
      cases h
      refine hs.ofChild ⟨?_, ?_⟩ nofun fun hp => absurd hp (hkilled (by simp [hchild]))
      · exact (Descriptors.get_close_ne hstdin).trans hcounter.1
      · exact fun hw => hcounter.2 hw.of_close
  | dup =>
      simp only [Pipes.stepChild, hchild] at h
      simp only [hchild] at hcounter
      rw [hcounter.1] at h
      cases h
      refine hs.ofChild ⟨?_, ?_⟩ nofun fun hp => absurd hp (hkilled (by simp [hchild]))
      · exact Descriptors.get_put_self _ _ _
      · intro hw
        rcases hw.of_put with heq | hw
        · cases heq
        · exact hcounter.2 hw
  | closeRead =>
      simp only [Pipes.stepChild, hchild] at h
      simp only [hchild] at hcounter
      cases h
      refine hs.ofChild ⟨?_, ?_⟩ nofun fun hp => absurd hp (hkilled (by simp [hchild]))
      · exact (Descriptors.get_close_ne hstdin.symm).trans hcounter.1
      · exact fun hw => hcounter.2 hw.of_close
  | exec =>
      simp only [Pipes.stepChild, hchild] at h
      simp only [hchild] at hcounter
      cases h
      exact hs.ofChild hcounter nofun fun hp => absurd hp (hkilled (by simp [hchild]))
  | wc =>
      simp only [Pipes.stepChild, hchild] at h
      split at h
      · next hend =>
          cases h
          obtain ⟨-, hpipe, hwriter⟩ := hend
          refine hs.ofChild rfl (fun _ => ⟨hpipe, fun hw => ?_⟩)
            fun hp => absurd hp (hkilled (by simp [hchild]))
          rw [hasWriter_eq_true.mpr (.inl hw)] at hwriter
          cases hwriter
      · cases h
  | done => simp [Pipes.stepChild, hchild] at h
  | failed => simp [Pipes.stepChild, hchild] at h

theorem Sound.step (hs : Sound file s) (h : step capacity s a = some t) : Sound file t := by
  cases a with
  | parent => exact hs.stepParent h
  | child => exact hs.stepChild h
  | short =>
      simp only [Pipes.step, Option.ite_none_right_eq_some] at h
      obtain ⟨hparent, h⟩ := h
      cases h
      have hsender := hs.sender
      simp only [SenderFds, hparent] at hsender
      obtain ⟨k, lost, hfile, hbytes, hlost⟩ := hs.bytes
      refine ⟨hs.stdin, hs.fdRead, hs.ends, hsender.2.2.1, hs.counter,
        ⟨k, lost, hfile, ?_, fun _ => hlost (by simp [hparent])⟩, hs.done, nofun⟩
      simpa [pending, hparent] using hbytes
  | wc n =>
      simp only [Pipes.step, Option.ite_none_right_eq_some] at h
      obtain ⟨⟨hchild, -, -, -⟩, h⟩ := h
      cases h
      obtain ⟨k, lost, hfile, hbytes, hlost⟩ := hs.bytes
      refine ⟨hs.stdin, hs.fdRead, hs.ends, hs.sender, hs.counter, ⟨k, lost, hfile, ?_, hlost⟩,
        fun hend => ?_, hs.killed⟩
      · change s.received ++ s.pipe.take n ++ s.pipe.drop n ++ s.pending ++ lost = _
        rw [List.append_assoc s.received, List.take_append_drop]
        exact hbytes
      · rw [hchild] at hend
        cases hend
  | fail =>
      simp only [Pipes.step, Option.ite_none_left_eq_some] at h
      obtain ⟨-, h⟩ := h
      cases h
      exact hs.ofChild rfl nofun fun _ => rfl

/-! ## What `wc` reads -/

/-- The system calls that the child still makes, the reads of `wc` apart. -/
def counterWork : Counter → Nat
  | .closeWrite => 6
  | .closeStdin => 5
  | .dup => 4
  | .closeRead => 3
  | .exec => 2
  | .wc => 1
  | .done | .failed => 0

theorem stepChild_frame (h : s.stepChild = some t) :
    t.parent = s.parent ∧ t.file = s.file ∧ t.pipe = s.pipe ∧
      counterWork t.child < counterWork s.child := by
  cases hchild : s.child with
  | closeWrite | closeStdin | closeRead | exec =>
      simp only [stepChild, hchild] at h
      cases h
      exact ⟨rfl, rfl, rfl, by simp [counterWork]⟩
  | dup =>
      simp only [stepChild, hchild] at h
      split at h
      · cases h
        exact ⟨rfl, rfl, rfl, by simp [counterWork]⟩
      · cases h
        exact ⟨rfl, rfl, rfl, by simp [counterWork]⟩
  | wc =>
      simp only [stepChild, hchild, Option.ite_none_right_eq_some] at h
      obtain ⟨-, h⟩ := h
      cases h
      exact ⟨rfl, rfl, rfl, by simp [counterWork]⟩
  | done => simp [stepChild, hchild] at h
  | failed => simp [stepChild, hchild] at h

/-- The parent has stopped reading at the end of the file. -/
def AtEnd (s : Pipes) : Prop :=
  match s.parent with
  | .closeWrite | .closeFile | .exited => s.file.length < 2
  | .closeRead | .read | .write _ | .killed => True

theorem AtEnd.step (hend : s.AtEnd) (hs : Sound file s) (ha : a ≠ .short)
    (h : step capacity s a = some t) : t.AtEnd := by
  cases a with
  | short => exact absurd rfl ha
  | child =>
      obtain ⟨hparent, hfile, -⟩ := stepChild_frame h
      unfold AtEnd at hend ⊢
      rw [hparent, hfile]
      exact hend
  | wc n =>
      simp only [Pipes.step, Option.ite_none_right_eq_some] at h
      obtain ⟨-, h⟩ := h
      cases h
      exact hend
  | fail =>
      simp only [Pipes.step, Option.ite_none_left_eq_some] at h
      obtain ⟨-, h⟩ := h
      cases h
      exact hend
  | parent =>
      simp only [Pipes.step, stepParent] at h
      cases hparent : s.parent with
      | closeRead =>
          rw [hparent] at h
          cases h
          trivial
      | read =>
          have hsender := hs.sender
          simp only [SenderFds, hparent] at hsender
          rw [hparent] at h
          dsimp only at h
          split at h
          · cases h
            trivial
          · next hshort =>
              cases h
              change s.file.length < 2
              match hfile : s.file with
              | [] => exact Nat.zero_lt_two
              | [b] => exact Nat.one_lt_two
              | b :: c :: rest => exact absurd hfile (hshort b c rest hsender.1)
      | write c =>
          rw [hparent] at h
          dsimp only at h
          repeat' split at h
          all_goals cases h
          all_goals trivial
      | closeWrite =>
          rw [hparent] at h
          cases h
          simpa only [AtEnd, hparent] using hend
      | closeFile =>
          rw [hparent] at h
          cases h
          simpa only [AtEnd, hparent] using hend
      | exited =>
          rw [hparent] at h
          cases h
      | killed =>
          rw [hparent] at h
          cases h

theorem Sound.received (hs : Sound file s) (hdone : s.child = .done) (hend : s.AtEnd) :
    s.received = everySecond file := by
  obtain ⟨hpipe, hwriter⟩ := hs.done hdone
  have hsender := hs.sender
  obtain ⟨k, lost, hfile, hbytes, hlost⟩ := hs.bytes
  have hbehind : s.pending = [] ∧ s.file.length < 2 ∧ s.parent ≠ .killed := by
    unfold SenderFds at hsender
    unfold AtEnd at hend
    unfold pending
    cases hparent : s.parent with
    | closeRead =>
        rw [hparent] at hsender
        exact absurd ⟨_, hsender.2.1⟩ hwriter
    | read =>
        rw [hparent] at hsender
        exact absurd ⟨_, hsender.2.1⟩ hwriter
    | write c =>
        rw [hparent] at hsender
        exact absurd ⟨_, hsender.2.1⟩ hwriter
    | closeWrite =>
        rw [hparent] at hend
        exact ⟨rfl, hend, nofun⟩
    | closeFile =>
        rw [hparent] at hend
        exact ⟨rfl, hend, nofun⟩
    | exited =>
        rw [hparent] at hend
        exact ⟨rfl, hend, nofun⟩
    | killed =>
        rw [hs.killed hparent] at hdone
        cases hdone
  obtain ⟨hpending, hshort, hkilled⟩ := hbehind
  rw [hpipe, hpending, hlost hkilled, List.append_nil, List.append_nil, List.append_nil] at hbytes
  rw [hfile] at hshort
  rw [hbytes, ← everySecond_take_append file k, everySecond_of_short hshort, List.append_nil]

/-- At any time `wc` has read the second bytes of a beginning of the file, and at its end all of
them in their order. The parent breaks off only if the child has failed. -/
theorem wc_reads_every_second {inherited : Descriptors Nat} {as : List PipesAction}
    (h : run (step capacity) (start inherited file) as = some s) :
    s.received <+: everySecond file ∧
      (s.child = .done → .short ∉ as → ∀ i, s.received[i]? = file[2 * i + 1]?) ∧
      (s.parent = .killed → s.child = .failed) := by
  have hs : Sound file s := run_invariant (fun _ _ _ hs ht => hs.step ht) h (.start inherited file)
  refine ⟨?_, fun hdone hshort i => ?_, hs.killed⟩
  · obtain ⟨k, lost, -, hbytes, -⟩ := hs.bytes
    rw [← everySecond_take_append file k, ← hbytes, List.append_assoc, List.append_assoc,
      List.append_assoc]
    exact List.prefix_append _ _
  · have hboth : Sound file s ∧ s.AtEnd := by
      refine run_invariant_of_forall (I := fun s => Sound file s ∧ s.AtEnd)
        (fun s a t hs (ha : a ≠ .short) ht => ⟨hs.1.step ht, hs.2.step hs.1 ha ht⟩) h ?_
        ⟨.start inherited file, trivial⟩
      intro a ha heq
      rw [heq] at ha
      exact hshort ha
    rw [hs.received hdone hboth.2, everySecond_getElem?]

/-- Five bytes through a pipe with room for one. -/
theorem wc_reads_every_second_five :
    ∃ s, run (step 1) (start [some 0, some 1, some 2] [1, 2, 3, 4, 5])
        ([.child, .child, .child, .child, .child] ++
          [.parent, .parent, .parent, .parent, .wc 1, .parent, .parent, .parent, .wc 1, .child]) =
        some s ∧ s.received[1]? = some 4 := by
  have hdone : ((run (step 1) (start [some 0, some 1, some 2] [1, 2, 3, 4, 5])
      ([.child, .child, .child, .child, .child] ++
        [.parent, .parent, .parent, .parent, .wc 1, .parent, .parent, .parent, .wc 1, .child])).map
      Pipes.child) = some .done := by decide
  obtain ⟨s, hs, hend⟩ := Option.map_eq_some_iff.mp hdone
  exact ⟨s, hs, (wc_reads_every_second hs).2.1 hend (by decide) 1⟩

end Pipes

end SyssoftLabs.Lab5
