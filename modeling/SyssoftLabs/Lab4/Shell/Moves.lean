import SyssoftLabs.Lab4.Shell.Model

/-!
# What a step of the shell can do

One constructor for each kind of step of a process `p` with the number `pid`, with what is tested
before it, the process behind it and the state behind it.
-/

namespace SyssoftLabs.Lab4

open SyssoftLabs.Framework

inductive Move (W : World) (s : Sys) (pid : Nat) (p : Proc) : Event → Proc → Sys → Prop
  | killed : p.pc ≠ .exited → Move W s pid p .killed p.exit (s.put pid p.exit)
  | term {p'} : p.pc.heedsTerm = true → p' = { p with pc := .leaving, pending := false } →
      Move W s pid p .term p' (s.put pid p')
  | leave : p.pc.mayLeave = true →
      Move W s pid p .leave (p.goto .leaving) (s.put pid (p.goto .leaving))
  | reject {lines} : p.pc = .readLine → s.lines = none :: lines →
      Move W s pid p .go p { s with lines := lines }
  | accept {cmds lines p'} : p.pc = .readLine → s.lines = some cmds :: lines →
      p' = { p with commands := cmds, i := 0, pc := .launch } →
      Move W s pid p .go p' { s.put pid p' with lines := lines }
  | lineDone : p.pc = .launch → p.commands[p.i]? = none →
      Move W s pid p .go (p.goto .readLine) (s.put pid (p.goto .readLine))
  | plain {c p'} : p.pc = .launch → p.commands[p.i]? = some c → c.out = 1 →
      p' = { p with didPipe := false, pc := .forkExec } →
      Move W s pid p .go p' (s.put pid p')
  | pipe {c p'} : p.pc = .launch → p.commands[p.i]? = some c → c.out ≠ 1 →
      p' = Sys.makePipe p s.pipes.length →
      Move W s pid p .go p' { s.put pid p' with pipes := s.pipes ++ [0] }
  | pipeFailed {c} : p.pc = .launch → p.commands[p.i]? = some c → c.out ≠ 1 →
      Move W s pid p .fail (p.goto .leaving) (s.put pid (p.goto .leaving))
  | noWords {c} : p.pc = .forkExec → p.commands[p.i]? = some c → c.argc = 0 →
      Move W s pid p .go (p.goto .returned) (s.put pid (p.goto .returned))
  | fork {c pc} : p.pc = .forkExec → p.commands[p.i]? = some c → c.argc ≠ 0 →
      pc = (if c.bg then .returned else .waiting s.procs.length) →
      Move W s pid p .go (p.goto pc) (s.fork pid p c)
  | forkFailed {c} : p.pc = .forkExec → p.commands[p.i]? = some c → c.argc ≠ 0 →
      Move W s pid p .fail (p.goto .returned) (s.put pid (p.goto .returned))
  | branch {stage c e p'} : p.pc = .child stage → p.commands[p.i]? = some c →
      p.branch c stage e = some p' → Move W s pid p e p' (s.put pid p')
  | exec {c pc} : p.pc = .child .run → p.commands[p.i]? = some c → c.builtin = none →
      pc = .replaced (W.writes p.i) → Move W s pid p .go (p.goto pc) (s.put pid (p.goto pc))
  | execFailed {c} : p.pc = .child .run → p.commands[p.i]? = some c → c.builtin = none →
      Move W s pid p .fail (p.goto .returned) (s.put pid (p.goto .returned))
  | kExit {c} : p.pc = .child .run → p.commands[p.i]? = some c → c.builtin = some .exit →
      Move W s pid p .go p.exit ((s.terminate p.parent).put pid p.exit)
  | builtin {c b} : p.pc = .child .run → p.commands[p.i]? = some c → c.builtin = some b →
      b ≠ .exit → Move W s pid p .go (p.goto .returned) (s.put pid (p.goto .returned))
  | waited {child} : p.pc = .waiting child →
      (s.procs[child]?).map Proc.pc = some .exited →
      Move W s pid p .go (p.goto .returned) (s.put pid (p.goto .returned))
  | next : p.pc = .returned → Move W s pid p .go (Sys.next p) (s.put pid (Sys.next p))
  | left : p.pc = .leaving → Move W s pid p .go p.exit (s.put pid p.exit)
  | write {left pc} : p.pc = .replaced (left + 1) →
      (∀ k, Descriptors.get p.fds 1 ≠ some (.write k)) → pc = .replaced left →
      Move W s pid p .write (p.goto pc) (s.put pid (p.goto pc))
  | brokenPipe {left k} : p.pc = .replaced (left + 1) →
      Descriptors.get p.fds 1 = some (.write k) → s.hasReader k = false →
      Move W s pid p .write p.exit (s.put pid p.exit)
  | writePipe {left k n pc} : p.pc = .replaced (left + 1) →
      Descriptors.get p.fds 1 = some (.write k) → s.pipes[k]? = some n → n < W.capacity →
      pc = .replaced left →
      Move W s pid p .write (p.goto pc)
        { s.put pid (p.goto pc) with pipes := s.pipes.set k (n + 1) }
  | readPipe {left k n} : p.pc = .replaced left → Descriptors.get p.fds 0 = some (.read k) →
      s.pipes[k]? = some (n + 1) → Move W s pid p .read p { s with pipes := s.pipes.set k n }
  | ended : p.pc = .replaced 0 → Move W s pid p .exit p.exit (s.put pid p.exit)

variable {W : World} {s t : Sys} {pid : Nat} {p : Proc} {e : Event}

private theorem readLine_move (hpc : p.pc = .readLine) (h : s.readLine pid p e = some t) :
    ∃ p', Move W s pid p e p' t := by
  cases e with simp only [Sys.readLine, reduceCtorEq] at h
  | go =>
      split at h
      · cases h
      · next hl =>
          cases h
          exact ⟨_, .reject hpc hl⟩
      · next hl =>
          cases h
          exact ⟨_, .accept hpc hl rfl⟩

private theorem launch_move (hpc : p.pc = .launch) (h : s.launch pid p e = some t) :
    ∃ p', Move W s pid p e p' t := by
  unfold Sys.launch at h
  split at h
  · next hc =>
      cases h
      exact ⟨_, .lineDone hpc hc⟩
  · next c hc =>
      split at h <;> cases h
      · next hout => exact ⟨_, .plain hpc hc hout rfl⟩
      · next hout => exact ⟨_, .pipe hpc hc hout rfl⟩
  · next c hc =>
      split at h <;> cases h
      next hout => exact ⟨_, .pipeFailed hpc hc hout⟩
  · cases h

private theorem forkExec_move (hpc : p.pc = .forkExec) (h : s.forkExec pid p e = some t) :
    ∃ p', Move W s pid p e p' t := by
  unfold Sys.forkExec at h
  split at h
  · next c hc =>
      cases h
      split
      · next hargc => exact ⟨_, .noWords hpc hc hargc⟩
      · next hargc => exact ⟨_, .fork hpc hc hargc rfl⟩
  · next c hc =>
      split at h <;> cases h
      next hargc => exact ⟨_, .forkFailed hpc hc hargc⟩
  · cases h

private theorem finish_move {c : Cmd} (hpc : p.pc = .child .run) (hc : p.commands[p.i]? = some c)
    (h : s.finish W pid p c e = some t) : ∃ p', Move W s pid p e p' t := by
  unfold Sys.finish at h
  split at h
  · next hb =>
      cases h
      exact ⟨_, .exec hpc hc hb rfl⟩
  · next hb =>
      cases h
      exact ⟨_, .execFailed hpc hc hb⟩
  · next hb =>
      cases h
      exact ⟨_, .kExit hpc hc hb⟩
  · next b hne hb =>
      cases h
      exact ⟨_, .builtin hpc hc hb hne⟩
  · cases h

private theorem child_move {stage : Stage} (hpc : p.pc = .child stage)
    (h : s.child W pid p stage e = some t) : ∃ p', Move W s pid p e p' t := by
  unfold Sys.child at h
  split at h
  · cases h
  · next c hc =>
      split at h
      · next hrun =>
          subst hrun
          exact finish_move hpc hc h
      · obtain ⟨p', hp', rfl⟩ := Option.map_eq_some_iff.mp h
        exact ⟨_, .branch hpc hc hp'⟩

private theorem write_move {left : Nat} (hpc : p.pc = .replaced (left + 1))
    (h : s.write W pid p left = some t) : ∃ p', Move W s pid p .write p' t := by
  unfold Sys.write at h
  split at h
  · next k hk =>
      split at h
      · split at h
        · cases h
        · next n hn =>
            split at h <;> cases h
            next hlt => exact ⟨_, .writePipe hpc hk hn hlt rfl⟩
      · next hreader =>
          cases h
          exact ⟨_, .brokenPipe hpc hk (by simpa using hreader)⟩
  · next hk =>
      cases h
      exact ⟨_, .write hpc hk rfl⟩

private theorem program_move {left : Nat} (hpc : p.pc = .replaced left)
    (h : s.program W pid p left e = some t) : ∃ p', Move W s pid p e p' t := by
  unfold Sys.program at h
  split at h
  · exact write_move hpc h
  · unfold Sys.read at h
    split at h
    · next k hk =>
        split at h
        · next n hn =>
            cases h
            exact ⟨_, .readPipe hpc hk hn⟩
        · cases h
    · cases h
  · cases h
    exact ⟨_, .ended hpc⟩
  · cases h

private theorem advance_move (h : s.advance W pid p e = some t) : ∃ p', Move W s pid p e p' t := by
  unfold Sys.advance at h
  split at h
  · next hpc => exact readLine_move hpc h
  · next hpc => exact launch_move hpc h
  · next hpc => exact forkExec_move hpc h
  · next stage hpc => exact child_move hpc h
  · next child hpc =>
      unfold Sys.wait at h
      split at h
      · split at h <;> cases h
        next hchild => exact ⟨_, .waited hpc hchild⟩
      · cases h
  · next hpc =>
      split at h <;> cases h
      next he =>
        subst he
        exact ⟨_, .next hpc⟩
  · next hpc =>
      split at h <;> cases h
      next he =>
        subst he
        exact ⟨_, .left hpc⟩
  · next left hpc => exact program_move hpc h
  · cases h

/-- Every step is a move of one process. -/
theorem step_move {a : Nat × Event} (h : step W s a = some t) :
    ∃ p p', s.procs[a.1]? = some p ∧ Move W s a.1 p a.2 p' t := by
  obtain ⟨pid, e⟩ := a
  unfold step at h
  cases hp : s.procs[pid]? with
  | none => rw [hp] at h; cases h
  | some p =>
      rw [hp] at h
      have hmove : ∃ p', Move W s pid p e p' t := by
        cases e with
        | killed =>
            simp only at h
            split at h <;> cases h
            next hpc => exact ⟨_, .killed hpc⟩
        | term =>
            simp only [Bool.and_eq_true] at h
            split at h <;> cases h
            next hpc => exact ⟨_, .term hpc.1 rfl⟩
        | leave =>
            simp only at h
            split at h <;> cases h
            next hpc => exact ⟨_, .leave hpc⟩
        | go | fail | write | read | exit => exact advance_move h
      obtain ⟨p', hmove⟩ := hmove
      exact ⟨p, p', rfl, hmove⟩

theorem step_advance (hp : s.procs[pid]? = some p) (e : Event) (hkilled : e ≠ .killed)
    (hterm : e ≠ .term) (hleave : e ≠ .leave) :
    step W s (pid, e) = s.advance W pid p e := by
  rw [step, hp]
  cases e with
  | killed => exact absurd rfl hkilled
  | term => exact absurd rfl hterm
  | leave => exact absurd rfl hleave
  | go | fail | write | read | exit => rfl

/-! ## The other processes -/

theorem Sys.getElem?_put {q p' : Proc} (hp : s.procs[pid]? = some q) (x : Nat) :
    (s.put pid p').procs[x]? = if x = pid then some p' else s.procs[x]? := by
  have hlt : pid < s.procs.length := (List.getElem?_eq_some_iff.mp hp).1
  by_cases hx : x = pid
  · subst hx
    rw [if_pos rfl, Sys.put, List.getElem?_set_self hlt]
  · rw [if_neg hx, Sys.put, List.getElem?_set_ne (Ne.symm hx)]

theorem Sys.getElem?_fork {q : Proc} {c : Cmd} (hp : s.procs[pid]? = some q) (x : Nat) :
    (s.fork pid p c).procs[x]? =
      if x = pid then some (p.goto (if c.bg then .returned else .waiting s.procs.length))
      else if x = s.procs.length then some (p.forked pid) else s.procs[x]? := by
  have hlt : pid < s.procs.length := (List.getElem?_eq_some_iff.mp hp).1
  have hlength : ∀ q, (s.procs.set pid q).length = s.procs.length := fun q => List.length_set ..
  by_cases hx : x = pid
  · subst hx
    rw [if_pos rfl, Sys.fork, List.getElem?_append_left (by rwa [hlength]),
      List.getElem?_set_self hlt]
  · rw [if_neg hx, Sys.fork]
    by_cases hnew : x = s.procs.length
    · rw [if_pos hnew, hnew, List.getElem?_append_right (Nat.le_of_eq (hlength _)), hlength,
        Nat.sub_self]
      rfl
    · rw [if_neg hnew]
      rcases Nat.lt_or_ge x s.procs.length with h | h
      · rw [List.getElem?_append_left (by rwa [hlength]), List.getElem?_set_ne (Ne.symm hx)]
      · have hlen : (s.procs.set pid q ++ [p.forked pid]).length ≤ x := by
          rw [List.length_append, hlength, List.length_singleton]
          omega
        rw [List.getElem?_eq_none h, List.getElem?_eq_none (by simpa using hlen)]

private theorem Sys.getElem?_terminate (s : Sys) (q x : Nat) :
    ∃ b : Proc → Bool,
      (s.terminate q).procs[x]? = (s.procs[x]?).map fun p => { p with pending := b p } := by
  have hsame : (s.procs[x]?).map (fun p => { p with pending := p.pending }) = s.procs[x]? :=
    Option.map_id'
  unfold Sys.terminate
  split
  · exact ⟨Proc.pending, hsame.symm⟩
  · next p hp =>
      split
      · exact ⟨Proc.pending, hsame.symm⟩
      · by_cases hx : x = q
        · subst hx
          exact ⟨fun _ => true, by rw [getElem?_put hp, if_pos rfl, hp]; rfl⟩
        · exact ⟨Proc.pending, by rw [getElem?_put hp, if_neg hx, hsame]⟩

variable {p' : Proc}

theorem Move.own (h : Move W s pid p e p' t) (hp : s.procs[pid]? = some p) :
    t.procs[pid]? = some p' := by
  have hput : ∀ q, (s.put pid q).procs[pid]? = some q := by
    intro q
    rw [Sys.getElem?_put hp, if_pos rfl]
  cases h with
  | reject | readPipe => exact hp
  | fork hpc hc hargc hpc' =>
      rw [Sys.getElem?_fork hp, if_pos rfl, hpc']
  | kExit =>
      obtain ⟨b, hb⟩ := s.getElem?_terminate p.parent pid
      rw [hp] at hb
      rw [Sys.getElem?_put hb, if_pos rfl]
  | _ => exact hput _

/-- A step changes nothing of the other processes, except that a SIGTERM may become pending. -/
theorem Move.other {x : Nat} {q : Proc} (h : Move W s pid p e p' t) (hp : s.procs[pid]? = some p)
    (hx : x ≠ pid) (hq : s.procs[x]? = some q) :
    ∃ b, t.procs[x]? = some { q with pending := b } := by
  have hput : ∀ p', ∃ b, (s.put pid p').procs[x]? = some { q with pending := b } := by
    intro p'
    rw [Sys.getElem?_put hp, if_neg hx, hq]
    exact ⟨q.pending, rfl⟩
  cases h with
  | reject | readPipe => exact ⟨q.pending, hq⟩
  | fork =>
      have hlt : x < s.procs.length := (List.getElem?_eq_some_iff.mp hq).1
      rw [Sys.getElem?_fork hp, if_neg hx, if_neg (Nat.ne_of_lt hlt), hq]
      exact ⟨q.pending, rfl⟩
  | kExit =>
      obtain ⟨b, hb⟩ := s.getElem?_terminate p.parent pid
      rw [hp] at hb
      rw [Sys.getElem?_put hb, if_neg hx]
      obtain ⟨b, hb⟩ := s.getElem?_terminate p.parent x
      rw [hq] at hb
      exact ⟨b q, hb⟩
  | _ => exact hput _

/-- The only process a step adds is the child of `fork`. -/
theorem Move.new {x : Nat} {q : Proc} (h : Move W s pid p e p' t) (hp : s.procs[pid]? = some p)
    (hx : s.procs[x]? = none) (hq : t.procs[x]? = some q) :
    p.pc = .forkExec ∧ x = s.procs.length ∧ q = p.forked pid ∧
      ∃ c, p.commands[p.i]? = some c := by
  have hne : x ≠ pid := by
    rintro rfl
    rw [hp] at hx
    cases hx
  have hput : ∀ p', (s.put pid p').procs[x]? = none := by
    intro p'
    rw [Sys.getElem?_put hp, if_neg hne, hx]
  cases h with
  | reject | readPipe => exact absurd (hx.symm.trans hq) (Option.some_ne_none q).symm
  | fork hpc hc =>
      rw [Sys.getElem?_fork hp, if_neg hne] at hq
      split at hq
      · next hlen => exact ⟨hpc, hlen, (Option.some.inj hq).symm, _, hc⟩
      · exact absurd (hx.symm.trans hq) (Option.some_ne_none q).symm
  | kExit =>
      obtain ⟨b, hb⟩ := s.getElem?_terminate p.parent pid
      rw [hp] at hb
      rw [Sys.getElem?_put hb, if_neg hne] at hq
      obtain ⟨b, hb⟩ := s.getElem?_terminate p.parent x
      rw [hx] at hb
      exact absurd (hb.symm.trans hq) (Option.some_ne_none q).symm
  | _ => exact absurd ((hput _).symm.trans hq) (Option.some_ne_none q).symm

theorem Move.origin {x : Nat} {q' : Proc} (h : Move W s pid p e p' t)
    (hp : s.procs[pid]? = some p) (hq' : t.procs[x]? = some q') :
    (x = pid ∧ q' = p') ∨
      (x ≠ pid ∧ ∃ q b, s.procs[x]? = some q ∧ q' = { q with pending := b }) ∨
      (x = s.procs.length ∧ p.pc = .forkExec ∧ q' = p.forked pid ∧
        ∃ c, p.commands[p.i]? = some c) := by
  by_cases hx : x = pid
  · subst hx
    have hown := h.own hp
    exact Or.inl ⟨rfl, Option.some.inj (hq'.symm.trans hown)⟩
  · cases hq : s.procs[x]? with
    | some q =>
        obtain ⟨b, hb⟩ := h.other hp hx hq
        exact Or.inr (Or.inl ⟨hx, q, b, rfl, Option.some.inj (hq'.symm.trans hb)⟩)
    | none =>
        obtain ⟨hpc, hlen, heq, hc⟩ := h.new hp hq hq'
        exact Or.inr (Or.inr ⟨hlen, hpc, heq, hc⟩)

/-! ## The branch of the child -/

/-- What the second table refers to, files apart, the first one does too. -/
def Inherits (fds fds' : Descriptors Desc) : Prop :=
  ∀ d, Descriptors.Holds fds' d → Descriptors.Holds fds d ∨ ∃ name, d = .file name

theorem Inherits.refl (fds : Descriptors Desc) : Inherits fds fds := fun _ hd => Or.inl hd

theorem Inherits.close {fds fds' : Descriptors Desc} (h : Inherits fds fds') (n : Nat) :
    Inherits fds (Descriptors.close fds' n) :=
  fun d hd => h d hd.of_close

theorem Inherits.put {fds fds' : Descriptors Desc} {d : Desc} (h : Inherits fds fds') (n : Nat)
    (hd : Descriptors.Holds fds' d) : Inherits fds (Descriptors.put fds' n d) := by
  intro d' hd'
  rcases hd'.of_put with rfl | hd'
  · exact h _ hd
  · exact h d' hd'

theorem duplicate_keeps {q : Proc} {old new : Nat} (h : p.duplicate old new = some q) :
    ∃ fds, q = { p with fds := fds } ∧ Inherits p.fds fds := by
  unfold Proc.duplicate at h
  split at h
  · cases h
    exact ⟨p.fds, rfl, .refl _⟩
  · obtain ⟨d, hd, rfl⟩ := Option.map_eq_some_iff.mp h
    exact ⟨_, rfl, (Inherits.refl _).put new ⟨old, hd⟩⟩

private theorem closeEnds_keeps {fds : Descriptors Desc} (p : Proc) (c : Cmd)
    (h : Inherits fds p.fds) :
    ∃ fds', p.closeEnds c = { p with fds := fds' } ∧ Inherits fds fds' := by
  refine ⟨_, rfl, ?_⟩
  split <;> split
  · exact h
  · exact h.close _
  · exact h.close _
  · exact (h.close _).close _

private theorem moveFile_keeps {q : Proc} {fd target : Nat} (h : p.moveFile fd target = some q) :
    ∃ fds, q = { p with fds := fds } ∧ Inherits p.fds fds := by
  obtain ⟨d, hd, rfl⟩ := Option.map_eq_some_iff.mp h
  exact ⟨_, rfl, ((Inherits.refl _).put target ⟨fd, hd⟩).close fd⟩

private theorem openFile_keeps {q : Proc} {name : Option CStr} {stage : Nat → Stage}
    (h : p.openFile name stage = some q) :
    ∃ fds fd, q = { p with fds := fds, pc := .child (stage fd) } ∧ Inherits p.fds fds := by
  obtain ⟨name, -, rfl⟩ := Option.map_eq_some_iff.mp h
  refine ⟨_, _, rfl, fun d hd => ?_⟩
  rcases hd.of_put with rfl | hd
  · exact Or.inr ⟨name, rfl⟩
  · exact Or.inl hd

/-- The most steps a child has left in its branch. -/
def Stage.stepsLeft : Stage → Nat
  | .dupIn => 8
  | .dupOut => 7
  | .openOut => 6
  | .moveOut _ => 5
  | .openIn => 4
  | .moveIn _ => 3
  | .run => 2

/-- In its branch a child changes only its descriptors. It goes on to a later stage, returns when a
system call fails, and ends when the `dup2` of its standard output fails. -/
theorem branch_cases {c : Cmd} {stage : Stage} (h : p.branch c stage e = some p') :
    stage ≠ .run ∧ ∃ fds pc, p' = { p with fds := fds, pc := pc } ∧ Inherits p.fds fds ∧
      (e = .fail ∧ stage ≠ .dupOut ∧ pc = .returned ∨
        e = .fail ∧ stage = .dupOut ∧ pc = .leaving ∨
        e = .go ∧ ∃ stage', pc = .child stage' ∧ stage'.stepsLeft < stage.stepsLeft) := by
  have hrefl := Inherits.refl p.fds
  unfold Proc.branch at h
  split at h
  · obtain ⟨q, hq, rfl⟩ := Option.map_eq_some_iff.mp h
    obtain ⟨fds, rfl, hfds⟩ := duplicate_keeps hq
    exact ⟨nofun, fds, _, rfl, hfds, .inr (.inr ⟨rfl, _, rfl, by decide⟩)⟩
  · split at h <;> cases h
    exact ⟨nofun, _, _, rfl, hrefl, .inl ⟨rfl, nofun, rfl⟩⟩
  · obtain ⟨q, hq, rfl⟩ := Option.map_eq_some_iff.mp h
    obtain ⟨fds, rfl, hfds⟩ := duplicate_keeps hq
    obtain ⟨fds', hclose, hfds'⟩ := closeEnds_keeps { p with fds := fds } c hfds
    rw [hclose]
    exact ⟨nofun, fds', _, rfl, hfds', .inr (.inr ⟨rfl, _, rfl, by decide⟩)⟩
  · split at h <;> cases h
    exact ⟨nofun, _, _, rfl, hrefl, .inr (.inl ⟨rfl, rfl, rfl⟩)⟩
  · split at h
    · obtain ⟨fds, fd, rfl, hfds⟩ := openFile_keeps h
      exact ⟨nofun, fds, _, rfl, hfds, .inr (.inr ⟨rfl, _, rfl, Nat.le_refl _⟩)⟩
    · cases h
      exact ⟨nofun, _, _, rfl, hrefl, .inr (.inr ⟨rfl, _, rfl, by decide⟩)⟩
  · split at h <;> cases h
    exact ⟨nofun, _, _, rfl, hrefl, .inl ⟨rfl, nofun, rfl⟩⟩
  · obtain ⟨q, hq, rfl⟩ := Option.map_eq_some_iff.mp h
    obtain ⟨fds, rfl, hfds⟩ := moveFile_keeps hq
    exact ⟨nofun, fds, _, rfl, hfds, .inr (.inr ⟨rfl, _, rfl, Nat.le_refl _⟩)⟩
  · cases h
    exact ⟨nofun, _, _, rfl, hrefl, .inl ⟨rfl, nofun, rfl⟩⟩
  · split at h
    · obtain ⟨fds, fd, rfl, hfds⟩ := openFile_keeps h
      exact ⟨nofun, fds, _, rfl, hfds, .inr (.inr ⟨rfl, _, rfl, Nat.le_refl _⟩)⟩
    · cases h
      exact ⟨nofun, _, _, rfl, hrefl, .inr (.inr ⟨rfl, _, rfl, by decide⟩)⟩
  · split at h <;> cases h
    exact ⟨nofun, _, _, rfl, hrefl, .inl ⟨rfl, nofun, rfl⟩⟩
  · obtain ⟨q, hq, rfl⟩ := Option.map_eq_some_iff.mp h
    obtain ⟨fds, rfl, hfds⟩ := moveFile_keeps hq
    exact ⟨nofun, fds, _, rfl, hfds, .inr (.inr ⟨rfl, _, rfl, Nat.le_refl _⟩)⟩
  · cases h
    exact ⟨nofun, _, _, rfl, hrefl, .inl ⟨rfl, nofun, rfl⟩⟩
  · cases h

end SyssoftLabs.Lab4
