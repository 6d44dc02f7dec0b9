import SyssoftLabs.Lab4.Parser.Background
import SyssoftLabs.Lab4.Shell.Leaks

/-!
# Who holds the write end of a pipe

The shell holds the write end of a pipe only in the round in which it made it, and the child it
forks in that round moves the write end to its standard output. Once the round is over and the
child runs its program, the reader of the pipe waits for nobody else.
-/

namespace SyssoftLabs.Lab4

open SyssoftLabs.Framework

/-- Before the ends of the pipe are closed in the child. -/
def Pc.early : Pc → Bool
  | .child .dupIn | .child .dupOut => true
  | _ => false

/-- Behind that, or in the program. -/
def Pc.late : Pc → Bool
  | .child .dupIn | .child .dupOut => false
  | .child _ | .replaced _ => true
  | _ => false

/-- With the opened file of a redirection at hand. -/
def Stage.moves : Stage → Bool
  | .moveOut _ | .moveIn _ => true
  | _ => false

/-- The round in which the pipe was made forked the process. -/
def Owns (j : Journal) (k y : Nat) : Prop := (k, y) ∈ j.finished ∨ j.current = some (k, y)

/-- The write ends a forked process holds are those of its own pipes, and it holds them at the
number that its place in the branch tells. -/
structure Forked (owns : Nat → Prop) (q : Proc) : Prop where
  outside : q.pc.inMain = false
  held : ∀ n k, Descriptors.get q.fds n = some (.write k) →
    owns k ∧ (q.pc.early = true → n = q.pipefd.2) ∧ (q.pc.late = true → n = 1)
  source : q.pc = .child .dupIn → ∀ c, q.commands[q.i]? = some c → c.input ≠ 0 →
    ∀ k, Descriptors.get q.fds c.input ≠ some (.write k)
  piped : ∀ k stage, owns k → q.pc = .child stage → q.didPipe = true ∧ stage.moves = false
  early : ∀ k, owns k → q.pc.early = true → Descriptors.get q.fds q.pipefd.2 = some (.write k)
  late : ∀ k, owns k → q.pc.late = true → Descriptors.get q.fds 1 = some (.write k)
  ended : q.pc = .exited → q.fds = []

variable {W : World} {s t : Sys} {pid : Nat} {p p' q q' : Proc} {e : Event} {c : Cmd} {j : Journal}
  {owns : Nat → Prop}

private theorem Pc.not_early {pc : Pc} (h : pc.late = true) : pc.early = false := by
  cases pc with
  | child stage =>
      cases stage with
      | dupIn | dupOut => cases h
      | _ => rfl
  | _ => rfl

private theorem Pc.late_outside {pc : Pc} (h : pc.late = true) : pc.inMain = false := by
  cases pc with
  | child | replaced => rfl
  | _ => cases h

/-! ## The branch of a forked process -/

theorem Forked.dupIn (h : Forked owns p) (hsound : Sound p) (hpc : p.pc = .child .dupIn)
    (hc : p.commands[p.i]? = some c) (hb : p.branch c .dupIn .go = some p') : Forked owns p' := by
  have hserving : Serving p c := hsound.serving_here (hpc ▸ rfl) hc
  obtain ⟨r, hr, rfl⟩ := Option.map_eq_some_iff.mp hb
  have hfds : ∃ fds, r = { p with fds := fds } ∧
      (∀ n k, Descriptors.get fds n = some (.write k) →
        Descriptors.get p.fds n = some (.write k)) ∧
      ∀ n, n ≠ 0 → Descriptors.get fds n = Descriptors.get p.fds n := by
    unfold Proc.duplicate at hr
    split at hr
    · cases hr
      exact ⟨p.fds, rfl, fun n k hn => hn, fun n _ => rfl⟩
    · next hin =>
        obtain ⟨d, hd, rfl⟩ := Option.map_eq_some_iff.mp hr
        refine ⟨_, rfl, fun n k hn => ?_, fun n hn => Descriptors.get_put_ne d hn⟩
        by_cases hzero : n = 0
        · subst hzero
          rw [Descriptors.get_put_self] at hn
          exact absurd (hd.trans hn) (h.source hpc c hc hin k)
        · rwa [Descriptors.get_put_ne d hzero] at hn
  obtain ⟨fds, rfl, hheld, hkeep⟩ := hfds
  refine ⟨rfl, ?_, nofun, ?_, ?_, nofun, nofun⟩
  · intro n k hn
    obtain ⟨hown, hearly, -⟩ := h.held n k (hheld n k hn)
    exact ⟨hown, fun _ => hearly (hpc ▸ rfl), nofun⟩
  · intro k stage hown hstage
    cases hstage
    exact ⟨(h.piped k _ hown hpc).1, rfl⟩
  · intro k hown _
    have hend := h.early k hown (hpc ▸ rfl)
    have hdid := (h.piped k _ hown hpc).1
    rw [hserving.did] at hdid
    have hne : p.pipefd.2 ≠ 0 := by
      have := (hserving.ends hdid).2
      omega
    exact (hkeep _ hne).trans hend

private theorem closeEnds_held {n : Nat} {d : Desc}
    (h : Descriptors.get (q.closeEnds c).fds n = some d) :
    Descriptors.get q.fds n = some d ∧ (c.out ≠ 1 → n ≠ q.pipefd.2) := by
  have hfirst : Descriptors.get
      (if c.input = 0 then q.fds else Descriptors.close q.fds q.pipefd.1) n = some d →
        Descriptors.get q.fds n = some d := by
    intro hd
    split at hd
    · exact hd
    · exact (Descriptors.get_close_eq_some.mp hd).2
  by_cases hout : c.out = 1
  · simp only [Proc.closeEnds, if_pos hout] at h
    exact ⟨hfirst h, fun hne => absurd hout hne⟩
  · simp only [Proc.closeEnds, if_neg hout] at h
    obtain ⟨hne, hd⟩ := Descriptors.get_close_eq_some.mp h
    exact ⟨hfirst hd, fun _ => hne⟩

theorem Forked.dupOut (h : Forked owns p) (hsound : Sound p) (hpc : p.pc = .child .dupOut)
    (hc : p.commands[p.i]? = some c) (hb : p.branch c .dupOut .go = some p') :
    Forked owns p' := by
  have hserving : Serving p c := hsound.serving_here (hpc ▸ rfl) hc
  obtain ⟨r, hr, rfl⟩ := Option.map_eq_some_iff.mp hb
  have hearly : p.pc.early = true := hpc ▸ rfl
  have hpiped : ∀ k, owns k → c.piped = true := by
    intro k hown
    rw [← hserving.did]
    exact (h.piped k _ hown hpc).1
  unfold Proc.duplicate at hr
  split at hr
  · next hout =>
      cases hr
      have hplain : ∀ k, ¬ owns k := by
        intro k hown
        have hend := (hserving.ends (hpiped k hown)).2
        have heq := hserving.out
        rw [hpiped k hown, if_pos rfl, hout] at heq
        omega
      refine ⟨rfl, ?_, nofun, fun k _ hown => absurd hown (hplain k), nofun,
        fun k hown => absurd hown (hplain k), nofun⟩
      intro n k hn
      obtain ⟨hn', -⟩ := closeEnds_held hn
      exact absurd (h.held n k hn').1 (hplain k)
  · next hout =>
      obtain ⟨d, hd, rfl⟩ := Option.map_eq_some_iff.mp hr
      have heq : c.out = p.pipefd.2 := by
        have heq := hserving.out
        cases hp : c.piped with
        | true => simpa [hp] using heq
        | false => exact absurd (by simpa [hp] using heq) hout
      refine ⟨rfl, ?_, nofun, ?_, nofun, ?_, nofun⟩
      · intro n k hn
        obtain ⟨hn', hne⟩ := closeEnds_held hn
        by_cases hone : n = 1
        · subst hone
          have hd' : d = .write k := by simpa using hn'
          rw [hd'] at hd
          exact ⟨(h.held _ k hd).1, nofun, fun _ => rfl⟩
        · have hfds : Descriptors.get p.fds n = some (.write k) := by
            simpa [Descriptors.get_put, hone] using hn'
          exact absurd ((h.held n k hfds).2.1 hearly) (hne hout)
      · intro k stage hown hstage
        cases hstage
        exact ⟨(h.piped k _ hown hpc).1, rfl⟩
      · intro k hown _
        obtain ⟨hr₁, hw₁⟩ := hserving.ends (hpiped k hown)
        have hend := h.early k hown hearly
        rw [← heq, hd] at hend
        have hone : 1 ≠ p.pipefd.1 := by omega
        have hone' : 1 ≠ p.pipefd.2 := by omega
        have hkeep := closeEnds_get (c := c)
          (p := { p with fds := Descriptors.put p.fds 1 d }) hone hone'
        rw [Descriptors.get_put_self] at hkeep
        exact hkeep.trans hend

private theorem Forked.goto_late {stage : Stage} {fds : Descriptors Desc} {pc : Pc}
    (h : Forked owns p)
    (hpc : p.pc = .child stage) (hlate : p.pc.late = true) (hpc' : pc.late = true)
    (hheld : ∀ n k, Descriptors.get fds n = some (.write k) →
      Descriptors.get p.fds n = some (.write k))
    (hmine : ∀ k, owns k → Descriptors.get fds 1 = Descriptors.get p.fds 1)
    (hmoves : ∀ k stage', owns k → pc = .child stage' → stage'.moves = false) :
    Forked owns { p with fds := fds, pc := pc } := by
  have hearly : ¬ pc.early = true := by simp [Pc.not_early hpc']
  refine ⟨Pc.late_outside hpc', ?_, ?_, ?_, fun k _ hp => absurd hp hearly, ?_, ?_⟩
  · intro n k hn
    obtain ⟨hown, -, hone⟩ := h.held n k (hheld n k hn)
    exact ⟨hown, fun hp => absurd hp hearly, fun _ => hone hlate⟩
  · intro hstage
    have hstage' : pc = .child .dupIn := hstage
    rw [hstage'] at hpc'
    cases hpc'
  · intro k stage' hown hstage
    exact ⟨(h.piped k stage hown hpc).1, hmoves k stage' hown hstage⟩
  · intro k hown _
    exact (hmine k hown).trans (h.late k hown hlate)
  · intro hend
    have hend' : pc = .exited := hend
    rw [hend'] at hpc'
    cases hpc'

theorem Forked.openFile {stage : Stage} {name : Option CStr} {next : Nat → Stage}
    (h : Forked owns p) (hpc : p.pc = .child stage) (hlate : p.pc.late = true)
    (hnone : ∀ k, ¬ owns k) (hto : ∀ fd, (Pc.child (next fd)).late = true)
    (hq : p.openFile name next = some p') : Forked owns p' := by
  obtain ⟨name, -, rfl⟩ := Option.map_eq_some_iff.mp hq
  refine h.goto_late hpc hlate (hto _) ?_ (fun k hown => absurd hown (hnone k))
    fun k _ hown => absurd hown (hnone k)
  intro n k hn
  rcases Descriptors.get_put_eq_some.mp hn with ⟨-, hfile⟩ | ⟨-, hn'⟩
  · cases hfile
  · exact hn'

theorem Forked.moveFile {stage : Stage} {fd target : Nat} {pc : Pc} (h : Forked owns p)
    (hpc : p.pc = .child stage) (hlate : p.pc.late = true) (hnone : ∀ k, ¬ owns k)
    (hto : pc.late = true) (hq : ((p.moveFile fd target).map fun p => p.goto pc) = some p') :
    Forked owns p' := by
  obtain ⟨r, hr, rfl⟩ := Option.map_eq_some_iff.mp hq
  obtain ⟨d, hd, rfl⟩ := Option.map_eq_some_iff.mp hr
  refine h.goto_late hpc hlate hto ?_ (fun k hown => absurd hown (hnone k))
    fun k _ hown => absurd hown (hnone k)
  intro n k hn
  obtain ⟨-, hput⟩ := Descriptors.get_close_eq_some.mp hn
  rcases Descriptors.get_put_eq_some.mp hput with ⟨-, hmoved⟩ | ⟨-, hn'⟩
  · rw [hmoved] at hd
    exact absurd (h.held fd k hd).1 (hnone k)
  · exact hn'

theorem Forked.redirect {stage : Stage} (h : Forked owns p) (hsound : Sound p)
    (hpc : p.pc = .child stage) (hlate : p.pc.late = true) (hrun : stage ≠ .run)
    (hc : p.commands[p.i]? = some c) (hb : p.branch c stage .go = some p') : Forked owns p' := by
  have hserving : Serving p c := hsound.serving_here (hpc ▸ rfl) hc
  have hplain : ∀ k, owns k → c.redirect = false ∧ c.redirectIn = false := by
    intro k hown
    apply hserving.plain
    rw [← hserving.did]
    exact (h.piped k _ hown hpc).1
  have hmoves : ∀ k, owns k → stage.moves = false := fun k hown => (h.piped k _ hown hpc).2
  have hgo : ∀ pc : Pc, pc.late = true → (∀ stage', pc = .child stage' → stage'.moves = false) →
      Forked owns (p.goto pc) := by
    intro pc hto hstage
    exact h.goto_late hpc hlate hto (fun n k hn => hn) (fun k _ => rfl)
      fun k stage' _ hpc' => hstage stage' hpc'
  cases stage with
  | dupIn | dupOut =>
      rw [hpc] at hlate
      cases hlate
  | openOut =>
      rw [Proc.branch] at hb
      split at hb
      · next hred =>
          refine h.openFile hpc hlate (fun k hown => ?_) (fun fd => rfl) hb
          rw [(hplain k hown).1] at hred
          cases hred
      · cases hb
        exact hgo _ rfl fun stage' hstage => by cases hstage; rfl
  | moveOut fd =>
      refine h.moveFile hpc hlate (fun k hown => ?_) rfl hb
      exact Bool.noConfusion (hmoves k hown)
  | openIn =>
      rw [Proc.branch] at hb
      split at hb
      · next hred =>
          refine h.openFile hpc hlate (fun k hown => ?_) (fun fd => rfl) hb
          rw [(hplain k hown).2] at hred
          cases hred
      · cases hb
        exact hgo _ rfl fun stage' hstage => by cases hstage; rfl
  | moveIn fd =>
      refine h.moveFile hpc hlate (fun k hown => ?_) rfl hb
      exact Bool.noConfusion (hmoves k hown)
  | run => exact absurd rfl hrun

private theorem Forked.gone (h : Forked owns p) (pc : Pc) (hmain : pc.inMain = false)
    (hearly : pc.early = false) (hlate : pc.late = false) {fds : Descriptors Desc} {b : Bool}
    (hfds : ∀ n k, Descriptors.get fds n = some (.write k) →
      Descriptors.get p.fds n = some (.write k)) (hend : pc = .exited → fds = []) :
    Forked owns { p with pc := pc, fds := fds, pending := b } := by
  have hchild : ∀ stage, pc ≠ .child stage := by
    rintro stage rfl
    cases stage <;> simp [Pc.early, Pc.late] at hearly hlate
  refine ⟨hmain, ?_, fun hpc => absurd hpc (hchild _), fun k stage _ hpc => absurd hpc (hchild _),
    ?_, ?_, hend⟩
  · intro n k hn
    exact ⟨(h.held n k (hfds n k hn)).1, by simp [hearly], by simp [hlate]⟩
  · intro k _ hp
    simp [hearly] at hp
  · intro k _ hp
    simp [hlate] at hp

theorem Forked.replaced (h : Forked owns p) (hlate : p.pc.late = true) (left : Nat) :
    Forked owns (p.goto (.replaced left)) := by
  refine ⟨rfl, ?_, nofun, nofun, nofun, fun k hown _ => h.late k hown hlate, nofun⟩
  intro n k hn
  obtain ⟨hown, -, hone⟩ := h.held n k hn
  exact ⟨hown, nofun, fun _ => hone hlate⟩

private theorem forked_move (h : Move W s pid p e p' t) (hf : Forked owns p) (hsound : Sound p)
    (hext : External p.commands) (he : e ≠ .fail) : Forked owns p' := by
  have hbuiltin : ∀ c, p.commands[p.i]? = some c → c.builtin = none :=
    fun c hc => hext c (List.mem_of_getElem? hc)
  have hmain := hf.outside
  have hexit : Forked owns p.exit := by
    refine hf.gone _ rfl rfl rfl (fun n k hn => ?_) fun _ => rfl
    exact absurd ⟨n, hn⟩ (Descriptors.not_holds_nil _)
  cases h with
  | killed | left | brokenPipe | ended => exact hexit
  | term _ heq =>
      rw [heq]
      exact hf.gone _ rfl rfl rfl (fun n k hn => hn) nofun
  | leave => exact hf.gone _ rfl rfl rfl (fun n k hn => hn) nofun
  | @branch stage c _ _ hpc hc hb =>
      obtain ⟨hrun, fds, pc, rfl, -, hcases⟩ := branch_cases hb
      have hgo : e = .go := by
        rcases hcases with ⟨hfail, -⟩ | ⟨hfail, -⟩ | ⟨hgo, -⟩
        · exact absurd hfail he
        · exact absurd hfail he
        · exact hgo
      subst hgo
      cases stage with
      | dupIn => exact hf.dupIn hsound hpc hc hb
      | dupOut => exact hf.dupOut hsound hpc hc hb
      | _ => exact hf.redirect hsound hpc (hpc ▸ rfl) hrun hc hb
  | exec hpc _ _ heq =>
      rw [heq]
      exact hf.replaced (hpc ▸ rfl) _
  | write hpc _ heq | writePipe hpc _ _ _ heq =>
      rw [heq]
      exact hf.replaced (hpc ▸ rfl) _
  | readPipe => exact hf
  | kExit _ hc hb | builtin _ hc hb =>
      rw [hbuiltin _ hc] at hb
      cases hb
  | execFailed | forkFailed | pipeFailed => exact absurd rfl he
  | reject hpc _ | accept hpc _ _ | lineDone hpc _ | plain hpc _ _ _ | pipe hpc _ _ _
  | noWords hpc _ _ | fork hpc _ _ _ | waited hpc _ | next hpc =>
      rw [hpc] at hmain
      cases hmain

/-! ## The shell -/

/-- The write end kcsh holds is the one of the pipe it made in the round it is in. -/
structure Holding (p : Proc) (j : Journal) (made : Nat) : Prop where
  shell : ∀ left, p.pc ≠ .replaced left
  idle : p.pc = .readLine ∨ p.pc = .launch → ∀ k y, j.current = some (k, y) → (k, y) ∈ j.finished
  unforked : p.pc = .forkExec → j.child = none
  busy : p.pc.busy = true → ∀ k, j.made.getLast? = some (some k) →
    p.didPipe = true ∧ Descriptors.get p.fds p.pipefd.2 = some (.write k) ∧
      ∀ y, (k, y) ∉ j.finished
  held : ∀ n k, Descriptors.get p.fds n = some (.write k) →
    n = p.pipefd.2 ∧ p.didPipe = true ∧ j.made.getLast? = some (some k) ∧
      (p.pc.busy = true ∨ p.pc = .leaving) ∧ ∀ y, (k, y) ∉ j.finished
  finished : ∀ k y, (k, y) ∈ j.finished → k < made
  last : ∀ k, j.made.getLast? = some (some k) → k < made

variable {made : Nat}

private theorem Holding.idle_fds (h : Holding p j made) (hpc : p.pc = .readLine ∨ p.pc = .launch)
    (n k : Nat) : Descriptors.get p.fds n ≠ some (.write k) := by
  intro hn
  obtain ⟨-, -, -, hbusy, -⟩ := h.held n k hn
  rcases hpc with hpc | hpc
  · simp [hpc, Pc.busy] at hbusy
  · simp [hpc, Pc.busy] at hbusy

theorem Holding.leaving (h : Holding p j made) {b : Bool} :
    Holding { p with pc := .leaving, pending := b } j made := by
  refine ⟨nofun, nofun, nofun, nofun, ?_, h.finished, h.last⟩
  intro n k hn
  obtain ⟨heq, hdid, hmade, -, hfin⟩ := h.held n k hn
  exact ⟨heq, hdid, hmade, Or.inr rfl, hfin⟩

theorem Holding.exit (h : Holding p j made) : Holding p.exit j made := by
  refine ⟨nofun, nofun, nofun, nofun, ?_, h.finished, h.last⟩
  intro n k hn
  exact absurd ⟨n, hn⟩ (Descriptors.not_holds_nil _)

theorem Holding.goto {pc : Pc} {i : Journal} (h : Holding p j made) (hpc : p.pc.busy = true)
    (hbusy : pc.busy = true) (hfork : pc ≠ .forkExec) (hmade : i.made = j.made)
    (hfin : i.finished = j.finished) : Holding (p.goto pc) i made := by
  refine ⟨?_, ?_, fun hp => absurd hp hfork, fun _ => ?_, ?_, ?_, ?_⟩
  · rintro left heq
    have heq' : pc = .replaced left := heq
    rw [heq'] at hbusy
    cases hbusy
  · intro hidle
    have hidle' : pc = .readLine ∨ pc = .launch := hidle
    rcases hidle' with rfl | rfl
    · cases hbusy
    · cases hbusy
  · rw [hmade, hfin]
    exact h.busy hpc
  · intro n k hn
    rw [hmade, hfin]
    obtain ⟨heq, hdid, hlast, -, hnot⟩ := h.held n k hn
    exact ⟨heq, hdid, hlast, Or.inl hbusy, hnot⟩
  · rw [hfin]
    exact h.finished
  · rw [hmade]
    exact h.last

theorem Holding.accept (h : Holding p j made) (hpc : p.pc = .readLine) (cmds : List Cmd) :
    Holding { p with commands := cmds, i := 0, pc := .launch }
      { j with before := p.fds, line := cmds, made := [], child := none } made := by
  refine ⟨nofun, ?_, nofun, nofun, ?_, h.finished, nofun⟩
  · intro _ k y hcur
    cases hcur
  · intro n k hn
    exact absurd hn (h.idle_fds (.inl hpc) n k)

theorem Holding.lineDone (h : Holding p j made) (hpc : p.pc = .launch) :
    Holding (p.goto .readLine) j made := by
  refine ⟨nofun, fun _ => h.idle (.inr hpc), nofun, nofun, ?_, h.finished, h.last⟩
  intro n k hn
  exact absurd hn (h.idle_fds (.inr hpc) n k)

theorem Holding.plain (h : Holding p j made) (hpc : p.pc = .launch) :
    Holding { p with didPipe := false, pc := .forkExec }
      { j with made := j.made ++ [none], child := none } made := by
  refine ⟨nofun, nofun, fun _ => rfl, ?_, ?_, h.finished, ?_⟩
  · intro _ k hlast
    simp at hlast
  · intro n k hn
    exact absurd hn (h.idle_fds (.inr hpc) n k)
  · intro k hlast
    simp at hlast

theorem Holding.pipe (h : Holding p j made) (hpc : p.pc = .launch) :
    Holding (Sys.makePipe p made) { j with made := j.made ++ [some made], child := none }
      (made + 1) := by
  have hnew : ∀ y, (made, y) ∉ j.finished := fun y hy => Nat.lt_irrefl _ (h.finished made y hy)
  refine ⟨nofun, nofun, fun _ => rfl, ?_, ?_, ?_, ?_⟩
  · intro _ k hlast
    have hk : made = k := by simpa using hlast
    subst hk
    exact ⟨rfl, makePipe_write p made, hnew⟩
  · intro n k hn
    unfold Sys.makePipe at hn
    rcases Descriptors.get_put_eq_some.mp hn with ⟨hw, hwrite⟩ | ⟨-, hput⟩
    · cases hwrite
      exact ⟨hw, rfl, by simp, Or.inl rfl, hnew⟩
    · rcases Descriptors.get_put_eq_some.mp hput with ⟨-, hread⟩ | ⟨-, hold⟩
      · cases hread
      · exact absurd hold (h.idle_fds (.inr hpc) n k)
  · intro k y hy
    exact Nat.lt_succ_of_lt (h.finished k y hy)
  · intro k hlast
    have hk : made = k := by simpa using hlast
    omega

private theorem Journal.current_made {k y : Nat} (h : j.current = some (k, y)) :
    j.made.getLast? = some (some k) ∧ j.child = some y := by
  unfold Journal.current at h
  split at h
  · next hlast hchild =>
      cases h
      exact ⟨hlast, hchild⟩
  · cases h

theorem Holding.next (h : Holding p j made) :
    Holding (Sys.next p) { j with finished := j.finished ++ j.current.toList } made := by
  refine ⟨nofun, ?_, nofun, nofun, ?_, ?_, h.last⟩
  · intro _ k y hcur
    have hcur' : j.current = some (k, y) := hcur
    rw [List.mem_append, hcur']
    exact Or.inr List.mem_cons_self
  · intro n k hn
    unfold Sys.next at hn
    simp only at hn
    split at hn
    · obtain ⟨hne, hold⟩ := Descriptors.get_close_eq_some.mp hn
      exact absurd (h.held n k hold).1 hne
    · next hdid => exact absurd (h.held n k hn).2.1 hdid
  · intro k y hy
    rcases List.mem_append.mp hy with hy | hy
    · exact h.finished k y hy
    · have hcur : j.current = some (k, y) := by simpa using hy
      exact h.last k (Journal.current_made hcur).1

private theorem holding_move (h : Move W s 0 p e p' t) (hp : s.procs[0]? = some p)
    (hlogged : Logged p j) (hh : Holding p j s.pipes.length) :
    Holding p' (Journal.record s (0, e) j) t.pipes.length := by
  cases h with
  | killed =>
      rw [record_event (by decide)]
      exact hh.exit
  | term _ heq =>
      rw [record_event (by decide), heq]
      exact hh.leaving
  | leave =>
      rw [record_event (by decide)]
      exact hh.leaving
  | reject hpc hlines =>
      rw [record_go hp, note_reject hpc hlines]
      exact hh
  | accept hpc hlines heq =>
      rw [record_go hp, note_accept hpc hlines, heq]
      exact hh.accept hpc _
  | lineDone hpc hc =>
      rw [record_go hp, note_lineDone hpc hc]
      exact hh.lineDone hpc
  | plain hpc hc hout heq =>
      rw [record_go hp, note_launch hpc hc, heq, if_pos hout]
      exact hh.plain hpc
  | pipe hpc hc hout heq =>
      rw [record_go hp, note_launch hpc hc, heq, if_neg hout]
      have hpipe := hh.pipe hpc
      rwa [← List.length_concat (a := 0), List.concat_eq_append] at hpipe
  | pipeFailed =>
      rw [record_event (by decide)]
      exact hh.leaving
  | noWords hpc hc hargc =>
      rw [record_go hp, note_noWords hpc hc hargc]
      exact hh.goto (hpc ▸ rfl) rfl (by simp) rfl rfl
  | fork hpc hc hargc heq =>
      rw [record_go hp, note_fork hpc hc hargc, heq]
      split
      · exact hh.goto (hpc ▸ rfl) rfl (by simp) rfl rfl
      · exact hh.goto (hpc ▸ rfl) rfl (by simp) rfl rfl
  | forkFailed hpc =>
      rw [record_event (by decide)]
      exact hh.goto (hpc ▸ rfl) rfl (by simp) rfl rfl
  | branch hpc | exec hpc | execFailed hpc | kExit hpc | builtin hpc =>
      exact absurd hpc (hlogged.shell _)
  | waited hpc =>
      rw [record_go hp, Journal.note, hpc]
      exact hh.goto (hpc ▸ rfl) rfl (by simp) rfl rfl
  | next hpc =>
      rw [record_go hp, note_returned hpc]
      exact hh.next
  | left hpc =>
      rw [record_go hp, Journal.note, hpc]
      exact hh.exit
  | write hpc | brokenPipe hpc | writePipe hpc | readPipe hpc | ended hpc =>
      exact absurd hpc (hh.shell _)

/-! ## The step -/

private theorem external_move (h : Move W s pid p e p' t)
    (hlines : ∀ cmds, some cmds ∈ s.lines → External cmds) (hext : External p.commands) :
    External p'.commands := by
  cases h with
  | accept _ hl heq =>
      rw [heq]
      exact hlines _ (hl ▸ List.mem_cons_self)
  | pipe _ _ _ heq =>
      rw [heq]
      intro c hc
      obtain ⟨i, hi⟩ := List.getElem?_of_mem hc
      rw [getElem?_makePipe] at hi
      obtain ⟨d, hd, rfl⟩ := Option.map_eq_some_iff.mp hi
      exact hext d (List.mem_of_getElem? hd)
  | branch _ _ hb =>
      obtain ⟨-, fds, pc, rfl, -⟩ := branch_cases hb
      exact hext
  | term _ heq | plain _ _ _ heq =>
      rw [heq]
      exact hext
  | _ => exact hext

theorem Forked.congr {owns' : Nat → Prop} (h : Forked owns q) (heq : ∀ k, owns' k ↔ owns k) :
    Forked owns' q := by
  have hsame : owns' = owns := funext fun k => propext (heq k)
  rwa [hsame]

theorem Forked.pending (h : Forked owns q) (b : Bool) : Forked owns { q with pending := b } :=
  ⟨h.outside, h.held, h.source, h.piped, h.early, h.late, h.ended⟩

theorem Holding.forked (h : Holding p j made) (hlogged : Logged p j) (hpc : p.pc = .forkExec)
    (pid : Nat) (howns : ∀ k, owns k ↔ j.made.getLast? = some (some k)) :
    Forked owns (p.forked pid) := by
  have hbusy : p.pc.busy = true := hpc ▸ rfl
  refine ⟨rfl, ?_, ?_, ?_, ?_, nofun, nofun⟩
  · intro n k hn
    obtain ⟨heq, -, hlast, -⟩ := h.held n k hn
    exact ⟨(howns k).mpr hlast, fun _ => heq, nofun⟩
  · intro _ c hc hin k
    obtain ⟨hfed, -⟩ := (hlogged.busy hbusy).2 c hc
    obtain ⟨k', -, -, hread⟩ := hfed.resolve_left hin
    intro hwrite
    cases hread.symm.trans hwrite
  · intro k stage hown hstage
    cases hstage
    exact ⟨(h.busy hbusy k ((howns k).mp hown)).1, rfl⟩
  · intro k hown _
    exact (h.busy hbusy k ((howns k).mp hown)).2.1

private theorem owns_idle {i : Journal} (h : Holding p j made)
    (hpc : p.pc = .readLine ∨ p.pc = .launch)
    (hfin : i.finished = j.finished) (hchild : i.child = none) (k y : Nat) :
    Owns i k y ↔ Owns j k y := by
  have hnone : i.current ≠ some (k, y) := by
    intro hcur
    rw [(Journal.current_made hcur).2] at hchild
    cases hchild
  unfold Owns
  rw [hfin]
  constructor
  · intro hown
    exact Or.inl (hown.resolve_right hnone)
  · rintro (hown | hown)
    · exact Or.inl hown
    · exact Or.inl (h.idle hpc k y hown)

private theorem owns_record (hp : s.procs[0]? = some p) (h : Holding p j made)
    (hfork : p.pc ≠ .forkExec)
    (a : Nat × Event) (k y : Nat) : Owns (Journal.record s a j) k y ↔ Owns j k y := by
  rw [Journal.record, hp]
  simp only
  split
  · unfold Journal.note
    split
    · next hpc =>
        split
        · apply owns_idle h (.inl hpc)
          · rfl
          · rfl
        · rfl
    · next hpc =>
        split
        · apply owns_idle h (.inr hpc)
          · rfl
          · rfl
        · rfl
    · next hpc => exact absurd hpc hfork
    · show (k, y) ∈ j.finished ++ j.current.toList ∨ j.current = some (k, y) ↔ _
      rw [List.mem_append, Option.mem_toList, or_assoc, or_self]
      rfl
    · rfl
  · rfl

/-- Every pipe belongs to at most one process, and the write ends are where they should be. -/
structure Owned (s : Sys) (j : Journal) : Prop where
  chronicled : Chronicled s j
  lines : ∀ cmds, some cmds ∈ s.lines → External cmds
  external : ∀ (x : Nat) (q : Proc), s.procs[x]? = some q → External q.commands
  shell : ∀ q, s.procs[0]? = some q → Holding q j s.pipes.length
  forked : ∀ (y : Nat) (q : Proc), y ≠ 0 → s.procs[y]? = some q → Forked (fun k => Owns j k y) q
  alive : ∀ k y, Owns j k y → y ≠ 0 ∧ y < s.procs.length
  unique : ∀ k y y', Owns j k y → Owns j k y' → y = y'

@[simp] theorem Sys.terminate_procs_length (s : Sys) (q : Nat) :
    (s.terminate q).procs.length = s.procs.length := by
  unfold terminate
  split
  · rfl
  · split
    · rfl
    · simp [put]

private theorem Move.forks (h : Move W s pid p e p' t) :
    (∃ c, e = .go ∧ p.pc = .forkExec ∧ p.commands[p.i]? = some c ∧ c.argc ≠ 0 ∧
      t = s.fork pid p c) ∨
    (t.procs.length = s.procs.length ∧
      (p.pc = .forkExec → e = .go → ∃ c, p.commands[p.i]? = some c ∧ c.argc = 0)) := by
  have hother : ∀ pc : Pc, p.pc = pc → pc ≠ .forkExec → p.pc = .forkExec → e = .go →
      ∃ c, p.commands[p.i]? = some c ∧ c.argc = 0 :=
    fun pc hpc hne hfork => absurd (hpc.symm.trans hfork) hne
  cases h with
  | fork hpc hc hargc _ => exact Or.inl ⟨_, rfl, hpc, hc, hargc, rfl⟩
  | noWords hpc hc hargc => exact Or.inr ⟨by simp [Sys.put], fun _ _ => ⟨_, hc, hargc⟩⟩
  | killed | leave | forkFailed | term =>
      exact Or.inr ⟨by simp [Sys.put], fun _ hgo => by cases hgo⟩
  | reject hpc | accept hpc | lineDone hpc | plain hpc | pipe hpc | pipeFailed hpc | branch hpc
  | exec hpc | execFailed hpc | kExit hpc | builtin hpc | waited hpc | next hpc | left hpc
  | write hpc | brokenPipe hpc | writePipe hpc | readPipe hpc | ended hpc =>
      exact Or.inr ⟨by simp [Sys.put], hother _ hpc (by simp)⟩

theorem Owned.frame (ho : Owned s j) (h : Move W s pid p e p' t) (hp : s.procs[pid]? = some p) :
    (∀ cmds, some cmds ∈ t.lines → External cmds) ∧
      (∀ (x : Nat) (q : Proc), t.procs[x]? = some q → External q.commands) ∧
      ∀ q, t.procs[0]? = some q → Holding q (Journal.record s (pid, e) j) t.pipes.length := by
  refine ⟨fun cmds hcmds => ho.lines cmds (h.lines _ hcmds), ?_, ?_⟩
  · intro x q' hq'
    rcases h.origin hp hq' with ⟨rfl, rfl⟩ | ⟨-, q, b, hq, rfl⟩ | ⟨-, -, rfl, -⟩
    · exact external_move h ho.lines (ho.external _ p hp)
    · exact ho.external x q hq
    · exact ho.external _ p hp
  · intro q' hq'
    rcases h.origin hp hq' with ⟨rfl, rfl⟩ | ⟨hne, q, b, hq, rfl⟩ | ⟨hlen, -, rfl, -⟩
    · exact holding_move h hp (ho.chronicled p hp) (ho.shell p hp)
    · rw [record_other (Ne.symm hne)]
      have hq := ho.shell q hq
      have hle := h.pipes_length
      refine ⟨hq.shell, hq.idle, hq.unforked, hq.busy, hq.held, ?_, ?_⟩
      · intro k y hy
        exact Nat.lt_of_lt_of_le (hq.finished k y hy) hle
      · intro k hlast
        exact Nat.lt_of_lt_of_le (hq.last k hlast) hle
    · have hlt : pid < s.procs.length := (List.getElem?_eq_some_iff.mp hp).1
      omega

private theorem Owned.forked_step {x : Nat} {q' : Proc} (ho : Owned s j) (hs : Numbered s)
    (h : Move W s pid p e p' t) (hp : s.procs[pid]? = some p) (he : e ≠ .fail) (hx : x ≠ 0)
    (hlt : x < s.procs.length) (hq' : t.procs[x]? = some q') :
    Forked (fun k => Owns j k x) q' := by
  rcases h.origin hp hq' with ⟨rfl, rfl⟩ | ⟨-, q, b, hq, rfl⟩ | ⟨hlen, -⟩
  · exact forked_move h (ho.forked _ p hx hp) (hs.procs _ p hp) (ho.external _ p hp) he
  · exact (ho.forked x q hx hq).pending b
  · omega

private theorem Owned.step_same (ho : Owned s j) (hs : Numbered s) (h : Move W s pid p e p' t)
    (hp : s.procs[pid]? = some p) (he : e ≠ .fail) (hlen : t.procs.length = s.procs.length)
    (hwords : p.pc = .forkExec → e = .go → ∃ c, p.commands[p.i]? = some c ∧ c.argc = 0)
    (hchronicled : Chronicled t (Journal.record s (pid, e) j)) :
    Owned t (Journal.record s (pid, e) j) := by
  obtain ⟨hlines, hext, hshell⟩ := ho.frame h hp
  have howns : ∀ k y, Owns (Journal.record s (pid, e) j) k y ↔ Owns j k y := by
    intro k y
    by_cases hpid : pid = 0
    · subst hpid
      by_cases hpc : p.pc = .forkExec
      · by_cases hgo : e = .go
        · obtain ⟨c, hc, hargc⟩ := hwords hpc hgo
          rw [hgo, record_go hp, note_noWords hpc hc hargc]
        · rw [record_event hgo]
      · exact owns_record hp (ho.shell p hp) hpc _ k y
    · rw [record_other hpid]
  refine ⟨hchronicled, hlines, hext, hshell, ?_, ?_, ?_⟩
  · intro y q' hy hq'
    have hlt : y < s.procs.length := hlen ▸ (List.getElem?_eq_some_iff.mp hq').1
    exact (ho.forked_step hs h hp he hy hlt hq').congr fun k => howns k y
  · intro k y hown
    rw [hlen]
    exact ho.alive k y ((howns k y).mp hown)
  · intro k y y' hown hown'
    exact ho.unique k y y' ((howns k y).mp hown) ((howns k y').mp hown')

private theorem owns_fork (h : Holding p j made) (hpc : p.pc = .forkExec) (x k y : Nat) :
    Owns { j with child := some x } k y ↔
      Owns j k y ∨ (j.made.getLast? = some (some k) ∧ y = x) := by
  have hnone : j.current ≠ some (k, y) := by
    intro hcur
    have hchild := (Journal.current_made hcur).2
    rw [h.unforked hpc] at hchild
    cases hchild
  have hcurrent : Journal.current { j with child := some x } = some (k, y) ↔
      j.made.getLast? = some (some k) ∧ y = x := by
    unfold Journal.current
    simp only
    split
    · next hlast hchild =>
        cases hchild
        simp [hlast, eq_comm]
    · next hno =>
        constructor
        · intro hcur
          cases hcur
        · rintro ⟨hlast, -⟩
          exact absurd rfl (hno k x hlast)
  unfold Owns
  rw [hcurrent]
  simp [hnone]

theorem Owned.step_fork (ho : Owned s j) (hs : Numbered s) (h : Move W s 0 p .go p' t)
    (hp : s.procs[0]? = some p) (hpc : p.pc = .forkExec) (hc : p.commands[p.i]? = some c)
    (hargc : c.argc ≠ 0) (ht : t = s.fork 0 p c)
    (hchronicled : Chronicled t (Journal.record s (0, .go) j)) :
    Owned t (Journal.record s (0, .go) j) := by
  obtain ⟨hlines, hext, hshell⟩ := ho.frame h hp
  have hholding := ho.shell p hp
  have hlen : t.procs.length = s.procs.length + 1 := by
    rw [ht]
    simp [Sys.fork]
  have howns : ∀ k y, Owns (Journal.record s (0, .go) j) k y ↔
      Owns j k y ∨ (j.made.getLast? = some (some k) ∧ y = s.procs.length) := by
    intro k y
    rw [record_go hp, note_fork hpc hc hargc]
    exact owns_fork hholding hpc s.procs.length k y
  have hpos : 0 < s.procs.length := (List.getElem?_eq_some_iff.mp hp).1
  refine ⟨hchronicled, hlines, hext, hshell, ?_, ?_, ?_⟩
  · intro y q' hy hq'
    by_cases hnew : y = s.procs.length
    · subst hnew
      have hchild : q' = p.forked 0 := by
        rw [ht, Sys.getElem?_fork hp, if_neg hy, if_pos rfl] at hq'
        exact (Option.some.inj hq').symm
      rw [hchild]
      refine hholding.forked (ho.chronicled p hp) hpc 0 fun k => ?_
      rw [howns]
      constructor
      · rintro (hown | ⟨hlast, -⟩)
        · exact absurd (ho.alive k _ hown).2 (Nat.lt_irrefl _)
        · exact hlast
      · intro hlast
        exact Or.inr ⟨hlast, rfl⟩
    · have hlt : y < s.procs.length := by
        have := (List.getElem?_eq_some_iff.mp hq').1
        omega
      refine (ho.forked_step hs h hp (by decide) hy hlt hq').congr fun k => ?_
      rw [howns]
      simp [hnew]
  · intro k y hown
    rw [hlen]
    rcases (howns k y).mp hown with hold | ⟨-, rfl⟩
    · have halive := ho.alive k y hold
      omega
    · omega
  · have hfresh : ∀ k y, j.made.getLast? = some (some k) → ¬ Owns j k y := by
      intro k y hlast hown
      rcases hown with hfin | hcur
      · exact (hholding.busy (hpc ▸ rfl) k hlast).2.2 y hfin
      · have hchild := (Journal.current_made hcur).2
        rw [hholding.unforked hpc] at hchild
        cases hchild
    intro k y y' hown hown'
    rcases (howns k y).mp hown with hold | ⟨hlast, rfl⟩
    · rcases (howns k y').mp hown' with hold' | ⟨hlast', -⟩
      · exact ho.unique k y y' hold hold'
      · exact absurd hold (hfresh k y hlast')
    · rcases (howns k y').mp hown' with hold' | ⟨-, rfl⟩
      · exact absurd hold' (hfresh k y' hlast)
      · rfl

private theorem owned_step {a : Nat × Event} (hs : Numbered s) (ho : Owned s j)
    (h : step W s a = some t) (he : a.2 ≠ .fail) : Owned t (Journal.record s a j) := by
  obtain ⟨pid, e⟩ := a
  have hchronicled := chronicled_step hs ho.chronicled h
  obtain ⟨p, p', hp, hmove⟩ := step_move h
  rcases hmove.forks with ⟨c, hgo, hpc, hc, hargc, ht⟩ | ⟨hlen, hwords⟩
  · have hgo' : e = .go := hgo
    subst hgo'
    have hpid : pid = 0 := by
      by_contra hne
      have hmain := (ho.forked pid p hne hp).outside
      rw [hpc] at hmain
      cases hmain
    subst hpid
    exact ho.step_fork hs hmove hp hpc hc hargc ht hchronicled
  · exact ho.step_same hs hmove hp he hlen hwords hchronicled

private theorem owned_start {lines : List (Option (List Cmd))}
    (h : ∀ cmds, some cmds ∈ lines → External cmds) : Owned (Sys.start lines) Journal.start := by
  have hkcsh : ∀ (x : Nat) (q : Proc), (Sys.start lines).procs[x]? = some q →
      x = 0 ∧ q = kcsh := by
    intro x q hq
    cases x with
    | zero => exact ⟨rfl, (Option.some.inj hq).symm⟩
    | succ x => cases hq
  have hnone : ∀ k y, ¬ Owns Journal.start k y := by
    rintro k y (hfin | hcur)
    · cases hfin
    · cases hcur
  refine ⟨?_, h, ?_, ?_, ?_, fun k y hown => absurd hown (hnone k y),
    fun k y _ hown => absurd hown (hnone k y)⟩
  · intro p hp
    cases hp
    exact .quiet nofun nofun rfl
  · intro x q hq
    obtain ⟨-, rfl⟩ := hkcsh x q hq
    intro c hc
    cases hc
  · intro q hq
    cases hq
    refine ⟨nofun, ?_, nofun, nofun, ?_, nofun, nofun⟩
    · intro _ k y hcur
      cases hcur
    · intro n k hn
      rcases n with _ | _ | _ | n <;> cases hn
  · intro y q hy hq
    exact absurd (hkcsh y q hq).1 hy

/-! ## Whole runs -/

/-- Once the round of a stage is over and the stage runs its program or has ended, nobody else has
the write end of its pipe, and it is its standard output. A process that runs its program holds no
write end but that. -/
theorem write_end_held_by_stage (W : World) (lines : List (Option (List Cmd)))
    (hlines : ∀ cmds, some cmds ∈ lines → Parsed cmds ∧ External cmds)
    (as : List (Nat × Event)) (s : Sys) (j : Journal)
    (hrun : run (stepLogged W) (Sys.start lines, Journal.start) as = some (s, j))
    (hok : ∀ a ∈ as, a.2 ≠ .fail) :
    (∀ k x q, (k, x) ∈ j.finished → s.procs[x]? = some q → q.pc.inShell = false →
      (q.pc ≠ .exited → Descriptors.get q.fds 1 = some (.write k)) ∧
      ∀ (y : Nat) (r : Proc) (n : Nat), s.procs[y]? = some r →
        Descriptors.get r.fds n = some (.write k) → y = x ∧ n = 1) ∧
    ∀ (y : Nat) (r : Proc) (left n k : Nat), s.procs[y]? = some r → r.pc = .replaced left →
      Descriptors.get r.fds n = some (.write k) → y ≠ 0 ∧ n = 1 ∧ Owns j k y := by
  have hinv : Numbered s ∧ Owned s j := by
    refine run_invariant_of_forall (I := fun u => Numbered u.1 ∧ Owned u.1 u.2) ?_ hrun hok ?_
    · rintro ⟨s, j⟩ a ⟨t, i⟩ ⟨hs, ho⟩ he hstep
      obtain ⟨hst, rfl⟩ := recorded_eq_some.mp hstep
      exact ⟨numbered_step hs hst, owned_step hs ho hst he⟩
    · exact ⟨numbered_start fun cmds h => (hlines cmds h).1,
        owned_start fun cmds h => (hlines cmds h).2⟩
  obtain ⟨-, ho⟩ := hinv
  constructor
  · intro k x q hfin hq hshell
    obtain ⟨hx, -⟩ := ho.alive k x (.inl hfin)
    have hforked := ho.forked x q hx hq
    have hlate : q.pc ≠ .exited → q.pc.late = true := by
      intro hpc
      cases h : q.pc <;> simp_all [Pc.inShell, Pc.late]
    refine ⟨fun hpc => hforked.late k (.inl hfin) (hlate hpc), ?_⟩
    intro y r n hr hn
    by_cases hy : y = 0
    · subst hy
      obtain ⟨-, -, -, -, hnot⟩ := (ho.shell r hr).held n k hn
      exact absurd hfin (hnot x)
    · obtain ⟨hown, -, hone⟩ := (ho.forked y r hy hr).held n k hn
      obtain rfl := ho.unique k y x hown (.inl hfin)
      obtain rfl := Option.some.inj (hr.symm.trans hq)
      refine ⟨rfl, hone (hlate fun hpc => ?_)⟩
      rw [hforked.ended hpc] at hn
      exact absurd ⟨n, hn⟩ (Descriptors.not_holds_nil _)
  · intro y r left n k hr hpc hn
    by_cases hy : y = 0
    · subst hy
      exact absurd hpc ((ho.shell r hr).shell left)
    · obtain ⟨hown, -, hone⟩ := (ho.forked y r hy hr).held n k hn
      exact ⟨hy, hone (hpc ▸ rfl), hown⟩

/-- The commands of `a | b &`. -/
def twoBehind : List Cmd := twoStages.cmds.map fun c => { c with bg := true }

private theorem twoBehind_parsed : Parsed twoBehind := by
  obtain ⟨t, hok, hcmds⟩ := (Accepts.next rfl rfl (.next rfl rfl (.nil _)) :
    Accepts false [['a'], ['|'], ['b'], ['&']] _).runs (Heap.empty fun _ => true) fun _ => none
  exact ⟨_, _, _, t, hok, hcmds⟩

/-- The first stage runs its program, and its round is over. -/
def firstStageRun : List (Nat × Event) :=
  [List.replicate 3 (0, .go), List.replicate 5 (1, .go), List.replicate 2 (0, .go)].flatten

theorem write_end_held_by_stage_twoBehind :
    ∃ s j q, run (stepLogged ⟨1, fun _ => 1⟩) (Sys.start [some twoBehind], Journal.start)
        firstStageRun = some (s, j) ∧
      s.procs[1]? = some q ∧ q.pc = .replaced 1 ∧ Descriptors.get q.fds 1 = some (.write 0) ∧
      ∀ (y : Nat) (r : Proc) (n : Nat), s.procs[y]? = some r →
        Descriptors.get r.fds n = some (.write 0) → y = 1 ∧ n = 1 := by
  have hrun : (run (stepLogged ⟨1, fun _ => 1⟩) (Sys.start [some twoBehind], Journal.start)
      firstStageRun).map (fun t => (t.2.finished, (t.1.procs[1]?).map Proc.pc)) =
      some ([(0, 1)], some (.replaced 1)) := by decide
  obtain ⟨⟨s, j⟩, hs, hend⟩ := Option.map_eq_some_iff.mp hrun
  obtain ⟨hfin, hproc⟩ := Prod.mk.inj hend
  obtain ⟨q, hq, hpc⟩ := Option.map_eq_some_iff.mp hproc
  have hexternal : ∀ c ∈ twoBehind, c.builtin = none := by decide
  have hlines : ∀ cmds, some cmds ∈ [some twoBehind] → Parsed cmds ∧ External cmds := by
    intro cmds hcmds
    rw [List.mem_singleton, Option.some.injEq] at hcmds
    exact hcmds ▸ ⟨twoBehind_parsed, hexternal⟩
  obtain ⟨hheld, -⟩ := write_end_held_by_stage _ _ hlines _ s j hs (by decide)
  have hfirst : (0, 1) ∈ j.finished := by
    rw [show j.finished = [(0, 1)] from hfin]
    exact List.mem_singleton_self _
  obtain ⟨hout, hnobody⟩ := hheld 0 1 q hfirst hq (by rw [hpc]; rfl)
  exact ⟨s, j, q, hs, hq, hpc, hout (by rw [hpc]; simp), hnobody⟩

end SyssoftLabs.Lab4
