import SyssoftLabs.Lab4.Shell.Nesting
import SyssoftLabs.Lab4.Shell.Supply

/-!
# Runs of shells in shells

Every step keeps the stack of shells, so that a shell that goes on has its directory, environment
and variables back, whatever built-ins were called in between.
-/

namespace SyssoftLabs.Lab4

open SyssoftLabs.Framework

variable {W : World} {chdir : Chdir} {s t : Sys} {amb amb' : Nat → Ambient} {shells : List Nat}
  {pid x : Nat} {p p' q : Proc} {c : Cmd} {e : Event}

/-! ## What is noted -/

private theorem ambientNote_quiet (hp : s.procs[pid]? = some p)
    (he : e = .go → p.pc ≠ .forkExec ∧ p.pc ≠ .child .run) :
    ambientNote chdir s (pid, e) amb = amb := by
  unfold ambientNote
  dsimp only
  rw [hp]
  cases e with
  | go =>
      obtain ⟨hfork, hrun⟩ := he rfl
      dsimp only
      split
      · next hpc _ => exact absurd hpc hfork
      · next hpc _ => exact absurd hpc hrun
      · rfl
  | _ => rfl

private theorem ambientNote_noWords (hp : s.procs[pid]? = some p) (hpc : p.pc = .forkExec)
    (hc : p.commands[p.i]? = some c) (hargc : c.argc = 0) :
    ambientNote chdir s (pid, .go) amb = amb := by
  unfold ambientNote
  dsimp only
  rw [hp]
  dsimp only
  rw [hpc, hc]
  exact if_pos hargc

private theorem ambientNote_fork (hp : s.procs[pid]? = some p) (hpc : p.pc = .forkExec)
    (hc : p.commands[p.i]? = some c) (hargc : c.argc ≠ 0) :
    ambientNote chdir s (pid, .go) amb = Function.update amb s.procs.length (amb pid) := by
  unfold ambientNote
  dsimp only
  rw [hp]
  dsimp only
  rw [hpc, hc]
  exact if_neg hargc

private theorem ambientNote_exec (hp : s.procs[pid]? = some p) (hpc : p.pc = .child .run)
    (hc : p.commands[p.i]? = some c) (hb : c.builtin = none) :
    ambientNote chdir s (pid, .go) amb = amb := by
  unfold ambientNote
  dsimp only
  rw [hp]
  dsimp only
  rw [hpc, hc]
  dsimp only
  rw [hb]

private theorem ambientNote_builtin {b : Builtin} {status : Int32} {ambient : Ambient}
    (hp : s.procs[pid]? = some p) (hpc : p.pc = .child .run) (hc : p.commands[p.i]? = some c)
    (hb : c.builtin = some b) (hcall : b.call chdir c (amb pid) = .ok (status, ambient)) :
    ambientNote chdir s (pid, .go) amb = Function.update amb pid ambient := by
  unfold ambientNote
  dsimp only
  rw [hp]
  dsimp only
  rw [hpc, hc]
  dsimp only
  rw [hb]
  dsimp only
  rw [hcall]

/-! ## Steps -/

private theorem makePipe_foreground (k : Nat) (h : ∀ c ∈ p.commands, c.bg = false) :
    ∀ c ∈ (Sys.makePipe p k).commands, c.bg = false := by
  intro c hc
  obtain ⟨j, hj⟩ := List.mem_iff_getElem?.mp hc
  simp only [Sys.makePipe, List.getElem?_modify, Option.map_eq_map, Option.map_map,
    Option.map_eq_some_iff] at hj
  obtain ⟨d, hd, rfl⟩ := hj
  have hbg := h d (List.mem_of_getElem? hd)
  dsimp only [Function.comp_apply]
  split <;> split <;> exact hbg

/-- A step forks, is the end of `k_exit`, runs another built-in, or changes one process only and no
memory. -/
theorem Move.kinds (h : Move W s pid p e p' t) (hp : s.procs[pid]? = some p) (chdir : Chdir)
    (amb : Nat → Ambient) :
    (∃ c, e = .go ∧ p.pc = .forkExec ∧ p.commands[p.i]? = some c ∧ c.argc ≠ 0 ∧
        t = s.fork pid p c) ∨
      (∃ c, e = .go ∧ p.pc = .child .run ∧ p.commands[p.i]? = some c ∧
        c.builtin = some .exit ∧ t = (s.terminate p.parent).put pid p.exit) ∨
      (∃ c b, e = .go ∧ p.pc = .child .run ∧ p.commands[p.i]? = some c ∧ c.builtin = some b ∧
        p' = p.goto .returned ∧ Replaces s t pid p') ∨
      (Replaces s t pid p' ∧ ambientNote chdir s (pid, e) amb = amb) := by
  have hlines := h.lines
  have hput : ∀ x, (s.put pid p').procs[x]? = if x = pid then some p' else s.procs[x]? :=
    Sys.getElem?_put hp
  have hsame : ∀ x, s.procs[x]? = if x = pid then some p else s.procs[x]? := by
    intro x
    split
    · next hx => rw [hx, hp]
    · rfl
  cases h with
  | fork hpc hc hargc => exact .inl ⟨_, rfl, hpc, hc, hargc, rfl⟩
  | kExit hpc hc hb => exact .inr (.inl ⟨_, rfl, hpc, hc, hb, rfl⟩)
  | builtin hpc hc hb hne =>
      exact .inr (.inr (.inl ⟨_, _, rfl, hpc, hc, hb, rfl, hput, hlines⟩))
  | reject hpc | readPipe hpc =>
      refine .inr (.inr (.inr ⟨⟨hsame, hlines⟩, ambientNote_quiet hp ?_⟩))
      rw [hpc]
      exact fun _ => ⟨nofun, nofun⟩
  | noWords hpc hc hargc =>
      exact .inr (.inr (.inr ⟨⟨hput, hlines⟩, ambientNote_noWords hp hpc hc hargc⟩))
  | exec hpc hc hb =>
      exact .inr (.inr (.inr ⟨⟨hput, hlines⟩, ambientNote_exec hp hpc hc hb⟩))
  | branch hpc hc hbranch =>
      refine .inr (.inr (.inr ⟨⟨hput, hlines⟩, ambientNote_quiet hp ?_⟩))
      obtain ⟨hrun, -⟩ := branch_cases hbranch
      rw [hpc]
      intro _
      refine ⟨nofun, ?_⟩
      rintro ⟨⟩
      exact hrun rfl
  | killed | term | leave | pipeFailed | forkFailed | execFailed | write | writePipe | brokenPipe
  | ended =>
      exact .inr (.inr (.inr ⟨⟨hput, hlines⟩, ambientNote_quiet hp nofun⟩))
  | accept hpc | lineDone hpc | plain hpc | pipe hpc | waited hpc | next hpc | left hpc =>
      refine .inr (.inr (.inr ⟨⟨hput, hlines⟩, ambientNote_quiet hp ?_⟩))
      rw [hpc]
      exact fun _ => ⟨nofun, nofun⟩

theorem Move.waits (h : Move W s pid p e p' t) (hpc : p.pc = .waiting x) (hkilled : e ≠ .killed) :
    e = .term ∨ (s.procs[x]?).map Proc.pc = some .exited := by
  cases h with
  | killed => exact absurd rfl hkilled
  | term => exact .inl rfl
  | leave hmay =>
      rw [hpc] at hmay
      cases hmay
  | waited hwait hexited =>
      rw [hpc] at hwait
      cases hwait
      exact .inr hexited
  | reject h | accept h | lineDone h | plain h | pipe h | pipeFailed h | noWords h | fork h
  | forkFailed h | branch h | exec h | execFailed h | kExit h | builtin h | next h | left h
  | write h | brokenPipe h | writePipe h | readPipe h | ended h =>
      rw [hpc] at h
      cases h

theorem Move.pending (h : Move W s pid p e p' t) (hpending : p.pending = false) :
    p'.pending = false := by
  cases h with
  | term _ hp' => rw [hp']
  | accept _ _ hp' | plain _ _ _ hp' | pipe _ _ _ hp' =>
      rw [hp']
      exact hpending
  | branch _ _ hbranch =>
      obtain ⟨-, fds, pc, rfl, -⟩ := branch_cases hbranch
      exact hpending
  | _ => exact hpending

theorem Move.foreground (h : Move W s pid p e p' t) (hp : ∀ c ∈ p.commands, c.bg = false)
    (hlines : ∀ cmds, some cmds ∈ s.lines → ∀ c ∈ cmds, c.bg = false) :
    ∀ c ∈ p'.commands, c.bg = false := by
  cases h with
  | accept _ hl hp' =>
      rw [hp']
      exact hlines _ (hl ▸ List.mem_cons_self)
  | pipe _ _ _ hp' =>
      rw [hp']
      exact makePipe_foreground _ hp
  | term _ hp' | plain _ _ _ hp' =>
      rw [hp']
      exact hp
  | branch _ _ hbranch =>
      obtain ⟨-, fds, pc, rfl, -⟩ := branch_cases hbranch
      exact hp
  | _ => exact hp

private theorem Move.keeps (h : Move W s pid p e p' t) (hmain : p.pc.inMain = false)
    (hkilled : e ≠ .killed) :
    p.pc ≠ .exited ∧ p'.commands = p.commands ∧ p'.parent = p.parent ∧ p'.i = p.i ∧
      (p'.pc.inMain = true → p'.pc = .returned ∧
        ∃ stage c, p.pc = .child stage ∧ p.commands[p.i]? = some c) ∧
      ∀ stage, p'.pc = .child stage → ∃ stage, p.pc = .child stage := by
  cases h with
  | killed => exact absurd rfl hkilled
  | term hheeds hp' =>
      rw [hp']
      refine ⟨?_, rfl, rfl, rfl, nofun, nofun⟩
      intro hpc
      rw [hpc] at hheeds
      cases hheeds
  | leave hmay =>
      refine ⟨?_, rfl, rfl, rfl, nofun, nofun⟩
      intro hpc
      rw [hpc] at hmay
      cases hmay
  | branch hpc hc hbranch =>
      obtain ⟨-, fds, pc, rfl, -, hcases⟩ := branch_cases hbranch
      rw [hpc]
      refine ⟨nofun, rfl, rfl, rfl, ?_, fun _ _ => ⟨_, rfl⟩⟩
      intro hin
      refine ⟨?_, _, _, rfl, hc⟩
      rcases hcases with ⟨-, -, rfl⟩ | ⟨-, -, rfl⟩ | ⟨-, stage', rfl, -⟩
      · rfl
      · cases hin
      · cases hin
  | execFailed hpc hc | builtin hpc hc =>
      rw [hpc]
      exact ⟨nofun, rfl, rfl, rfl, fun _ => ⟨rfl, _, _, rfl, hc⟩, nofun⟩
  | exec hpc _ _ hpc' | write hpc _ hpc' | writePipe hpc _ _ _ hpc' =>
      rw [hpc, hpc']
      exact ⟨nofun, rfl, rfl, rfl, nofun, nofun⟩
  | kExit hpc | left hpc | brokenPipe hpc | ended hpc =>
      rw [hpc]
      exact ⟨nofun, rfl, rfl, rfl, nofun, nofun⟩
  | readPipe hpc =>
      rw [hpc]
      exact ⟨nofun, rfl, rfl, rfl, nofun, nofun⟩
  | reject hpc | accept hpc | lineDone hpc | plain hpc | pipe hpc | pipeFailed hpc | noWords hpc
  | fork hpc | forkFailed hpc | waited hpc | next hpc =>
      rw [hpc] at hmain
      cases hmain

private theorem Proc.call_of_faultless {b : Builtin} {ambient : Ambient}
    (h : p.faultless chdir ambient = true) (hpc : p.pc = .child .run)
    (hc : p.commands[p.i]? = some c) (hb : c.builtin = some b) :
    ∃ status ambient', b.call chdir c ambient = .ok (status, ambient') := by
  rw [faultless, hpc, hc] at h
  dsimp only at h
  rw [hb] at h
  dsimp only at h
  cases hcall : b.call chdir c ambient with
  | ok r => exact ⟨r.1, r.2, rfl⟩
  | error e =>
      rw [hcall] at h
      cases h

private theorem step_term (hp : s.procs[pid]? = some p) (h : step W s (pid, .term) = some t) :
    p.pending = true := by
  rw [step, hp] at h
  dsimp only at h
  split at h
  · next hcond => exact (Bool.and_eq_true_iff.mp hcond).2
  · cases h

private theorem nested_step {a : Nat × Event} (h : Nested chdir s amb shells)
    (hok : Orderly chdir (s, amb) a) (hstep : step W s a = some t) :
    ∃ shells', Nested chdir t (ambientNote chdir s a amb) shells' := by
  obtain ⟨pid, e⟩ := a
  obtain ⟨p, p', hp, hmove⟩ := step_move hstep
  obtain ⟨hkilled, hproc⟩ := hok
  dsimp only at hproc
  rw [hp, Option.all_some, Bool.and_eq_true, decide_eq_true_iff] at hproc
  obtain ⟨hterm, hfaultless⟩ := hproc
  have hfg := hmove.foreground (h.foreground pid p hp) h.lines
  rcases hmove.kinds hp chdir amb with ⟨c, rfl, hpc, hc, hargc, rfl⟩ |
    ⟨c, rfl, hpc, hc, hb, rfl⟩ | ⟨c, b, rfl, hpc, hc, hb, rfl, ht⟩ | ⟨ht, hnote⟩
  · have hpending : p.pending = false := by
      rw [← Bool.not_eq_true]
      exact fun hpending => nomatch hterm hpending
    refine ⟨shells, ?_⟩
    rw [ambientNote_fork hp hpc hc hargc]
    apply h.fork hp hpc hc hpending (Function.update_self _ _ _)
    intro x hx
    exact Function.update_of_ne (Nat.ne_of_lt hx) _ _
  · refine ⟨shells, ?_⟩
    have hcall : Builtin.exit.call chdir c (amb pid) = .ok (0, amb pid) := rfl
    rw [ambientNote_builtin hp hpc hc hb hcall, Function.update_eq_self]
    exact h.kExit hp hpc
  · obtain ⟨status, ambient, hcall⟩ := Proc.call_of_faultless hfaultless hpc hc hb
    refine ⟨pid :: shells, ?_⟩
    rw [ambientNote_builtin hp hpc hc hb hcall]
    apply h.nest hp hpc hc ht rfl rfl rfl
    · intro x hx
      exact Function.update_of_ne hx _ _
    · rw [Function.update_self]
      exact .inr ⟨b, status, hb, hcall⟩
  · rw [hnote]
    cases hmain : p.pc.inMain with
    | true =>
        have hexited : ∀ x q, p.pc = .waiting x → s.procs[x]? = some q → q.pc = .exited := by
          intro x q hpc hq
          have hx : (s.procs[x]?).map Proc.pc = some .exited := by
            rcases hmove.waits hpc hkilled with rfl | hx
            · obtain ⟨child, below, -, hwait, hchild⟩ := h.pending pid p hp (step_term hp hstep)
              rw [hpc] at hwait
              cases hwait
              exact hchild
            · exact hx
          rw [hq] at hx
          exact Option.some.inj hx
        have hnot : ∀ stage, p'.pc ≠ .child stage := by
          apply hmove.not_child
          intro stage hpc
          rw [hpc] at hmain
          cases hmain
        have hquiet : p'.pending = false := by
          cases e with
          | term =>
              cases hmove with
              | term _ hp' => rw [hp']
              | branch _ _ hbranch =>
                  obtain ⟨-, fds, pc, rfl, -, hcases⟩ := branch_cases hbranch
                  rcases hcases with ⟨he, -⟩ | ⟨he, -⟩ | ⟨he, -⟩ <;> cases he
          | _ =>
              apply hmove.pending
              rw [← Bool.not_eq_true]
              exact fun hpending => nomatch hterm hpending
        exact h.main hp hmain hexited ht hnot hquiet hfg
    | false =>
        obtain ⟨hmoves, hcommands, hparent, hi, hreturns, hchild⟩ := hmove.keeps hmain hkilled
        have hquiet := h.quiet hp hmain
        have hpending : p'.pending = p.pending := (hmove.pending hquiet).trans hquiet.symm
        cases hmain' : p'.pc.inMain with
        | true =>
            obtain ⟨hpc', stage, c, hpc, hc⟩ := hreturns hmain'
            refine ⟨pid :: shells, ?_⟩
            exact h.nest hp hpc hc ht hpc' hpending hcommands (fun _ _ => rfl) (.inl rfl)
        | false =>
            refine ⟨shells, ?_⟩
            exact h.outside hp hmain hmoves ht hmain' hpending hcommands
              fun stage hpc => ⟨hchild stage hpc, hparent, hi⟩

/-! ## What a shell keeps -/

/-- A process that is not in the branch of a child has this memory. -/
def Stays (x : Nat) (ambient : Ambient) (s : Sys × (Nat → Ambient)) : Prop :=
  s.2 x = ambient ∧ ∃ q, s.1.procs[x]? = some q ∧ ∀ stage, q.pc ≠ .child stage

private theorem ambientNote_other (a : Nat × Event) (hq : s.procs[x]? = some q)
    (hchild : ∀ stage, q.pc ≠ .child stage) : ambientNote chdir s a amb x = amb x := by
  have hlt : x < s.procs.length := (List.getElem?_eq_some_iff.mp hq).1
  generalize hamb : ambientNote chdir s a amb = amb'
  unfold ambientNote at hamb
  split at hamb
  · next p hp _ =>
      split at hamb
      · split at hamb <;> subst hamb
        · rfl
        · exact Function.update_of_ne (Nat.ne_of_lt hlt) _ _
      · next hpc _ =>
          have hne : x ≠ a.1 := by
            rintro rfl
            rw [hq] at hp
            cases hp
            exact hchild _ hpc
          split at hamb
          · split at hamb <;> subst hamb
            · exact Function.update_of_ne hne _ _
            · rfl
          · rw [hamb]
      · rw [hamb]
  · rw [hamb]

private theorem stays_step {ambient : Ambient} {u v : Sys × (Nat → Ambient)} {a : Nat × Event}
    (h : Stays x ambient u) (hstep : stepAmbient W chdir u a = some v) : Stays x ambient v := by
  obtain ⟨s, amb⟩ := u
  obtain ⟨t, amb'⟩ := v
  obtain ⟨hst, rfl⟩ := recorded_eq_some.mp hstep
  obtain ⟨hamb, q, hq, hchild⟩ := h
  obtain ⟨p, p', hp, hmove⟩ := step_move hst
  refine ⟨(ambientNote_other a hq hchild).trans hamb, ?_⟩
  by_cases hx : x = a.1
  · subst hx
    rw [hp] at hq
    cases hq
    exact ⟨p', hmove.own hp, hmove.not_child hchild⟩
  · obtain ⟨b, hb⟩ := hmove.other hp hx hq
    exact ⟨_, hb, hchild⟩

/-! ## Runs -/

private theorem nested_start (a : Ambient) (lines : List (Option (List Cmd)))
    (hlines : ∀ cmds, some cmds ∈ lines → ∀ c ∈ cmds, c.bg = false) :
    Nested chdir (Sys.start lines) (fun _ => a) [0] := by
  have honly : ∀ {x q}, (Sys.start lines).procs[x]? = some q → x = 0 ∧ q = kcsh := by
    intro x q hq
    cases x with
    | zero => exact ⟨rfl, (Option.some.inj hq).symm⟩
    | succ x => cases hq
  exact
    { alive := by
        intro x hx
        rw [List.mem_singleton.mp hx]
        exact ⟨kcsh, rfl⟩
      members := by
        intro x q hq
        obtain ⟨rfl, rfl⟩ := honly hq
        exact iff_of_true rfl List.mem_cons_self
      root := by
        intro x hx
        cases hx
        rfl
      sorted := List.pairwise_singleton _ _
      chain := List.isChain_singleton _
      branch := by
        intro x q stage hq hpc
        obtain ⟨rfl, rfl⟩ := honly hq
        cases hpc
      pending := by
        intro x q hq hpend
        obtain ⟨rfl, rfl⟩ := honly hq
        cases hpend
      foreground := by
        intro x q hq
        obtain ⟨rfl, rfl⟩ := honly hq
        exact nofun
      lines := hlines }

variable {a₀ : Ambient} {lines : List (Option (List Cmd))} {as bs : List (Nat × Event)}

private theorem nested_run {u v : Sys × (Nat → Ambient)}
    (hrun : run (stepAmbient W chdir) u as = some v)
    (hok : Guarded (stepAmbient W chdir) (Orderly chdir) u as)
    (h : ∃ shells, Nested chdir u.1 u.2 shells) : ∃ shells, Nested chdir v.1 v.2 shells := by
  refine run_invariant_of_guarded (I := fun u => ∃ shells, Nested chdir u.1 u.2 shells)
    ?_ hrun hok h
  rintro ⟨s, amb⟩ a ⟨t, amb'⟩ ⟨shells, hs⟩ ha hstep
  obtain ⟨hst, rfl⟩ := recorded_eq_some.mp hstep
  exact nested_step hs ha hst

/-- When a shell goes on that has waited for others, all of them have left `main`, and its
directory, environment and variables are those it had. -/
theorem shell_restored (hlines : ∀ cmds, some cmds ∈ lines → ∀ c ∈ cmds, c.bg = false)
    (hrun : run (stepAmbient W chdir) (Sys.start lines, fun _ => a₀) as = some (s, amb))
    (hok : Guarded (stepAmbient W chdir) (Orderly chdir) (Sys.start lines, fun _ => a₀) as)
    (hrun' : run (stepAmbient W chdir) (s, amb) bs = some (t, amb'))
    (hok' : Guarded (stepAmbient W chdir) (Orderly chdir) (s, amb) bs)
    (hp : s.procs[pid]? = some p) (hmain : p.pc.inMain = true) (hq : t.procs[pid]? = some q)
    (hmain' : q.pc.inMain = true) (hgoes : ∀ child, q.pc ≠ .waiting child) :
    amb' pid = amb pid ∧
      ∀ x r, s.procs.length ≤ x → t.procs[x]? = some r → r.pc.inMain = false := by
  have hs := nested_run hrun hok ⟨[0], nested_start a₀ lines hlines⟩
  obtain ⟨shells, ht⟩ := nested_run hrun' hok' hs
  constructor
  · have hstart : Stays pid (amb pid) (s, amb) := by
      refine ⟨rfl, p, hp, ?_⟩
      intro stage hpc
      rw [hpc] at hmain
      cases hmain
    have hend : Stays pid (amb pid) (t, amb') :=
      run_invariant (fun _ _ _ => stays_step) hrun' hstart
    exact hend.1
  · intro x r hx hr
    obtain ⟨⟨below, rfl⟩, -⟩ := ht.newest hq hmain' fun child _ hwait => absurd hwait (hgoes child)
    have hlt : pid < s.procs.length := (List.getElem?_eq_some_iff.mp hp).1
    rw [← Bool.not_eq_true, ht.members x r hr, List.mem_cons, not_or]
    refine ⟨by omega, fun hmem => ?_⟩
    have hold := (List.pairwise_cons.mp ht.sorted).1 x hmem
    omega

/-- After `cd` and `exit` the shell is where it was. -/
theorem shell_restored_cd :
    ∃ t amb', run (stepAmbient ⟨1, fun _ => 0⟩ fun _ path => some path)
        (Sys.start [some (lineOf ['c', 'd']), some (lineOf ['e', 'x', 'i', 't'])],
          fun _ => ⟨['~'], fun _ => none, []⟩)
        (launchRun 7 ++ [(1, .go), (1, .go), (1, .go), (2, .go), (2, .go), (2, .go), (2, .go),
          (2, .go), (1, .term), (1, .go), (0, .go), (0, .go), (0, .go)]) = some (t, amb') ∧
      amb' 0 = ⟨['~'], fun _ => none, []⟩ ∧
      ∀ x r, 1 ≤ x → t.procs[x]? = some r → r.pc.inMain = false := by
  have hpc : (run (stepAmbient ⟨1, fun _ => 0⟩ fun _ path => some path)
      (Sys.start [some (lineOf ['c', 'd']), some (lineOf ['e', 'x', 'i', 't'])],
        fun _ => ⟨['~'], fun _ => none, []⟩)
      (launchRun 7 ++ [(1, .go), (1, .go), (1, .go), (2, .go), (2, .go), (2, .go), (2, .go),
        (2, .go), (1, .term), (1, .go), (0, .go), (0, .go), (0, .go)])).map
          (fun u => (u.1.procs[0]?).map Proc.pc) = some (some .readLine) := by decide
  obtain ⟨⟨t, amb'⟩, hrun, hproc⟩ := Option.map_eq_some_iff.mp hpc
  obtain ⟨q, hq, hread⟩ := Option.map_eq_some_iff.mp hproc
  have hmain : q.pc.inMain = true := by
    rw [hread]
    rfl
  have hgoes : ∀ child, q.pc ≠ .waiting child := by
    rw [hread]
    exact nofun
  have hstart : run (stepAmbient ⟨1, fun _ => 0⟩ fun _ path => some path)
      (Sys.start [some (lineOf ['c', 'd']), some (lineOf ['e', 'x', 'i', 't'])],
        fun _ => ⟨['~'], fun _ => none, []⟩) [] = some _ := rfl
  refine ⟨t, amb', hrun, ?_⟩
  exact shell_restored (by simp [lineOf]) hstart trivial hrun (by decide) rfl rfl hq hmain hgoes

end SyssoftLabs.Lab4
