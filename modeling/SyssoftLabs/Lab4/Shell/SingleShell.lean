import SyssoftLabs.Lab4.Shell.Moves

/-!
# Who runs the loop of `main`

A child that gives up in its branch of `fork_and_exec` returns into its own copy of the loop of
`main` and is a second shell from then on. The steps at which a child returns are named; a run has a
single shell throughout exactly if it has none of them.
-/

namespace SyssoftLabs.Lab4

open SyssoftLabs.Framework

/-- In `main` or in the parent's branch of `fork_and_exec`. -/
def Pc.inMain : Pc → Bool
  | .readLine | .launch | .forkExec | .waiting _ | .returned => true
  | .child _ | .leaving | .replaced _ | .exited => false

/-- Nobody but the process started as kcsh runs the loop of `main`. -/
def OnlyShell (s : Sys) : Prop :=
  ∀ pid p, pid ≠ 0 → s.procs[pid]? = some p → p.pc.inMain = false

/-- The child returns from `fork_and_exec`: after a system call that fails, except for the
`dup2` of the standard output, or after a built-in other than `exit`. -/
def Stage.givesUp (command : Option Builtin) : Stage → Event → Bool
  | .dupOut, _ => false
  | .run, .go => command.isSome && command != some .exit
  | _, .fail => true
  | _, _ => false

def Proc.givesUp (p : Proc) (e : Event) : Bool :=
  match p.pc with
  | .child stage => stage.givesUp (p.commands[p.i]?.bind Cmd.builtin) e
  | _ => false

/-- In this step no child returns from `fork_and_exec`. -/
def Settles (s : Sys) (a : Nat × Event) : Prop :=
  (s.procs[a.1]?).any (fun p => p.givesUp a.2) = false

instance (s : Sys) (a : Nat × Event) : Decidable (Settles s a) :=
  inferInstanceAs (Decidable (_ = false))

def Pc.stepsLeft : Pc → Nat
  | .child stage => stage.stepsLeft
  | .leaving => 1
  | _ => 0

/-- The steps a process has left in its branch; all of them before it is forked. -/
def Sys.stepsLeft (s : Sys) (pid : Nat) : Nat := (s.procs[pid]?).elim 8 fun p => p.pc.stepsLeft

/-- A forked process that was not replaced and has not ended has taken fewer than eight steps and
is not blocked. -/
def Settling (W : World) (as : List (Nat × Event)) (s : Sys) : Prop :=
  ∀ pid p, pid ≠ 0 → s.procs[pid]? = some p → p.pc.inShell = true →
    as.countP (fun a => a.1 = pid) < 8 ∧
      ∃ e t, (e = .go ∨ e = .fail) ∧ step W s (pid, e) = some t

variable {W : World} {s t : Sys} {pid : Nat} {p p' : Proc} {e : Event}

/-! ## The branch of the child -/

private theorem branch_enabled (p : Proc) (c : Cmd) {stage : Stage} (h : stage ≠ .run) :
    ∃ e p', (e = .go ∨ e = .fail) ∧ p.branch c stage e = some p' := by
  cases stage with
  | dupIn =>
      by_cases hin : c.input = 0
      · exact ⟨.go, _, .inl rfl, by rw [Proc.branch, Proc.duplicate, if_pos hin]; rfl⟩
      · exact ⟨.fail, _, .inr rfl, if_neg hin⟩
  | dupOut =>
      by_cases hout : c.out = 1
      · exact ⟨.go, _, .inl rfl, by rw [Proc.branch, Proc.duplicate, if_pos hout]; rfl⟩
      · exact ⟨.fail, _, .inr rfl, if_neg hout⟩
  | openOut =>
      by_cases hred : c.redirect = true
      · exact ⟨.fail, _, .inr rfl, if_pos hred⟩
      · exact ⟨.go, _, .inl rfl, if_neg hred⟩
  | openIn =>
      by_cases hred : c.redirectIn = true
      · exact ⟨.fail, _, .inr rfl, if_pos hred⟩
      · exact ⟨.go, _, .inl rfl, if_neg hred⟩
  | moveOut fd => exact ⟨.fail, _, .inr rfl, rfl⟩
  | moveIn fd => exact ⟨.fail, _, .inr rfl, rfl⟩
  | run => exact absurd rfl h

/-! ## One step -/

private theorem Stage.givesUp_go {stage : Stage} (command : Option Builtin) (h : stage ≠ .run) :
    stage.givesUp command .go = false := by
  cases stage with
  | run => exact absurd rfl h
  | _ => rfl

private theorem Stage.givesUp_fail {stage : Stage} (command : Option Builtin)
    (h : stage ≠ .dupOut) :
    stage.givesUp command .fail = true := by
  cases stage with
  | dupOut => exact absurd rfl h
  | _ => rfl

private theorem Proc.givesUp_child {stage : Stage} {c : Cmd} (hpc : p.pc = .child stage)
    (hc : p.commands[p.i]? = some c) (e : Event) : p.givesUp e = stage.givesUp c.builtin e := by
  rw [givesUp, hpc, hc]
  rfl

private theorem Proc.givesUp_signal (p : Proc) (e : Event) (hgo : e ≠ .go) (hfail : e ≠ .fail) :
    p.givesUp e = false := by
  unfold givesUp Stage.givesUp
  split
  · split
    · rfl
    · exact absurd rfl hgo
    · exact absurd rfl hfail
    · rfl
  · rfl

private theorem Move.enters_main (h : Move W s pid p e p' t) (hp : p.pc.inMain = false) :
    p'.pc.inMain = p.givesUp e := by
  cases h with
  | @branch stage c e p' hpc hc hp' =>
      rw [p.givesUp_child hpc hc]
      obtain ⟨hrun, fds, pc, rfl, -, hcases⟩ := branch_cases hp'
      rcases hcases with ⟨rfl, hout, rfl⟩ | ⟨rfl, rfl, rfl⟩ | ⟨rfl, stage', rfl, -⟩
      · rw [stage.givesUp_fail _ hout]
        rfl
      · rfl
      · rw [stage.givesUp_go _ hrun]
        rfl
  | exec hpc hc hb hpc' =>
      rw [p.givesUp_child hpc hc, hb, hpc']
      rfl
  | execFailed hpc hc hb =>
      rw [p.givesUp_child hpc hc]
      rfl
  | kExit hpc hc hb =>
      rw [p.givesUp_child hpc hc, hb]
      rfl
  | builtin hpc hc hb hne =>
      rw [p.givesUp_child hpc hc, hb]
      simp [Stage.givesUp, Proc.goto, Pc.inMain, hne]
  | killed =>
      rw [p.givesUp_signal .killed nofun nofun]
      rfl
  | leave =>
      rw [p.givesUp_signal .leave nofun nofun]
      rfl
  | term _ hp' =>
      rw [p.givesUp_signal .term nofun nofun, hp']
      rfl
  | left hpc | ended hpc | brokenPipe hpc _ _ | readPipe hpc _ _ =>
      rw [Proc.givesUp, hpc]
      rfl
  | write hpc _ hpc' | writePipe hpc _ _ _ hpc' =>
      rw [Proc.givesUp, hpc, hpc']
      rfl
  | reject hpc _ | accept hpc _ _ | lineDone hpc _ | plain hpc _ _ _ | pipe hpc _ _ _
  | pipeFailed hpc _ _ | noWords hpc _ _ | fork hpc _ _ _ | forkFailed hpc _ _ | waited hpc _
  | next hpc =>
      rw [hpc] at hp
      cases hp

theorem Move.not_child (h : Move W s pid p e p' t) (hp : ∀ stage, p.pc ≠ .child stage) :
    ∀ stage, p'.pc ≠ .child stage := by
  cases h with
  | branch hpc | exec hpc | execFailed hpc | kExit hpc | builtin hpc => exact absurd hpc (hp _)
  | reject | readPipe => exact hp
  | term _ hp' | accept _ _ hp' | plain _ _ _ hp' | pipe _ _ _ hp' =>
      rw [hp']
      exact nofun
  | fork _ _ _ hpc' =>
      rw [hpc']
      split <;> exact nofun
  | write _ _ hpc' | writePipe _ _ _ _ hpc' =>
      rw [hpc']
      exact nofun
  | _ => exact nofun

private theorem Stage.one_lt_stepsLeft (stage : Stage) : 1 < stage.stepsLeft := by
  cases stage <;> simp [stepsLeft]

theorem Move.stepsLeft (h : Move W s pid p e p' t) (hp : p.pc.inMain = false) :
    p'.pc.stepsLeft < p.pc.stepsLeft ∨ p'.pc.stepsLeft = 0 := by
  cases h with
  | @branch stage c e p' hpc hc hp' =>
      rw [hpc]
      obtain ⟨-, fds, pc, rfl, -, hcases⟩ := branch_cases hp'
      rcases hcases with ⟨-, -, rfl⟩ | ⟨-, rfl, rfl⟩ | ⟨-, stage', rfl, hlt⟩
      · exact Or.inr rfl
      · exact Or.inl (by decide : 1 < 7)
      · exact Or.inl hlt
  | exec _ _ _ hpc' | write _ _ hpc' | writePipe _ _ _ _ hpc' =>
      rw [hpc']
      exact Or.inr rfl
  | term hterm hp' =>
      rw [hp']
      cases hpc : p.pc with rw [hpc] at hp hterm
      | child stage => exact Or.inl stage.one_lt_stepsLeft
      | leaving | replaced | exited => cases hterm
      | readLine | launch | forkExec | waiting | returned => cases hp
  | leave hmay =>
      cases hpc : p.pc with rw [hpc] at hp hmay
      | child stage => exact Or.inl stage.one_lt_stepsLeft
      | leaving | replaced | exited => cases hmay
      | readLine | launch | forkExec | waiting | returned => cases hp
  | readPipe hpc _ _ =>
      rw [hpc]
      exact Or.inr rfl
  | reject hpc _ | accept hpc _ _ | lineDone hpc _ | plain hpc _ _ _ | pipe hpc _ _ _
  | pipeFailed hpc _ _ | noWords hpc _ _ | fork hpc _ _ _ | forkFailed hpc _ _ | waited hpc _
  | next hpc =>
      rw [hpc] at hp
      cases hp
  | _ => exact Or.inr rfl

/-! ## Runs -/

/-- The process started as kcsh is in no child's branch, and every child has its command. -/
structure Rooted (s : Sys) : Prop where
  root : ∃ q, s.procs[0]? = some q ∧ ∀ stage, q.pc ≠ .child stage
  command : ∀ (pid : Nat) (p : Proc) (stage : Stage), s.procs[pid]? = some p →
    p.pc = .child stage → ∃ c, p.commands[p.i]? = some c

theorem Move.command {stage : Stage} (h : Move W s pid p e p' t) (hp' : p'.pc = .child stage)
    (hc : ∀ stage, p.pc = .child stage → ∃ c, p.commands[p.i]? = some c) :
    ∃ c, p'.commands[p'.i]? = some c := by
  cases h with
  | branch _ hcommand hbranch =>
      obtain ⟨-, fds, pc, rfl, -⟩ := branch_cases hbranch
      exact ⟨_, hcommand⟩
  | reject | readPipe => exact hc stage hp'
  | term _ heq | accept _ _ heq | plain _ _ _ heq | pipe _ _ _ heq =>
      rw [heq] at hp'
      cases hp'
  | exec _ _ _ heq | write _ _ heq | writePipe _ _ _ _ heq =>
      rw [heq] at hp'
      cases hp'
  | fork _ _ _ heq =>
      rw [heq] at hp'
      split at hp' <;> cases hp'
  | _ => cases hp'

private theorem rooted_step {a : Nat × Event} (hs : Rooted s) (h : step W s a = some t) :
    Rooted t := by
  obtain ⟨p, p', hp, hmove⟩ := step_move h
  constructor
  · obtain ⟨q, hq, hchild⟩ := hs.root
    by_cases hroot : 0 = a.1
    · rw [hroot, hp] at hq
      cases hq
      exact ⟨p', hroot ▸ hmove.own hp, hmove.not_child hchild⟩
    · obtain ⟨b, hb⟩ := hmove.other hp hroot hq
      exact ⟨_, hb, hchild⟩
  · intro x q' stage hq' hpc'
    rcases hmove.origin hp hq' with ⟨-, rfl⟩ | ⟨-, q, b, hq, rfl⟩ | ⟨-, -, rfl, hc⟩
    · exact hmove.command hpc' fun stage hpc => hs.command a.1 p stage hp hpc
    · exact hs.command x q stage hq hpc'
    · exact hc

private theorem onlyShell_step {a : Nat × Event} (hr : Rooted s) (hs : OnlyShell s)
    (h : step W s a = some t) : OnlyShell t ↔ Settles s a := by
  obtain ⟨p, p', hp, hmove⟩ := step_move h
  have hsettles : Settles s a ↔ p.givesUp a.2 = false := by
    rw [Settles, hp]
    rfl
  rw [hsettles]
  constructor
  · intro ht
    by_cases hroot : a.1 = 0
    · obtain ⟨q, hq, hchild⟩ := hr.root
      rw [← hroot, hp] at hq
      cases hq
      unfold Proc.givesUp
      split
      · next hpc => exact absurd hpc (hchild _)
      · rfl
    · rw [← hmove.enters_main (hs _ p hroot hp)]
      exact ht _ p' hroot (hmove.own hp)
  · intro hok x q' hx hq'
    rcases hmove.origin hp hq' with ⟨rfl, rfl⟩ | ⟨-, q, b, hq, rfl⟩ | ⟨-, -, rfl, -⟩
    · rw [hmove.enters_main (hs _ p hx hp), hok]
    · exact hs x q hx hq
    · rfl

private theorem stepsLeft_own {a : Nat × Event} (hs : OnlyShell s) (hpid : a.1 ≠ 0)
    (h : step W s a = some t) :
    t.stepsLeft a.1 < s.stepsLeft a.1 ∨ t.stepsLeft a.1 = 0 := by
  obtain ⟨p, p', hp, hmove⟩ := step_move h
  rw [Sys.stepsLeft, Sys.stepsLeft, hp, hmove.own hp]
  exact hmove.stepsLeft (hs a.1 p hpid hp)

private theorem stepsLeft_le {a : Nat × Event} (hs : OnlyShell s) (hpid : pid ≠ 0)
    (h : step W s a = some t) : t.stepsLeft pid ≤ s.stepsLeft pid := by
  by_cases hown : a.1 = pid
  · subst hown
    rcases stepsLeft_own hs hpid h with hlt | hzero
    · exact Nat.le_of_lt hlt
    · omega
  · obtain ⟨p, p', hp, hmove⟩ := step_move h
    unfold Sys.stepsLeft
    cases hq' : t.procs[pid]? with
    | none =>
        cases hq : s.procs[pid]? with
        | none => exact Nat.le_refl _
        | some q =>
            obtain ⟨b, hb⟩ := hmove.other hp (Ne.symm hown) hq
            rw [hb] at hq'
            cases hq'
    | some q' =>
        rcases hmove.origin hp hq' with ⟨rfl, -⟩ | ⟨-, q, b, hq, rfl⟩ | ⟨rfl, -, rfl, -⟩
        · exact absurd rfl hown
        · rw [hq]
          exact Nat.le_refl _
        · rw [List.getElem?_eq_none (Nat.le_refl _)]
          exact Nat.le_refl _

private theorem finish_go (W : World) (s : Sys) (pid : Nat) (p : Proc) (c : Cmd) :
    ∃ t, s.finish W pid p c .go = some t := by
  unfold Sys.finish
  cases c.builtin with
  | none => exact ⟨_, rfl⟩
  | some b => cases b <;> exact ⟨_, rfl⟩

private theorem child_enabled (W : World) {stage : Stage} {c : Cmd} (hp : s.procs[pid]? = some p)
    (hpc : p.pc = .child stage) (hc : p.commands[p.i]? = some c) :
    ∃ e t, (e = .go ∨ e = .fail) ∧ step W s (pid, e) = some t := by
  have hgo : step W s (pid, .go) = s.child W pid p stage .go := by
    rw [step_advance hp .go nofun nofun nofun, Sys.advance, hpc]
  have hfail : step W s (pid, .fail) = s.child W pid p stage .fail := by
    rw [step_advance hp .fail nofun nofun nofun, Sys.advance, hpc]
  by_cases hrun : stage = .run
  · have hfinish : s.child W pid p stage .go = s.finish W pid p c .go := by
      rw [Sys.child, hc]
      exact if_pos hrun
    obtain ⟨t, ht⟩ := finish_go W s pid p c
    exact ⟨.go, t, .inl rfl, hgo.trans (hfinish.trans ht)⟩
  · obtain ⟨e, p', he, hp'⟩ := branch_enabled p c hrun
    have hbranch : s.child W pid p stage e = some (s.put pid p') := by
      rw [Sys.child, hc]
      show (if stage = .run then _ else _) = _
      rw [if_neg hrun, hp']
      rfl
    rcases he with rfl | rfl
    · exact ⟨.go, _, .inl rfl, hgo.trans hbranch⟩
    · exact ⟨.fail, _, .inr rfl, hfail.trans hbranch⟩

private theorem settling (W : World) {lines : List (Option (List Cmd))} {as : List (Nat × Event)}
    (h : run (step W) (Sys.start lines) as = some t)
    (hs : Throughout (step W) OnlyShell (Sys.start lines) as) (ht : Rooted t) :
    Settling W as t := by
  intro pid p hpid hp hin
  have hmain : p.pc.inMain = false := hs.last h pid p hpid hp
  have hleft : t.stepsLeft pid = p.pc.stepsLeft := by
    rw [Sys.stepsLeft, hp]
    rfl
  have hall : (Sys.start lines).stepsLeft pid = 8 := by
    cases pid with
    | zero => exact absurd rfl hpid
    | succ pid => rfl
  have hcount : 0 < t.stepsLeft pid →
      as.countP (fun a => a.1 = pid) + t.stepsLeft pid ≤ (Sys.start lines).stepsLeft pid := by
    refine countP_add_le (m := fun s => s.stepsLeft pid) (fun s a u hs hu ha => ?_)
      (fun s a u hs hu => ?_) h hs
    · obtain rfl : a.1 = pid := by simpa using ha
      exact stepsLeft_own hs hpid hu
    · exact stepsLeft_le hs hpid hu
  rw [hall, hleft] at hcount
  cases hpc : p.pc with rw [hpc] at hmain hin hcount
  | child stage =>
      have hone := stage.one_lt_stepsLeft
      have hle := hcount (Nat.lt_trans Nat.one_pos hone)
      obtain ⟨c, hc⟩ := ht.command pid p stage hp hpc
      refine ⟨?_, child_enabled W hp hpc hc⟩
      have hstage : (Pc.child stage).stepsLeft = stage.stepsLeft := rfl
      omega
  | leaving =>
      have hle := hcount Nat.one_pos
      refine ⟨Nat.lt_of_succ_le hle, .go, t.put pid p.exit, .inl rfl, ?_⟩
      rw [step_advance hp .go nofun nofun nofun, Sys.advance, hpc]
      exact if_pos rfl
  | readLine | launch | forkExec | waiting | returned => cases hmain
  | replaced | exited => cases hin

/-- A run keeps to a single shell, with every child replaced or ended after less than eight steps of
its own, exactly if no child returns from `fork_and_exec` in it. -/
theorem single_shell_iff (W : World) (lines : List (Option (List Cmd))) {as : List (Nat × Event)}
    (h : run (step W) (Sys.start lines) as = some t) :
    Throughout (step W) OnlyShell (Sys.start lines) as ∧ Settling W as t ↔
      Guarded (step W) Settles (Sys.start lines) as := by
  have hrooted : Rooted (Sys.start lines) := by
    constructor
    · exact ⟨kcsh, rfl, nofun⟩
    · intro pid p stage hp hpc
      cases pid with
      | zero =>
          cases hp
          cases hpc
      | succ pid => cases hp
  have honly : OnlyShell (Sys.start lines) := by
    intro pid p hpid hp
    cases pid with
    | zero => exact absurd rfl hpid
    | succ pid => cases hp
  have hiff := throughout_iff_guarded (fun s a u hs => rooted_step (W := W) hs)
    (fun s a u hr hs => onlyShell_step hr hs) h hrooted honly
  constructor
  · rintro ⟨hthroughout, -⟩
    exact hiff.mp hthroughout
  · intro hguarded
    have hthroughout := hiff.mpr hguarded
    have ht : Rooted t := run_invariant (fun s a u hs => rooted_step (W := W) hs) h hrooted
    exact ⟨hthroughout, settling W h hthroughout ht⟩

/-- The command of a line that calls a program or a built-in with one argument. -/
def lineOf (name : CStr) : List Cmd :=
  [⟨2, [some name, some ['/'], none], 0, 1, false, false, false, false, none, false, none⟩]

/-- The loop reads the line, `fork` succeeds, and the child takes so many steps. -/
def launchRun (n : Nat) : List (Nat × Event) :=
  [(0, .go), (0, .go), (0, .go)] ++ List.replicate n (1, .go)

/-- The child of `cd` returns from `fork_and_exec` and reads the next line. -/
theorem single_shell_fails :
    ¬ ∀ (W : World) (lines : List (Option (List Cmd))) (as : List (Nat × Event)) (t : Sys),
      run (step W) (Sys.start lines) as = some t → OnlyShell t := by
  intro h
  have hrun : (run (step ⟨1, fun _ => 0⟩) (Sys.start [some (lineOf ['c', 'd'])])
      (launchRun 7)).map (fun t => (t.procs[1]?).map Proc.pc) = some (some .readLine) := by decide
  obtain ⟨t, ht, hpc⟩ := Option.map_eq_some_iff.mp hrun
  obtain ⟨p, hp, hmain⟩ := Option.map_eq_some_iff.mp hpc
  have honly := h _ _ _ t ht 1 p Nat.one_ne_zero hp
  rw [hmain] at honly
  cases honly

theorem single_shell_external :
    ∃ t, run (step ⟨1, fun _ => 0⟩) (Sys.start [some (lineOf ['l', 's'])]) (launchRun 5) = some t ∧
      Throughout (step ⟨1, fun _ => 0⟩) OnlyShell (Sys.start [some (lineOf ['l', 's'])])
        (launchRun 5) ∧ Settling ⟨1, fun _ => 0⟩ (launchRun 5) t := by
  have hrun : (run (step ⟨1, fun _ => 0⟩) (Sys.start [some (lineOf ['l', 's'])])
      (launchRun 5)).isSome = true := by decide
  obtain ⟨t, ht⟩ := Option.isSome_iff_exists.mp hrun
  exact ⟨t, ht, (single_shell_iff _ _ ht).mpr (by decide)⟩

end SyssoftLabs.Lab4
