import SyssoftLabs.Lab4.Parser.Printing
import SyssoftLabs.Lab4.Shell.Supply

/-!
# Pipelines that block their own launch

The shell waits for a stage of a foreground pipeline before it forks the next one. A stage that
writes more than its pipe holds is never read, and the shell waits forever. The stages whose output
fits into their pipes are the only ones that always come through.
-/

namespace SyssoftLabs.Lab4

open SyssoftLabs.Framework

/-- The shell is blocked in `waitpid` for a stage that is blocked writing to a full pipe, and the
command that is to read from the pipe is the one the shell has not got to yet. -/
def Deadlocked (W : World) (s : Sys) (shell : Nat) : Prop :=
  ∃ (q p : Proc) (pid left k : Nat) (c : Cmd),
    s.procs[shell]? = some q ∧ q.pc = .waiting pid ∧
      s.procs[pid]? = some p ∧ p.pc = .replaced (left + 1) ∧
      Descriptors.get p.fds 1 = some (.write k) ∧ s.pipes[k]? = some W.capacity ∧
      q.commands[q.i + 1]? = some c ∧ Descriptors.get q.fds c.input = some (.read k)

variable {W : World} {s t : Sys} {pid : Nat} {p p' : Proc} {e : Event}

private theorem hasReader_of_holds {k : Nat} (hp : s.procs[pid]? = some p)
    (h : Descriptors.Holds p.fds (.read k)) : s.hasReader k = true := by
  obtain ⟨n, hn⟩ := h
  have hfd : p.fds[n]? = some (some (.read k)) := Option.join_eq_some_iff.mp hn
  have hcontains : p.fds.contains (some (.read k)) = true :=
    List.contains_iff_mem.mpr (List.mem_of_getElem? hfd)
  exact List.any_eq_true.mpr ⟨p, List.mem_of_getElem? hp, hcontains⟩

/-- Neither the shell nor the stage can go on: the shell itself keeps the pipe from breaking. -/
theorem Deadlocked.blocked {shell : Nat} (h : Deadlocked W s shell) :
    step W s (shell, .go) = none ∧ ∃ pid, step W s (pid, .write) = none := by
  obtain ⟨q, p, pid, left, k, c, hq, hwait, hp, hpc, hfd, hfull, -, hread⟩ := h
  constructor
  · rw [step_advance hq .go nofun nofun nofun, Sys.advance, hwait]
    show s.wait shell q pid .go = none
    rw [Sys.wait, hp]
    refine if_neg fun hexited => ?_
    rw [Option.map_some, hpc] at hexited
    cases hexited
  · refine ⟨pid, ?_⟩
    rw [step_advance hp .write nofun nofun nofun, Sys.advance, hpc]
    show s.write W pid p left = none
    unfold Sys.write
    rw [hfd]
    simp only [hasReader_of_holds hq ⟨_, hread⟩, if_true, hfull, Nat.lt_irrefl, if_false]

private theorem Supplied.not_deadlocked (hs : Supplied W s) (shell : Nat) :
    ¬ Deadlocked W s shell := by
  rintro ⟨q, p, pid, left, k, c, hq, hwait, hp, hpc, -, hfull, hc, hread⟩
  have hlt : q.i + 1 < q.commands.length := (List.getElem?_eq_some_iff.mp hc).1
  have hprepared := hs.prepared shell q hq
  have hlaunching : q.pc.launching = true := hwait ▸ rfl
  have hpiped : q.didPipe = true := by
    cases hd : q.didPipe with
    | true => rfl
    | false =>
        have hlast := hprepared.plain hlaunching hd
        omega
  obtain ⟨k', p', hread', hp', -, hsupply⟩ := hs.forked shell q pid hq hpiped hwait
  rw [hprepared.piped hlaunching hpiped c hc, hread'] at hread
  cases hread
  rw [hp] at hp'
  cases hp'
  obtain ⟨-, n, hn, hle⟩ := hsupply (left + 1) (by rw [Proc.toWrite, hpc])
  rw [hfull] at hn
  cases hn
  have hroom := hprepared.room q.i hlt
  omega

/-! ## The commands of a pipeline -/

/-- A stage in front of the last one: in the foreground, without redirections, with words. -/
structure Inner (c : Cmd) : Prop where
  words : c.argc ≠ 0
  connected : c.out ≠ 1
  foreground : c.bg = false
  output : c.redirect = false
  input : c.redirectIn = false

private theorem stageCmds_inner (first : Bool) (p : Pipeline) {stages : List Simple} {j : Nat}
    (hj : j < stages.length) :
    ∃ c, (stageCmds first p stages)[j]? = some c ∧ Inner c := by
  induction stages generalizing first j with
  | nil => cases hj
  | cons s stages ih =>
      cases j with
      | zero =>
          have hwords : s.words.length ≠ 0 := fun h => s.nonempty (List.eq_nil_of_length_eq_zero h)
          exact ⟨_, rfl, hwords, nofun, rfl, rfl, rfl⟩
      | succ j => exact ih false (Nat.lt_of_succ_lt_succ hj)

theorem Pipeline.fits (p : Pipeline) (h : ∀ j, j < p.init.length → W.writes j ≤ W.capacity) :
    Fits W p.cmds := by
  have hlength : p.cmds.length = p.init.length + 1 := stageCmds_length true p p.init
  constructor
  · intro j c hc hout
    rw [hlength]
    by_contra hj
    have hlt : j < p.init.length := by omega
    obtain ⟨c', hc', hinner⟩ := stageCmds_inner true p hlt
    have heq : c' = c := Option.some.inj (hc'.symm.trans hc)
    exact hinner.connected (heq ▸ hout)
  · intro j hj
    rw [hlength] at hj
    exact h j (Nat.lt_of_succ_lt_succ hj)

private theorem supplied_start {cmds : List Cmd} (h : Fits W cmds) :
    Supplied W (Sys.start [some cmds]) := by
  have hkcsh : ∀ (x : Nat) (p : Proc), (Sys.start [some cmds]).procs[x]? = some p → p = kcsh := by
    intro x p hp
    cases x with
    | zero => exact (Option.some.inj hp).symm
    | succ x => cases hp
  constructor
  · intro x p k hp hheld
    obtain rfl := hkcsh x p hp
    obtain ⟨n, hn⟩ := hheld
    rcases n with _ | _ | _ | n <;> cases hn
  · intro cmds' hmem
    rw [Sys.start, List.mem_singleton] at hmem
    cases hmem
    exact h
  · intro x p hp
    obtain rfl := hkcsh x p hp
    refine ⟨fun j c _ hc => ?_, nofun, fun j hj => ?_, nofun, nofun⟩
    · cases hc
    · cases hj
  · intro x q hq _ hpc
    obtain rfl := hkcsh x q hq
    cases hpc
  · intro x q child hq _ hpc
    obtain rfl := hkcsh x q hq
    cases hpc

/-! ## A run up to a stage -/

/-- The shell is at the head of the loop at `commands[j]`; the standard descriptors and the
descriptor that `commands[j]` reads from are open. -/
structure Ready (cmds : List Cmd) (s : Sys) (q : Proc) (j : Nat) : Prop where
  proc : s.procs[0]? = some q
  pc : q.pc = .launch
  index : q.i = j
  stdin : ∃ d, Descriptors.get q.fds 0 = some d
  stdout : ∃ d, Descriptors.get q.fds 1 = some d
  here : ∀ c, cmds[j]? = some c → ∃ r, q.commands[j]? = some { c with input := r } ∧
    (r = 0 ∨ ∃ d, Descriptors.get q.fds r = some d)
  later : ∀ m, j < m → q.commands[m]? = cmds[m]?

private theorem Sys.put_put (s : Sys) (pid : Nat) (p q : Proc) :
    (s.put pid p).put pid q = s.put pid q := by
  rw [put, put, put]
  simp only [List.set_set]

private theorem child_goes {q : Proc} {stage : Stage} {c : Cmd} (hs : s.procs[pid]? = some q)
    (hreach : Reachable (step W) s (s.put pid p)) (hpc : p.pc = .child stage)
    (hc : p.commands[p.i]? = some c) (hstage : stage ≠ .run)
    (hb : p.branch c stage .go = some p') : Reachable (step W) s (s.put pid p') := by
  have hp : (s.put pid p).procs[pid]? = some p := by
    rw [Sys.getElem?_put hs, if_pos rfl]
  have hstep : step W (s.put pid p) (pid, .go) = some (s.put pid p') := by
    rw [step_advance hp .go nofun nofun nofun, Sys.advance, hpc]
    show (s.put pid p).child W pid p stage .go = _
    rw [Sys.child, hc]
    show (if stage = .run then _ else _) = _
    rw [if_neg hstage, hb, Option.map_some, Sys.put_put]
  exact hreach.trans (.single hstep)

private theorem step_exec {c : Cmd} (hp : s.procs[pid]? = some p) (hpc : p.pc = .child .run)
    (hc : p.commands[p.i]? = some c) (hext : c.builtin = none) :
    step W s (pid, .go) = some (s.put pid (p.goto (.replaced (W.writes p.i)))) := by
  rw [step_advance hp .go nofun nofun nofun, Sys.advance, hpc]
  show s.child W pid p .run .go = _
  rw [Sys.child, hc]
  show s.finish W pid p c .go = _
  unfold Sys.finish
  rw [hext]

private theorem duplicate_same (p : Proc) (n : Nat) : p.duplicate n n = some p := if_pos rfl

private theorem duplicate_open {old target : Nat} {d : Desc}
    (h : Descriptors.get p.fds old = some d) (hne : old ≠ target) :
    p.duplicate old target = some { p with fds := Descriptors.put p.fds target d } := by
  rw [Proc.duplicate, if_neg hne, h]
  rfl

theorem closeEnds_get {c : Cmd} {n : Nat} (hr : n ≠ p.pipefd.1) (hw : n ≠ p.pipefd.2) :
    Descriptors.get (p.closeEnds c).fds n = Descriptors.get p.fds n := by
  unfold Proc.closeEnds
  simp only
  split <;> split
  · rfl
  · rw [Descriptors.get_close_ne hr]
  · rw [Descriptors.get_close_ne hw]
  · rw [Descriptors.get_close_ne hw, Descriptors.get_close_ne hr]

private theorem child_replaced {c : Cmd} {d : Desc} (hp : s.procs[pid]? = some p)
    (hpc : p.pc = .child .dupIn) (hc : p.commands[p.i]? = some c) (hinner : Inner c)
    (hext : c.builtin = none) (hin : c.input = 0 ∨ ∃ d, Descriptors.get p.fds c.input = some d)
    (hout : Descriptors.get p.fds c.out = some d) (hzero : c.out ≠ 0) (hr : 1 ≠ p.pipefd.1)
    (hw : 1 ≠ p.pipefd.2) :
    ∃ p', Reachable (step W) s (s.put pid p') ∧ p'.pc = .replaced (W.writes p.i) ∧
      Descriptors.get p'.fds 1 = some d := by
  have hstart : Reachable (step W) s (s.put pid p) := by
    obtain ⟨hlt, rfl⟩ := List.getElem?_eq_some_iff.mp hp
    rw [Sys.put, List.set_getElem_self]
    exact .refl _ s
  obtain ⟨fds, hdupIn, hkeep⟩ : ∃ fds, p.branch c .dupIn .go =
      some { p with fds := fds, pc := .child .dupOut } ∧ Descriptors.get fds c.out = some d := by
    by_cases hc₀ : c.input = 0
    · refine ⟨p.fds, ?_, hout⟩
      rw [Proc.branch, hc₀, duplicate_same]
      rfl
    · obtain ⟨d', hd'⟩ := hin.resolve_left hc₀
      refine ⟨_, ?_, (Descriptors.get_put_ne d' hzero).trans hout⟩
      rw [Proc.branch, duplicate_open hd' hc₀]
      rfl
  have hreach₁ := child_goes hp hstart hpc hc (by decide) hdupIn
  let p₁ : Proc := { p with fds := Descriptors.put fds 1 d, pc := .child .dupOut }
  have hdupOut : Proc.branch { p with fds := fds, pc := .child .dupOut } c .dupOut .go =
      some ((p₁.closeEnds c).goto (.child .openOut)) := by
    rw [Proc.branch, duplicate_open hkeep hinner.connected]
    rfl
  have hone : Descriptors.get (p₁.closeEnds c).fds 1 = some d :=
    (closeEnds_get (p := p₁) hr hw).trans (Descriptors.get_put_self ..)
  have hreach₂ := child_goes hp hreach₁ rfl hc (by decide) hdupOut
  have hopenOut : ((p₁.closeEnds c).goto (.child .openOut)).branch c .openOut .go =
      some ((p₁.closeEnds c).goto (.child .openIn)) :=
    if_neg (by rw [hinner.output]; exact Bool.false_ne_true)
  have hreach₃ := child_goes hp hreach₂ rfl hc (by decide) hopenOut
  have hopenIn : ((p₁.closeEnds c).goto (.child .openIn)).branch c .openIn .go =
      some ((p₁.closeEnds c).goto (.child .run)) :=
    if_neg (by rw [hinner.input]; exact Bool.false_ne_true)
  have hreach₄ := child_goes hp hreach₃ rfl hc (by decide) hopenIn
  have hrun : (s.put pid ((p₁.closeEnds c).goto (.child .run))).procs[pid]? =
      some ((p₁.closeEnds c).goto (.child .run)) := by
    rw [Sys.getElem?_put hp, if_pos rfl]
  have hexec := step_exec (W := W) hrun rfl hc hext
  rw [Sys.put_put] at hexec
  exact ⟨_, hreach₄.trans (.single hexec), rfl, hone⟩

/-! ## A stage from the head of the loop on -/

private theorem step_pipe {c : Cmd} (hp : s.procs[pid]? = some p) (hpc : p.pc = .launch)
    (hc : p.commands[p.i]? = some c) (hout : c.out ≠ 1) :
    step W s (pid, .go) =
      some { s.put pid (Sys.makePipe p s.pipes.length) with pipes := s.pipes ++ [0] } := by
  rw [step_advance hp .go nofun nofun nofun, Sys.advance, hpc]
  show s.launch pid p .go = _
  unfold Sys.launch
  rw [hc]
  exact if_neg hout

theorem step_fork {c : Cmd} (hp : s.procs[pid]? = some p) (hpc : p.pc = .forkExec)
    (hc : p.commands[p.i]? = some c) (hargc : c.argc ≠ 0) :
    step W s (pid, .go) = some (s.fork pid p c) := by
  rw [step_advance hp .go nofun nofun nofun, Sys.advance, hpc]
  show s.forkExec pid p .go = _
  unfold Sys.forkExec
  rw [hc]
  exact congrArg some (if_neg hargc)

/-- `commands[j]` in front of the last command gets to write to its pipe while the shell waits for
it and still holds the read end. -/
theorem Ready.starts {cmds : List Cmd} {q : Proc} {c : Cmd} {j : Nat} (hs : Ready cmds s q j)
    (hc : cmds[j]? = some c) (hinner : Inner c) (hext : c.builtin = none) :
    ∃ t p n, Reachable (step W) s t ∧
      t.procs[0]? = some ((Sys.makePipe q s.pipes.length).goto (.waiting n)) ∧ n ≠ 0 ∧
      t.procs[n]? = some p ∧ p.pc = .replaced (W.writes j) ∧
      Descriptors.get p.fds 1 = some (.write s.pipes.length) ∧
      t.pipes[s.pipes.length]? = some 0 := by
  obtain ⟨r, hcmd, hr⟩ := hs.here c hc
  obtain ⟨d₀, hstdin⟩ := hs.stdin
  obtain ⟨d₁, hstdout⟩ := hs.stdout
  have hindex : q.commands[q.i]? = some { c with input := r } := hs.index ▸ hcmd
  let q₁ := Sys.makePipe q s.pipes.length
  let s₁ : Sys := { s.put 0 q₁ with pipes := s.pipes ++ [0] }
  let c₁ : Cmd := { c with input := r, out := q₁.pipefd.2 }
  obtain ⟨-, -, hzero⟩ := makePipe_get s.pipes.length hstdin
  obtain ⟨-, hr₁, hw₁⟩ := makePipe_get s.pipes.length hstdout
  have hpipe : step W s (0, .go) = some s₁ := step_pipe hs.proc hs.pc hindex hinner.connected
  have hq₁ : s₁.procs[0]? = some q₁ := (Sys.getElem?_put hs.proc 0).trans (if_pos rfl)
  have hc₁ : q₁.commands[q₁.i]? = some c₁ := by
    show (Sys.makePipe q s.pipes.length).commands[q.i]? = some c₁
    rw [getElem?_makePipe, hindex]
    simp [c₁, q₁]
  have hfork : step W s₁ (0, .go) = some (s₁.fork 0 q₁ c₁) := step_fork hq₁ rfl hc₁ hinner.words
  have hpos : 0 < s₁.procs.length := (List.getElem?_eq_some_iff.mp hq₁).1
  have hparent : (s₁.fork 0 q₁ c₁).procs[0]? = some (q₁.goto (.waiting s₁.procs.length)) := by
    rw [Sys.getElem?_fork hq₁, if_pos rfl, if_neg]
    show ¬ c.bg = true
    rw [hinner.foreground]
    exact Bool.false_ne_true
  have hchild : (s₁.fork 0 q₁ c₁).procs[s₁.procs.length]? = some (q₁.forked 0) := by
    rw [Sys.getElem?_fork hq₁, if_neg (Nat.ne_of_gt hpos), if_pos rfl]
  have hin : r = 0 ∨ ∃ d, Descriptors.get q₁.fds r = some d := by
    rcases hr with hr | ⟨d, hd⟩
    · exact Or.inl hr
    · exact Or.inr ⟨d, (makePipe_get s.pipes.length hd).1⟩
  have hinner₁ : Inner c₁ :=
    ⟨hinner.words, Ne.symm hw₁, hinner.foreground, hinner.output, hinner.input⟩
  obtain ⟨p, hreach, hpc, hone⟩ := child_replaced (W := W) (d := .write s.pipes.length) hchild rfl
    hc₁ hinner₁ hext hin (makePipe_write q s.pipes.length) (Ne.symm hzero) hr₁ hw₁
  refine ⟨(s₁.fork 0 q₁ c₁).put s₁.procs.length p, p, s₁.procs.length, ?_, ?_, ?_, ?_, ?_, hone, ?_⟩
  · exact (Reachable.single hpipe).trans ((Reachable.single hfork).trans hreach)
  · rw [Sys.getElem?_put hchild, if_neg (Nat.ne_of_lt hpos), hparent]
  · exact Nat.ne_of_gt hpos
  · rw [Sys.getElem?_put hchild, if_pos rfl]
  · rw [hpc]
    exact congrArg (fun i => Pc.replaced (W.writes i)) hs.index
  · exact List.getElem?_concat_length

private theorem step_writePipe {k n left : Nat} (hp : s.procs[pid]? = some p)
    (hpc : p.pc = .replaced (left + 1)) (hfd : Descriptors.get p.fds 1 = some (.write k))
    (hreader : s.hasReader k = true) (hk : s.pipes[k]? = some n) (hroom : n < W.capacity) :
    step W s (pid, .write) =
      some { s.put pid (p.goto (.replaced left)) with pipes := s.pipes.set k (n + 1) } := by
  rw [step_advance hp .write nofun nofun nofun, Sys.advance, hpc]
  show s.write W pid p left = _
  unfold Sys.write
  rw [hfd]
  simp only [hreader, if_true, hk, if_pos hroom]

private theorem writes_reachable {q : Proc} {k left : Nat} (a : Nat) {n : Nat} (hpid : pid ≠ 0)
    (hq : s.procs[0]? = some q) (hread : Descriptors.Holds q.fds (.read k))
    (hp : s.procs[pid]? = some p) (hpc : p.pc = .replaced (left + a))
    (hfd : Descriptors.get p.fds 1 = some (.write k)) (hk : s.pipes[k]? = some n)
    (hroom : n + a ≤ W.capacity) :
    ∃ t p', Reachable (step W) s t ∧ t.procs[0]? = some q ∧ t.procs[pid]? = some p' ∧
      p'.pc = .replaced left ∧ Descriptors.get p'.fds 1 = some (.write k) ∧
      t.pipes[k]? = some (n + a) := by
  induction a generalizing s p n with
  | zero => exact ⟨s, p, .refl _ s, hq, hp, hpc, hfd, hk⟩
  | succ a ih =>
      have hlt : k < s.pipes.length := (List.getElem?_eq_some_iff.mp hk).1
      have hstep := step_writePipe hp hpc hfd (hasReader_of_holds hq hread) hk
        (Nat.lt_of_lt_of_le (Nat.lt_add_of_pos_right (Nat.succ_pos a)) hroom)
      let u : Sys :=
        { s.put pid (p.goto (.replaced (left + a))) with pipes := s.pipes.set k (n + 1) }
      have hq' : u.procs[0]? = some q :=
        (Sys.getElem?_put hp 0).trans ((if_neg (Ne.symm hpid)).trans hq)
      have hp' : u.procs[pid]? = some (p.goto (.replaced (left + a))) :=
        (Sys.getElem?_put hp pid).trans (if_pos rfl)
      have hk' : u.pipes[k]? = some (n + 1) := List.getElem?_set_self hlt
      obtain ⟨t, p', hreach, hrest⟩ := ih hq' hp' rfl hfd hk' (by omega)
      rw [Nat.add_assoc, Nat.add_comm 1 a] at hrest
      exact ⟨t, p', (Reachable.single hstep).trans hreach, hrest⟩

private theorem Ready.deadlocks {cmds : List Cmd} {q : Proc} {c c' : Cmd} {j : Nat}
    (hs : Ready cmds s q j) (hc : cmds[j]? = some c) (hinner : Inner c) (hext : c.builtin = none)
    (hnext : cmds[j + 1]? = some c') (hmore : W.capacity < W.writes j) :
    ∃ t, Reachable (step W) s t ∧ Deadlocked W t 0 := by
  obtain ⟨t, p, n, hreach, hq, hn, hp, hpc, hfd, hk⟩ := hs.starts hc hinner hext
  have hread := makePipe_read q s.pipes.length
  have hleft : W.writes j = (W.writes j - W.capacity - 1 + 1) + W.capacity := by omega
  rw [hleft] at hpc
  obtain ⟨u, p', hreach', hq', hp', hpc', hfd', hk'⟩ :=
    writes_reachable W.capacity hn hq ⟨_, hread⟩ hp hpc hfd hk (Nat.le_of_eq (Nat.zero_add _))
  rw [Nat.zero_add] at hk'
  have hlater : q.commands[q.i + 1]? = some c' := by
    rw [hs.index, hs.later _ (Nat.lt_succ_self j), hnext]
  have hreader := makePipe_next s.pipes.length hlater
  exact ⟨u, hreach.trans hreach', _, p', n, _, _, _, hq', rfl, hp', hpc', hfd', hk', hreader, hread⟩

private theorem step_end {q : Proc} (hpid : pid ≠ 0) (hq : s.procs[0]? = some q)
    (hqpc : q.pc = .waiting pid) (hp : s.procs[pid]? = some p) (hpc : p.pc = .replaced 0) :
    Reachable (step W) s ((s.put pid p.exit).put 0 (Sys.next (q.goto .returned))) := by
  have hexit : step W s (pid, .exit) = some (s.put pid p.exit) := by
    rw [step_advance hp .exit nofun nofun nofun, Sys.advance, hpc]
    rfl
  have hq₁ : (s.put pid p.exit).procs[0]? = some q := by
    rw [Sys.getElem?_put hp, if_neg (Ne.symm hpid), hq]
  have hp₁ : (s.put pid p.exit).procs[pid]? = some p.exit := by
    rw [Sys.getElem?_put hp, if_pos rfl]
  have hwait : step W (s.put pid p.exit) (0, .go) =
      some ((s.put pid p.exit).put 0 (q.goto .returned)) := by
    rw [step_advance hq₁ .go nofun nofun nofun, Sys.advance, hqpc]
    show (s.put pid p.exit).wait 0 q pid .go = _
    rw [Sys.wait, hp₁]
    exact if_pos rfl
  have hq₂ : ((s.put pid p.exit).put 0 (q.goto .returned)).procs[0]? = some (q.goto .returned) := by
    rw [Sys.getElem?_put hq₁, if_pos rfl]
  have hnext : step W ((s.put pid p.exit).put 0 (q.goto .returned)) (0, .go) =
      some ((s.put pid p.exit).put 0 (Sys.next (q.goto .returned))) := by
    rw [step_advance hq₂ .go nofun nofun nofun, Sys.advance]
    show (if Event.go = .go then _ else _) = _
    rw [if_pos rfl, Sys.put_put]
  exact (Reachable.single hexit).trans ((Reachable.single hwait).trans (.single hnext))

private theorem next_get {n : Nat} {d : Desc} (k : Nat) (h : Descriptors.get p.fds n = some d) :
    Descriptors.get (Sys.next ((Sys.makePipe p k).goto .returned)).fds n = some d := by
  obtain ⟨hget, -, hne⟩ := makePipe_get k h
  exact (Descriptors.get_close_ne hne).trans hget

private theorem next_read (p : Proc) (k : Nat) :
    Descriptors.get (Sys.next ((Sys.makePipe p k).goto .returned)).fds
      (Sys.makePipe p k).pipefd.1 = some (.read k) := by
  have hread := makePipe_read p k
  have hne : (Sys.makePipe p k).pipefd.1 ≠ (Sys.makePipe p k).pipefd.2 := by
    intro heq
    rw [heq, makePipe_write] at hread
    cases hread
  exact (Descriptors.get_close_ne hne).trans hread

/-- A stage whose output fits into its pipe ends, and the shell gets to the next one. -/
theorem Ready.passes {cmds : List Cmd} {q : Proc} {c : Cmd} {j : Nat} (hs : Ready cmds s q j)
    (hc : cmds[j]? = some c) (hinner : Inner c) (hext : c.builtin = none)
    (hfits : W.writes j ≤ W.capacity) :
    ∃ t q', Reachable (step W) s t ∧ Ready cmds t q' (j + 1) := by
  obtain ⟨t, p, n, hreach, hq, hn, hp, hpc, hfd, hk⟩ := hs.starts hc hinner hext
  have hread := makePipe_read q s.pipes.length
  rw [← Nat.zero_add (W.writes j)] at hpc
  obtain ⟨u, p', hreach', hq', hp', hpc', -⟩ :=
    writes_reachable (W := W) (W.writes j) hn hq ⟨_, hread⟩ hp hpc hfd hk (by omega)
  have hend := step_end (W := W) hn hq' rfl hp' hpc'
  obtain ⟨d₀, hstdin⟩ := hs.stdin
  obtain ⟨d₁, hstdout⟩ := hs.stdout
  refine ⟨_, Sys.next ((Sys.makePipe q s.pipes.length).goto .returned),
    hreach.trans (hreach'.trans hend), ?_, rfl, ?_, ⟨d₀, ?_⟩, ⟨d₁, ?_⟩, ?_, ?_⟩
  · have hq₁ : (u.put n p'.exit).procs[0]? =
        some ((Sys.makePipe q s.pipes.length).goto (.waiting n)) := by
      rw [Sys.getElem?_put hp', if_neg (Ne.symm hn), hq']
    rw [Sys.getElem?_put hq₁, if_pos rfl]
    rfl
  · exact congrArg (· + 1) hs.index
  · exact next_get s.pipes.length hstdin
  · exact next_get s.pipes.length hstdout
  · intro c' hc'
    have hlater : q.commands[q.i + 1]? = some c' := by
      rw [hs.index, hs.later _ (Nat.lt_succ_self j), hc']
    have hreader := makePipe_next s.pipes.length hlater
    rw [hs.index] at hreader
    exact ⟨_, hreader, Or.inr ⟨_, next_read q s.pipes.length⟩⟩
  · intro m hm
    show (Sys.makePipe q s.pipes.length).commands[m]? = cmds[m]?
    have h₁ : m ≠ q.i := by
      rw [hs.index]
      omega
    have h₂ : m ≠ q.i + 1 := by
      rw [hs.index]
      omega
    rw [getElem?_makePipe, hs.later m (Nat.lt_of_succ_lt hm)]
    simp only [if_neg h₁, if_neg h₂, Option.map_id']

/-! ## Pipelines -/

private theorem stageCmds_head (p : Pipeline) (stages : List Simple) {c : Cmd}
    (hc : (stageCmds true p stages)[0]? = some c) : c.input = 0 := by
  cases stages with
  | nil =>
      cases hc
      rfl
  | cons s stages =>
      cases hc
      rfl

private theorem Pipeline.ready (p : Pipeline) (hext : ∀ c ∈ p.cmds, c.builtin = none) {j : Nat}
    (hj : j ≤ p.init.length) (hfits : ∀ i, i < j → W.writes i ≤ W.capacity) :
    ∃ t q, Reachable (step W) (Sys.start [some p.cmds]) t ∧ Ready p.cmds t q j := by
  induction j with
  | zero =>
      let q : Proc := { kcsh with commands := p.cmds, pc := .launch }
      have hread : step W (Sys.start [some p.cmds]) (0, .go) = some ⟨[q], [], []⟩ := rfl
      refine ⟨_, q, .single hread, rfl, rfl, rfl, ⟨_, rfl⟩, ⟨_, rfl⟩, fun c hc => ?_,
        fun _ _ => rfl⟩
      exact ⟨c.input, hc, Or.inl (stageCmds_head p p.init hc)⟩
  | succ j ih =>
      obtain ⟨t, q, hreach, hready⟩ :=
        ih (Nat.le_of_succ_le hj) fun i hi => hfits i (Nat.lt_succ_of_lt hi)
      obtain ⟨c, hc, hinner⟩ := stageCmds_inner true p hj
      have hbuiltin := hext c (List.mem_of_getElem? hc)
      obtain ⟨u, q', hreach', hready'⟩ :=
        hready.passes (W := W) hc hinner hbuiltin (hfits j (Nat.lt_succ_self j))
      exact ⟨u, q', hreach.trans hreach', hready'⟩

private theorem Pipeline.deadlocks (p : Pipeline) (hext : ∀ c ∈ p.cmds, c.builtin = none) {j : Nat}
    (hj : j < p.init.length) (hfits : ∀ i, i < j → W.writes i ≤ W.capacity)
    (hmore : W.capacity < W.writes j) :
    ∃ t, Reachable (step W) (Sys.start [some p.cmds]) t ∧ Deadlocked W t 0 := by
  obtain ⟨t, q, hreach, hready⟩ := p.ready hext (Nat.le_of_lt hj) hfits
  obtain ⟨c, hc, hinner⟩ := stageCmds_inner true p hj
  have hlength : p.cmds.length = p.init.length + 1 := stageCmds_length true p p.init
  have hlt : j + 1 < p.cmds.length := by omega
  obtain ⟨c', hnext⟩ : ∃ c', p.cmds[j + 1]? = some c' := ⟨_, List.getElem?_eq_getElem hlt⟩
  obtain ⟨u, hreach', hdead⟩ :=
    hready.deadlocks hc hinner (hext c (List.mem_of_getElem? hc)) hnext hmore
  exact ⟨u, hreach.trans hreach', hdead⟩

/-- The launch of a pipeline of external commands cannot deadlock exactly if every stage in front of
the last one writes no more than its pipe holds. -/
theorem launch_deadlock_free_iff (W : World) (p : Pipeline)
    (hext : ∀ c ∈ p.cmds, c.builtin = none) :
    (∀ s, Reachable (step W) (Sys.start [some p.cmds]) s → ∀ shell, ¬ Deadlocked W s shell) ↔
      ∀ j, j < p.init.length → W.writes j ≤ W.capacity := by
  constructor
  · intro h j
    -- the first stage with more output than its pipe holds blocks the shell
    induction j using Nat.strongRecOn with
    | ind j ih =>
        intro hj
        by_contra hmore
        have hfits : ∀ i, i < j → W.writes i ≤ W.capacity :=
          fun i hi => ih i hi (Nat.lt_trans hi hj)
        obtain ⟨t, hreach, hdead⟩ := p.deadlocks hext hj hfits (Nat.lt_of_not_le hmore)
        exact h t hreach 0 hdead
  · intro h s hs shell
    have hsupplied : Supplied W s :=
      hs.invariant (fun s a t hs => supplied_step hs) (supplied_start (p.fits h))
    exact hsupplied.not_deadlocked shell

/-- Two stages: `a | b`. -/
def twoStages : Pipeline :=
  ⟨[⟨[.ofChar 'a' rfl], List.cons_ne_nil _ _⟩], ⟨[.ofChar 'b' rfl], List.cons_ne_nil _ _⟩, .none,
    false, fun h => by cases h⟩

theorem twoStages_external : ∀ c ∈ twoStages.cmds, c.builtin = none := by decide

/-- Two bytes through a pipe that holds one. -/
theorem launch_deadlock_free_fails :
    ¬ ∀ (W : World) (p : Pipeline), p.background = false → (∀ c ∈ p.cmds, c.builtin = none) →
      1 ≤ W.capacity →
      ∀ s, Reachable (step W) (Sys.start [some p.cmds]) s → ¬ Deadlocked W s 0 := by
  intro h
  obtain ⟨t, hreach, hdead⟩ := twoStages.deadlocks (W := ⟨1, fun _ => 2⟩) (j := 0)
    twoStages_external (by decide) (by decide) (by decide)
  exact h ⟨1, fun _ => 2⟩ twoStages rfl twoStages_external (Nat.le_refl 1) t hreach hdead

theorem launch_deadlock_free_twoStages :
    (∀ c ∈ twoStages.cmds, c.builtin = none) ∧
      ∀ s, Reachable (step ⟨1, fun _ => 1⟩) (Sys.start [some twoStages.cmds]) s →
        ∀ shell, ¬ Deadlocked ⟨1, fun _ => 1⟩ s shell := by
  have hiff := launch_deadlock_free_iff ⟨1, fun _ => 1⟩ twoStages twoStages_external
  exact ⟨twoStages_external, hiff.mpr fun _ _ => Nat.le_refl 1⟩

end SyssoftLabs.Lab4
