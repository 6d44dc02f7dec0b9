import SyssoftLabs.Lab4.Shell.Moves

/-!
# What is in the pipe of a stage

While a shell waits for the stage it has forked, nobody but the stage writes to the pipe made for
it. The pipe then holds no more than the program of the stage writes, so that it is never full
with bytes left if it has room for all of them.
-/

namespace SyssoftLabs.Lab4

open SyssoftLabs.Framework

/-- The bytes a process has to write: those of its program, started or not. -/
def Proc.toWrite (W : World) (p : Proc) : Option Nat :=
  match p.pc with
  | .child _ => some (W.writes p.i)
  | .replaced left => some left
  | _ => none

/-- In `fork_and_exec` as the parent. -/
def Pc.launching : Pc → Bool
  | .forkExec | .waiting _ => true
  | _ => false

/-- Nobody but `x` and `y` holds the write end of the pipe. -/
def OnlyHeld (s : Sys) (k x y : Nat) : Prop :=
  ∀ (z : Nat) (p : Proc), s.procs[z]? = some p → Descriptors.Holds p.fds (.write k) → z = x ∨ z = y

/-- Only the last command writes to the standard output of the shell, and the pipes of the others
have room for all their bytes. -/
structure Fits (W : World) (cmds : List Cmd) : Prop where
  last : ∀ j c, cmds[j]? = some c → c.out = 1 → cmds.length ≤ j + 1
  room : ∀ j, j + 1 < cmds.length → W.writes j ≤ W.capacity

/-- The commands of a process are those of a fitting line, except that the commands up to
`commands[i]` may have got their descriptors. -/
structure Prepared (W : World) (p : Proc) : Prop where
  later : ∀ j c, p.i < j → p.commands[j]? = some c → c.out = 1 → p.commands.length ≤ j + 1
  here : p.pc = .launch → ∀ c, p.commands[p.i]? = some c → c.out = 1 →
    p.commands.length ≤ p.i + 1
  room : ∀ j, j + 1 < p.commands.length → W.writes j ≤ W.capacity
  plain : p.pc.launching = true → p.didPipe = false → p.commands.length ≤ p.i + 1
  piped : p.pc.launching = true → p.didPipe = true → ∀ c, p.commands[p.i + 1]? = some c →
    c.input = p.pipefd.1

/-- The pipe made for `commands[i]` is empty before `fork`, and then holds no more than the child
has written. -/
structure Supplied (W : World) (s : Sys) : Prop where
  held : ∀ (x : Nat) (p : Proc) (k : Nat), s.procs[x]? = some p →
    Descriptors.Holds p.fds (.write k) → k < s.pipes.length
  lines : ∀ cmds, some cmds ∈ s.lines → Fits W cmds
  prepared : ∀ (x : Nat) (p : Proc), s.procs[x]? = some p → Prepared W p
  unforked : ∀ (x : Nat) (q : Proc), s.procs[x]? = some q → q.didPipe = true → q.pc = .forkExec →
    ∃ k, Descriptors.get q.fds q.pipefd.1 = some (.read k) ∧ s.pipes[k]? = some 0 ∧ OnlyHeld s k x x
  forked : ∀ (x : Nat) (q : Proc) (pid : Nat), s.procs[x]? = some q → q.didPipe = true →
    q.pc = .waiting pid → ∃ k p, Descriptors.get q.fds q.pipefd.1 = some (.read k) ∧
      s.procs[pid]? = some p ∧ pid ≠ x ∧ ∀ m, p.toWrite W = some m →
        OnlyHeld s k x pid ∧ ∃ n, s.pipes[k]? = some n ∧ n + m ≤ W.writes q.i

variable {W : World} {s t : Sys} {pid : Nat} {p p' : Proc} {e : Event}

/-! ## Descriptors -/

theorem makePipe_read (p : Proc) (k : Nat) :
    Descriptors.get (Sys.makePipe p k).fds (Sys.makePipe p k).pipefd.1 = some (.read k) := by
  have hread := Descriptors.get_put_self p.fds (Descriptors.free p.fds) (.read k)
  exact (Descriptors.get_put_ne _ (Descriptors.ne_free hread)).trans hread

theorem makePipe_write (p : Proc) (k : Nat) :
    Descriptors.get (Sys.makePipe p k).fds (Sys.makePipe p k).pipefd.2 = some (.write k) :=
  Descriptors.get_put_self ..

theorem makePipe_get {n : Nat} {d : Desc} (k : Nat) (h : Descriptors.get p.fds n = some d) :
    Descriptors.get (Sys.makePipe p k).fds n = some d ∧ n ≠ (Sys.makePipe p k).pipefd.1 ∧
      n ≠ (Sys.makePipe p k).pipefd.2 := by
  have hfree : n ≠ Descriptors.free p.fds := Descriptors.ne_free h
  have hread : Descriptors.get (Descriptors.put p.fds (Descriptors.free p.fds) (.read k)) n =
      some d := (Descriptors.get_put_ne _ hfree).trans h
  have hfree' := Descriptors.ne_free hread
  exact ⟨(Descriptors.get_put_ne _ hfree').trans hread, hfree, hfree'⟩

theorem Move.holds {k : Nat} (h : Move W s pid p e p' t)
    (hd : Descriptors.Holds p'.fds (.write k)) :
    Descriptors.Holds p.fds (.write k) ∨ (k = s.pipes.length ∧ t.pipes = s.pipes ++ [0]) := by
  cases h with
  | killed | kExit | left | brokenPipe | ended => exact absurd hd (Descriptors.not_holds_nil _)
  | branch _ _ hbranch =>
      obtain ⟨-, fds, pc, rfl, hfds, -⟩ := branch_cases hbranch
      rcases hfds _ hd with hd | ⟨name, heq⟩
      · exact Or.inl hd
      · cases heq
  | term _ heq | accept _ _ heq | plain _ _ _ heq =>
      rw [heq] at hd
      exact Or.inl hd
  | pipe _ _ _ heq =>
      rw [heq] at hd
      rcases hd.of_put with heq | hd
      · cases heq
        exact Or.inr ⟨rfl, rfl⟩
      · rcases hd.of_put with heq | hd
        · cases heq
        · exact Or.inl hd
  | next =>
      unfold Sys.next at hd
      simp only at hd
      split at hd
      · exact Or.inl hd.of_close
      · exact Or.inl hd
  | _ => exact Or.inl hd

/-! ## Bytes -/

@[simp] theorem Sys.terminate_pipes (s : Sys) (q : Nat) : (s.terminate q).pipes = s.pipes := by
  unfold terminate
  split
  · rfl
  · split <;> rfl

@[simp] theorem Sys.terminate_lines (s : Sys) (q : Nat) : (s.terminate q).lines = s.lines := by
  unfold terminate
  split
  · rfl
  · split <;> rfl

private theorem Move.level {k n : Nat} (h : Move W s pid p e p' t) (hk : s.pipes[k]? = some n)
    (hp : ¬ Descriptors.Holds p.fds (.write k)) : ∃ n', t.pipes[k]? = some n' ∧ n' ≤ n := by
  have hlt : k < s.pipes.length := (List.getElem?_eq_some_iff.mp hk).1
  cases h with
  | pipe => exact ⟨n, (List.getElem?_append_left hlt).trans hk, Nat.le_refl n⟩
  | kExit => exact ⟨n, by simpa [Sys.put] using hk, Nat.le_refl n⟩
  | @writePipe _ k' _ _ _ hfd =>
      have hne : k' ≠ k := fun heq => hp ⟨1, heq ▸ hfd⟩
      exact ⟨n, (List.getElem?_set_ne hne).trans hk, Nat.le_refl n⟩
  | @readPipe _ k' n' _ _ hk' =>
      by_cases hkk : k' = k
      · subst hkk
        rw [hk] at hk'
        cases hk'
        exact ⟨n', List.getElem?_set_self hlt, Nat.le_succ n'⟩
      · exact ⟨n, (List.getElem?_set_ne hkk).trans hk, Nat.le_refl n⟩
  | _ => exact ⟨n, hk, Nat.le_refl n⟩

private theorem Move.supply {m' : Nat} (h : Move W s pid p e p' t) (hm' : p'.toWrite W = some m') :
    ∃ m, p.toWrite W = some m ∧ ∀ (k n : Nat), s.pipes[k]? = some n →
      ∃ n', t.pipes[k]? = some n' ∧ n' + m' ≤ n + m := by
  cases h with
  | branch hpc _ hbranch =>
      obtain ⟨-, fds, pc, rfl, -, hcases⟩ := branch_cases hbranch
      rcases hcases with ⟨-, -, rfl⟩ | ⟨-, -, rfl⟩ | ⟨-, stage', rfl, -⟩
      · cases hm'
      · cases hm'
      · cases hm'
        exact ⟨W.writes p.i, by rw [Proc.toWrite, hpc], fun k n hk => ⟨n, hk, Nat.le_refl _⟩⟩
  | exec hpc _ _ heq =>
      rw [heq] at hm'
      cases hm'
      exact ⟨W.writes p.i, by rw [Proc.toWrite, hpc], fun k n hk => ⟨n, hk, Nat.le_refl _⟩⟩
  | write hpc _ heq =>
      rw [heq] at hm'
      cases hm'
      exact ⟨m' + 1, by rw [Proc.toWrite, hpc], fun k n hk => ⟨n, hk, by omega⟩⟩
  | @writePipe left k' n' _ hpc hfd hk' _ heq =>
      rw [heq] at hm'
      cases hm'
      refine ⟨m' + 1, by rw [Proc.toWrite, hpc], fun k n hk => ?_⟩
      have hlt : k < s.pipes.length := (List.getElem?_eq_some_iff.mp hk).1
      by_cases hkk : k' = k
      · subst hkk
        rw [hk] at hk'
        cases hk'
        exact ⟨n' + 1, List.getElem?_set_self hlt, by omega⟩
      · exact ⟨n, (List.getElem?_set_ne hkk).trans hk, by omega⟩
  | @readPipe left k' n' hpc _ hk' =>
      refine ⟨m', hm', fun k n hk => ?_⟩
      have hlt : k < s.pipes.length := (List.getElem?_eq_some_iff.mp hk).1
      by_cases hkk : k' = k
      · subst hkk
        rw [hk] at hk'
        cases hk'
        exact ⟨n', List.getElem?_set_self hlt, by omega⟩
      · exact ⟨n, (List.getElem?_set_ne hkk).trans hk, Nat.le_refl _⟩
  | term _ heq | accept _ _ heq | plain _ _ _ heq | pipe _ _ _ heq =>
      rw [heq] at hm'
      cases hm'
  | fork _ _ _ heq =>
      rw [heq] at hm'
      split at hm' <;> cases hm'
  | reject hpc =>
      rw [Proc.toWrite, hpc] at hm'
      cases hm'
  | _ => cases hm'

/-! ## Commands -/

theorem getElem?_makePipe (p : Proc) (k j : Nat) :
    (Sys.makePipe p k).commands[j]? = (p.commands[j]?).map fun c =>
      { c with
        out := if j = p.i then (Sys.makePipe p k).pipefd.2 else c.out
        input := if j = p.i + 1 then (Sys.makePipe p k).pipefd.1 else c.input } := by
  unfold Sys.makePipe
  simp only [List.getElem?_modify]
  cases p.commands[j]? with
  | none => rfl
  | some c =>
      by_cases hi : j = p.i
      · subst hi
        simp
      · by_cases hn : j = p.i + 1
        · subst hn
          simp
        · simp [hi, hn, Ne.symm hi, Ne.symm hn]

theorem makePipe_next {c : Cmd} (k : Nat) (h : p.commands[p.i + 1]? = some c) :
    (Sys.makePipe p k).commands[p.i + 1]? =
      some { c with input := (Sys.makePipe p k).pipefd.1 } := by
  rw [getElem?_makePipe, h]
  simp

theorem Prepared.frame {q : Proc} (hp : Prepared W p) (hcommands : q.commands = p.commands)
    (hi : q.i = p.i) (hlaunch : q.pc ≠ .launch)
    (hpipe : q.pc.launching = true →
      p.pc.launching = true ∧ q.didPipe = p.didPipe ∧ q.pipefd = p.pipefd) : Prepared W q := by
  constructor
  · rw [hcommands, hi]
    exact hp.later
  · intro h
    exact absurd h hlaunch
  · rw [hcommands]
    exact hp.room
  · intro h hd
    obtain ⟨hpc, hdid, -⟩ := hpipe h
    rw [hcommands, hi]
    exact hp.plain hpc (hdid ▸ hd)
  · intro h hd
    obtain ⟨hpc, hdid, hfd⟩ := hpipe h
    rw [hcommands, hi, hfd]
    exact hp.piped hpc (hdid ▸ hd)

theorem Prepared.accept {cmds : List Cmd} (h : Fits W cmds) (p : Proc) :
    Prepared W { p with commands := cmds, i := 0, pc := .launch } where
  later j c _ hc hout := h.last j c hc hout
  here _ c hc hout := h.last 0 c hc hout
  room := h.room
  plain := nofun
  piped := nofun

private theorem Prepared.plainLaunch {c : Cmd} (hp : Prepared W p) (hpc : p.pc = .launch)
    (hc : p.commands[p.i]? = some c) (hout : c.out = 1) :
    Prepared W { p with didPipe := false, pc := .forkExec } where
  later := hp.later
  here := nofun
  room := hp.room
  plain _ _ := hp.here hpc c hc hout
  piped _ := nofun

theorem Prepared.makePipe (hp : Prepared W p) (k : Nat) : Prepared W (Sys.makePipe p k) := by
  have hlength : (Sys.makePipe p k).commands.length = p.commands.length := by
    simp [Sys.makePipe]
  constructor
  · intro j c hj hc hout
    rw [getElem?_makePipe] at hc
    obtain ⟨c₀, hc₀, rfl⟩ := Option.map_eq_some_iff.mp hc
    have hne : j ≠ p.i := Nat.ne_of_gt hj
    simp only [if_neg hne] at hout
    rw [hlength]
    exact hp.later j c₀ hj hc₀ hout
  · exact nofun
  · rw [hlength]
    exact hp.room
  · exact nofun
  · intro _ _ c hc
    have hsucc : (Sys.makePipe p k).commands[p.i + 1]? = some c := hc
    rw [getElem?_makePipe] at hsucc
    obtain ⟨c, -, rfl⟩ := Option.map_eq_some_iff.mp hsucc
    exact if_pos rfl

theorem Prepared.next (hp : Prepared W p) : Prepared W (Sys.next p) where
  later j c hj := hp.later j c (Nat.lt_of_succ_lt hj)
  here _ c hc := hp.later (p.i + 1) c (Nat.lt_succ_self p.i) hc
  room := hp.room
  plain := nofun
  piped := nofun

private theorem prepared_move (h : Move W s pid p e p' t)
    (hlines : ∀ cmds, some cmds ∈ s.lines → Fits W cmds) (hp : Prepared W p) :
    Prepared W p' := by
  cases h with
  | reject | readPipe => exact hp
  | accept _ hl heq =>
      rw [heq]
      exact .accept (hlines _ (hl ▸ List.mem_cons_self)) p
  | plain hpc hc hout heq =>
      rw [heq]
      exact hp.plainLaunch hpc hc hout
  | pipe _ _ _ heq =>
      rw [heq]
      exact hp.makePipe _
  | next => exact hp.next
  | branch _ _ hbranch =>
      obtain ⟨-, fds, pc, rfl, -, hcases⟩ := branch_cases hbranch
      rcases hcases with ⟨-, -, rfl⟩ | ⟨-, -, rfl⟩ | ⟨-, stage', rfl, -⟩
      all_goals exact hp.frame rfl rfl nofun nofun
  | fork hpc _ _ heq =>
      rw [heq]
      split
      · exact hp.frame rfl rfl nofun nofun
      · exact hp.frame rfl rfl nofun fun _ => ⟨hpc ▸ rfl, rfl, rfl⟩
  | term _ heq | exec _ _ _ heq | write _ _ heq | writePipe _ _ _ _ heq =>
      rw [heq]
      exact hp.frame rfl rfl nofun nofun
  | _ => exact hp.frame rfl rfl nofun nofun

/-! ## The step -/

theorem Move.lines (h : Move W s pid p e p' t) : ∀ l ∈ t.lines, l ∈ s.lines := by
  intro l hl
  cases h with
  | reject _ heq | accept _ heq => exact heq ▸ List.mem_cons_of_mem _ hl
  | kExit => simpa [Sys.put] using hl
  | _ => exact hl

theorem Move.pipes_length (h : Move W s pid p e p' t) : s.pipes.length ≤ t.pipes.length := by
  cases h with
  | pipe => simp
  | kExit => simp [Sys.put]
  | writePipe | readPipe => simp
  | _ => exact Nat.le_refl _

theorem OnlyHeld.step {k x y : Nat} (ho : OnlyHeld s k x y) (h : Move W s pid p e p' t)
    (hp : s.procs[pid]? = some p) (hk : k < s.pipes.length)
    (hfork : p.pc = .forkExec → ¬ Descriptors.Holds p.fds (.write k)) : OnlyHeld t k x y := by
  intro z q' hq' hd
  rcases h.origin hp hq' with ⟨rfl, rfl⟩ | ⟨-, q, b, hq, rfl⟩ | ⟨-, hpc, rfl, -⟩
  · rcases h.holds hd with hd | ⟨hlen, -⟩
    · exact ho z p hp hd
    · omega
  · exact ho z q hq hd
  · exact absurd hd (hfork hpc)

theorem Move.launching (h : Move W s pid p e p' t) (hl : p'.pc.launching = true)
    (hd : p'.didPipe = true) :
    (p.pc = .launch ∧ p' = Sys.makePipe p s.pipes.length ∧ t.pipes = s.pipes ++ [0]) ∨
      (p.pc = .forkExec ∧ p' = p.goto (.waiting s.procs.length) ∧ t.pipes = s.pipes ∧
        t.procs[s.procs.length]? = some (p.forked pid)) := by
  cases h with
  | pipe hpc _ _ heq => exact Or.inl ⟨hpc, heq, rfl⟩
  | fork hpc _ _ heq =>
      rw [heq] at hl ⊢
      split
      · next hbg =>
          rw [if_pos hbg] at hl
          cases hl
      · have hnew : (s.fork pid p ‹Cmd›).procs[s.procs.length]? = some (p.forked pid) := by
          show (s.procs.set pid _ ++ [p.forked pid])[s.procs.length]? = _
          have hlength := List.getElem?_concat_length (l := s.procs.set pid
            (p.goto (if ‹Cmd›.bg then .returned else .waiting s.procs.length))) (a := p.forked pid)
          rwa [List.length_set] at hlength
        exact Or.inr ⟨hpc, rfl, rfl, hnew⟩
  | plain _ _ _ heq =>
      rw [heq] at hd
      cases hd
  | branch _ _ hbranch =>
      obtain ⟨-, fds, pc, rfl, -, hcases⟩ := branch_cases hbranch
      rcases hcases with ⟨-, -, rfl⟩ | ⟨-, -, rfl⟩ | ⟨-, stage', rfl, -⟩ <;> cases hl
  | reject hpc | readPipe hpc =>
      rw [hpc] at hl
      cases hl
  | term _ heq | accept _ _ heq | exec _ _ _ heq | write _ _ heq | writePipe _ _ _ _ heq =>
      rw [heq] at hl
      cases hl
  | _ => cases hl

theorem Supplied.pipe (hs : Supplied W s) (h : Move W s pid p e p' t)
    (hp : s.procs[pid]? = some p) (hd : p'.didPipe = true) (hpc' : p'.pc = .forkExec) :
    ∃ k, Descriptors.get p'.fds p'.pipefd.1 = some (.read k) ∧ t.pipes[k]? = some 0 ∧
      OnlyHeld t k pid pid := by
  rcases h.launching (hpc' ▸ rfl) hd with ⟨hpc, heq, hpipes⟩ | ⟨-, heq, -⟩
  · refine ⟨s.pipes.length, ?_, ?_, ?_⟩
    · rw [heq]
      exact makePipe_read p _
    · rw [hpipes]
      exact List.getElem?_concat_length
    · intro z q' hq' hheld
      rcases h.origin hp hq' with ⟨rfl, -⟩ | ⟨-, q, b, hq, rfl⟩ | ⟨-, hfork, -⟩
      · exact Or.inl rfl
      · exact absurd (hs.held z q _ hq hheld) (Nat.lt_irrefl _)
      · rw [hpc] at hfork
        cases hfork
  · rw [heq] at hpc'
    cases hpc'

/-- Behind `fork` the pipe is still empty, and the child has all its bytes to write. -/
theorem Supplied.fork {child : Nat} (hs : Supplied W s) (h : Move W s pid p e p' t)
    (hp : s.procs[pid]? = some p) (hd : p'.didPipe = true) (hpc' : p'.pc = .waiting child) :
    ∃ k q, Descriptors.get p'.fds p'.pipefd.1 = some (.read k) ∧ t.procs[child]? = some q ∧
      child ≠ pid ∧ ∀ m, q.toWrite W = some m →
        OnlyHeld t k pid child ∧ ∃ n, t.pipes[k]? = some n ∧ n + m ≤ W.writes p'.i := by
  rcases h.launching (hpc' ▸ rfl) hd with ⟨-, heq, -⟩ | ⟨hpc, heq, hpipes, hnew⟩
  · rw [heq] at hpc'
    cases hpc'
  · rw [heq] at hpc' hd
    cases hpc'
    obtain ⟨k, hk, hzero, honly⟩ := hs.unforked pid p hp hd hpc
    have hlt : pid < s.procs.length := (List.getElem?_eq_some_iff.mp hp).1
    have hlen : k < s.pipes.length := (List.getElem?_eq_some_iff.mp hzero).1
    refine ⟨k, p.forked pid, heq ▸ hk, hnew, Nat.ne_of_gt hlt, fun m hm => ⟨?_, 0, ?_, ?_⟩⟩
    · intro z q' hq' hheld
      rcases h.origin hp hq' with ⟨rfl, -⟩ | ⟨-, q, b, hq, rfl⟩ | ⟨rfl, -⟩
      · exact Or.inl rfl
      · exact Or.inl ((honly z q hq hheld).elim id id)
      · exact Or.inr rfl
    · rw [hpipes, hzero]
    · cases hm
      rw [heq]
      exact Nat.le_of_eq (Nat.zero_add _)

private theorem Supplied.keep_unforked {x : Nat} {q : Proc} (hs : Supplied W s)
    (h : Move W s pid p e p' t) (hp : s.procs[pid]? = some p) (hx : x ≠ pid)
    (hq : s.procs[x]? = some q) (hd : q.didPipe = true) (hpc : q.pc = .forkExec) :
    ∃ k, Descriptors.get q.fds q.pipefd.1 = some (.read k) ∧ t.pipes[k]? = some 0 ∧
      OnlyHeld t k x x := by
  obtain ⟨k, hk, hzero, honly⟩ := hs.unforked x q hq hd hpc
  have hlen : k < s.pipes.length := (List.getElem?_eq_some_iff.mp hzero).1
  have hheld : ¬ Descriptors.Holds p.fds (.write k) := by
    intro hheld
    exact hx ((honly pid p hp hheld).elim Eq.symm Eq.symm)
  obtain ⟨n', hn', hle⟩ := h.level hzero hheld
  obtain rfl : n' = 0 := Nat.le_zero.mp hle
  exact ⟨k, hk, hn', honly.step h hp hlen fun _ => hheld⟩

private theorem Supplied.keep_forked {x child : Nat} {q : Proc} (hs : Supplied W s)
    (h : Move W s pid p e p' t) (hp : s.procs[pid]? = some p) (hx : x ≠ pid)
    (hq : s.procs[x]? = some q) (hd : q.didPipe = true) (hpc : q.pc = .waiting child) :
    ∃ k r, Descriptors.get q.fds q.pipefd.1 = some (.read k) ∧ t.procs[child]? = some r ∧
      child ≠ x ∧ ∀ m, r.toWrite W = some m →
        OnlyHeld t k x child ∧ ∃ n, t.pipes[k]? = some n ∧ n + m ≤ W.writes q.i := by
  obtain ⟨k, r, hk, hr, hne, hsupply⟩ := hs.forked x q child hq hd hpc
  by_cases hchild : child = pid
  · subst hchild
    rw [hp] at hr
    cases hr
    refine ⟨k, p', hk, h.own hp, hne, fun m' hm' => ?_⟩
    obtain ⟨m, hm, hbytes⟩ := h.supply hm'
    obtain ⟨honly, n, hn, hle⟩ := hsupply m hm
    obtain ⟨n', hn', hle'⟩ := hbytes k n hn
    have hlen : k < s.pipes.length := (List.getElem?_eq_some_iff.mp hn).1
    have hfork : p.pc ≠ .forkExec := by
      intro hfork
      rw [Proc.toWrite, hfork] at hm
      cases hm
    exact ⟨honly.step h hp hlen fun hpc => absurd hpc hfork, n', hn', Nat.le_trans hle' hle⟩
  · obtain ⟨b, hb⟩ := h.other hp hchild hr
    refine ⟨k, _, hk, hb, hne, fun m hm => ?_⟩
    obtain ⟨honly, n, hn, hle⟩ := hsupply m hm
    have hlen : k < s.pipes.length := (List.getElem?_eq_some_iff.mp hn).1
    have hheld : ¬ Descriptors.Holds p.fds (.write k) := by
      intro hheld
      rcases honly pid p hp hheld with heq | heq
      · exact hx heq.symm
      · exact hchild heq.symm
    obtain ⟨n', hn', hle'⟩ := h.level hn hheld
    exact ⟨honly.step h hp hlen fun _ => hheld, n', hn', by omega⟩

theorem supplied_step {a : Nat × Event} (hs : Supplied W s) (h : step W s a = some t) :
    Supplied W t := by
  obtain ⟨p, p', hp, hmove⟩ := step_move h
  constructor
  · intro x q' k hq' hheld
    have hle := hmove.pipes_length
    rcases hmove.origin hp hq' with ⟨rfl, rfl⟩ | ⟨-, q, b, hq, rfl⟩ | ⟨-, -, rfl, -⟩
    · rcases hmove.holds hheld with hheld | ⟨rfl, hpipes⟩
      · exact Nat.lt_of_lt_of_le (hs.held _ p k hp hheld) hle
      · rw [hpipes, List.length_append]
        exact Nat.lt_succ_self _
    · exact Nat.lt_of_lt_of_le (hs.held x q k hq hheld) hle
    · exact Nat.lt_of_lt_of_le (hs.held _ p k hp hheld) hle
  · intro cmds hcmds
    exact hs.lines cmds (hmove.lines _ hcmds)
  · intro x q' hq'
    rcases hmove.origin hp hq' with ⟨rfl, rfl⟩ | ⟨-, q, b, hq, rfl⟩ | ⟨-, -, rfl, -⟩
    · exact prepared_move hmove hs.lines (hs.prepared _ p hp)
    · have hprepared := hs.prepared x q hq
      exact ⟨hprepared.later, hprepared.here, hprepared.room, hprepared.plain, hprepared.piped⟩
    · exact (hs.prepared _ p hp).frame rfl rfl nofun nofun
  · intro x q' hq' hd hpc
    rcases hmove.origin hp hq' with ⟨rfl, rfl⟩ | ⟨hx, q, b, hq, rfl⟩ | ⟨-, -, rfl, -⟩
    · exact hs.pipe hmove hp hd hpc
    · exact hs.keep_unforked (q := q) hmove hp hx hq hd hpc
    · cases hpc
  · intro x q' child hq' hd hpc
    rcases hmove.origin hp hq' with ⟨rfl, rfl⟩ | ⟨hx, q, b, hq, rfl⟩ | ⟨-, -, rfl, -⟩
    · exact hs.fork hmove hp hd hpc
    · exact hs.keep_forked (q := q) hmove hp hx hq hd hpc
    · cases hpc

end SyssoftLabs.Lab4
