import SyssoftLabs.Framework.History
import SyssoftLabs.Lab4.Shell.Deadlock
import SyssoftLabs.Lab4.Shell.Numbers

/-!
# A journal of the launches

What the process started as kcsh did with the current line: which pipe it made for each command, and
which process it forked. With it one can say of a descriptor which pipe of the line it belongs to.
-/

namespace SyssoftLabs.Lab4

open SyssoftLabs.Framework

structure Journal where
  /-- The descriptors when the line was taken. -/
  before : Descriptors Desc
  /-- The commands of the line. -/
  line : List Cmd
  /-- For each command taken up, the pipe made for it. -/
  made : List (Option Nat)
  /-- The process forked for the command taken up last. -/
  child : Option Nat
  /-- The pipes of all rounds of the loop that are over, with the process forked in the round. -/
  finished : List (Nat × Nat)

namespace Journal

def start : Journal := ⟨kcsh.fds, [], [], none, []⟩

/-- The pipe of the command taken up last, and the process forked for it. -/
def current (j : Journal) : Option (Nat × Nat) :=
  match j.made.getLast?, j.child with
  | some (some k), some x => some (k, x)
  | _, _ => none

/-- The next step of kcsh. -/
def note (s : Sys) (p : Proc) (j : Journal) : Journal :=
  match p.pc with
  | .readLine =>
      match s.lines with
      | some cmds :: _ => { j with before := p.fds, line := cmds, made := [], child := none }
      | _ => j
  | .launch =>
      match p.commands[p.i]? with
      | some c =>
          { j with
            made := j.made ++ [if c.out = 1 then none else some s.pipes.length]
            child := none }
      | none => j
  | .forkExec =>
      match p.commands[p.i]? with
      | some c => if c.argc = 0 then j else { j with child := some s.procs.length }
      | none => j
  | .returned => { j with finished := j.finished ++ j.current.toList }
  | _ => j

def record (s : Sys) (a : Nat × Event) (j : Journal) : Journal :=
  match s.procs[0]? with
  | some p => if a = (0, .go) then j.note s p else j
  | none => j

end Journal

/-- The steps of all processes, with the journal of kcsh. -/
def stepLogged (W : World) : Sys × Journal → Nat × Event → Option (Sys × Journal) :=
  recorded (step W) Journal.record

/-- The command reads from the standard input, or from the pipe made for the command before. -/
def Fed (p : Proc) (j : Journal) (c : Cmd) : Prop :=
  c.input = 0 ∨ ∃ k, 0 < p.i ∧ j.made[p.i - 1]? = some (some k) ∧
    Descriptors.get p.fds c.input = some (.read k)

/-- The command writes to the standard output, or to the pipe made for it. -/
def Feeds (p : Proc) (j : Journal) (c : Cmd) : Prop :=
  c.out = 1 ∨ ∃ k, j.made[p.i]? = some (some k) ∧ Descriptors.get p.fds c.out = some (.write k)

/-- The read end of the pipe made for the command is there for the next one. -/
def Retains (p : Proc) (j : Journal) : Prop :=
  ∃ k, j.made[p.i]? = some (some k) ∧ Descriptors.get p.fds p.pipefd.1 = some (.read k) ∧
    p.pipefd.1 ≠ p.pipefd.2

/-- What the journal says of kcsh. -/
structure Logged (p : Proc) (j : Journal) : Prop where
  shell : ∀ stage, p.pc ≠ .child stage
  heading : p.pc = .launch →
    j.made.length = p.i ∧ ∀ c, p.commands[p.i]? = some c → Fed p j c
  busy : p.pc.busy = true → j.made.length = p.i + 1 ∧ ∀ c, p.commands[p.i]? = some c →
    Fed p j c ∧ Feeds p j c ∧ (c.piped = true → Retains p j)

variable {W : World} {s t : Sys} {p p' : Proc} {e : Event} {c : Cmd} {j : Journal}

/-! ## What is recorded -/

theorem record_other {pid : Nat} (hpid : pid ≠ 0) : Journal.record s (pid, e) j = j := by
  unfold Journal.record
  split
  · rw [if_neg]
    intro h
    cases h
    exact hpid rfl
  · rfl

theorem record_event (he : e ≠ .go) : Journal.record s (0, e) j = j := by
  unfold Journal.record
  split
  · rw [if_neg]
    intro h
    cases h
    exact he rfl
  · rfl

theorem record_go (hp : s.procs[0]? = some p) : Journal.record s (0, .go) j = j.note s p := by
  rw [Journal.record, hp]
  exact if_pos rfl

theorem note_accept {cmds : List Cmd} {lines : List (Option (List Cmd))} (hpc : p.pc = .readLine)
    (hl : s.lines = some cmds :: lines) :
    j.note s p = { j with before := p.fds, line := cmds, made := [], child := none } := by
  rw [Journal.note, hpc, hl]

theorem note_reject {lines : List (Option (List Cmd))} (hpc : p.pc = .readLine)
    (hl : s.lines = none :: lines) : j.note s p = j := by
  rw [Journal.note, hpc, hl]

theorem note_launch (hpc : p.pc = .launch) (hc : p.commands[p.i]? = some c) :
    j.note s p = { j with
      made := j.made ++ [if c.out = 1 then none else some s.pipes.length], child := none } := by
  rw [Journal.note, hpc, hc]

theorem note_lineDone (hpc : p.pc = .launch) (hc : p.commands[p.i]? = none) : j.note s p = j := by
  rw [Journal.note, hpc, hc]

theorem note_fork (hpc : p.pc = .forkExec) (hc : p.commands[p.i]? = some c) (hargc : c.argc ≠ 0) :
    j.note s p = { j with child := some s.procs.length } := by
  rw [Journal.note, hpc, hc]
  exact if_neg hargc

theorem note_noWords (hpc : p.pc = .forkExec) (hc : p.commands[p.i]? = some c)
    (hargc : c.argc = 0) : j.note s p = j := by
  rw [Journal.note, hpc, hc]
  exact if_pos hargc

theorem note_returned (hpc : p.pc = .returned) :
    j.note s p = { j with finished := j.finished ++ j.current.toList } := by
  rw [Journal.note, hpc]

/-! ## The step -/

theorem Logged.quiet (hshell : ∀ stage, p.pc ≠ .child stage) (hlaunch : p.pc ≠ .launch)
    (hbusy : p.pc.busy = false) : Logged p j := by
  refine ⟨hshell, fun h => absurd h hlaunch, fun h => ?_⟩
  rw [hbusy] at h
  cases h

theorem Logged.goto {pc : Pc} (h : Logged p j) (hpc : p.pc.busy = true) (hlaunch : pc ≠ .launch)
    (hshell : ∀ stage, pc ≠ .child stage) {k : Journal} (hmade : k.made = j.made) :
    Logged (p.goto pc) k := by
  obtain ⟨hlength, hc⟩ := h.busy hpc
  refine ⟨hshell, fun h => absurd h hlaunch, fun _ => ?_⟩
  unfold Fed Feeds Retains at hc ⊢
  rw [hmade]
  exact ⟨hlength, hc⟩

theorem Logged.plain (h : Logged p j) (hpc : p.pc = .launch) (hc : p.commands[p.i]? = some c)
    (hout : c.out = 1) (hpiped : c.piped = false) :
    Logged { p with didPipe := false, pc := .forkExec }
      { j with made := j.made ++ [none], child := none } := by
  obtain ⟨hlength, hfed⟩ := h.heading hpc
  refine ⟨nofun, nofun, fun _ => ⟨by simp [hlength], ?_⟩⟩
  intro c' hc'
  have heq : c = c' := Option.some.inj (hc.symm.trans hc')
  subst heq
  refine ⟨?_, Or.inl hout, fun h => by simp [hpiped] at h⟩
  rcases hfed c hc with hin | ⟨k, hpos, hk, hread⟩
  · exact Or.inl hin
  · have hlt : p.i - 1 < j.made.length := by omega
    exact Or.inr ⟨k, hpos, (List.getElem?_append_left hlt).trans hk, hread⟩

theorem Logged.pipe (h : Logged p j) (hpc : p.pc = .launch) (hc : p.commands[p.i]? = some c)
    (k : Nat) :
    Logged (Sys.makePipe p k) { j with made := j.made ++ [some k], child := none } := by
  obtain ⟨hlength, hfed⟩ := h.heading hpc
  have hmade : (j.made ++ [some k])[p.i]? = some (some k) := by
    rw [← hlength]
    exact List.getElem?_concat_length
  have hne : (Sys.makePipe p k).pipefd.1 ≠ (Sys.makePipe p k).pipefd.2 := by
    intro heq
    have hread := makePipe_read p k
    rw [heq, makePipe_write] at hread
    cases hread
  refine ⟨nofun, nofun, fun _ => ⟨?_, ?_⟩⟩
  · rw [List.length_append, List.length_singleton, hlength]
    rfl
  · intro c' hc'
    have hcommand : (Sys.makePipe p k).commands[p.i]? = some c' := hc'
    rw [getElem?_makePipe, hc] at hcommand
    simp only [Option.map_some, Option.some.injEq, if_true] at hcommand
    subst hcommand
    refine ⟨?_, Or.inr ⟨k, hmade, makePipe_write p k⟩, fun _ => ⟨k, hmade, makePipe_read p k, hne⟩⟩
    rcases hfed c hc with hin | ⟨k', hpos, hk', hread⟩
    · left
      simpa using hin
    · have hlt : p.i - 1 < j.made.length := by omega
      have hsame := (makePipe_get k hread).1
      refine Or.inr ⟨k', hpos, (List.getElem?_append_left hlt).trans hk', ?_⟩
      simpa using hsame

theorem Logged.next (h : Logged p j) (hpc : p.pc = .returned) (hserving : Serving p c)
    {j' : Journal} (hmade : j'.made = j.made) : Logged (Sys.next p) j' := by
  obtain ⟨hlength, hbusy⟩ := h.busy (hpc ▸ rfl)
  obtain ⟨-, -, hretains⟩ := hbusy c hserving.here
  refine ⟨nofun, fun _ => ⟨?_, ?_⟩, nofun⟩
  · rw [hmade, hlength]
    rfl
  · intro d hd
    have hinput := hserving.next d hd
    cases hp : c.piped with
    | false =>
        left
        simpa [hp] using hinput
    | true =>
        right
        obtain ⟨k, hk, hread, hne⟩ := hretains hp
        have hfd : d.input = p.pipefd.1 := by simpa [hp] using hinput
        refine ⟨k, Nat.succ_pos _, ?_, ?_⟩
        · rw [hmade]
          exact hk
        · have hdid : p.didPipe = true := by rw [hserving.did, hp]
          unfold Sys.next
          simp only [hdid, if_true]
          rw [hfd, Descriptors.get_close_ne hne]
          exact hread

private theorem logged_move (h : Move W s 0 p e p' t) (hp : s.procs[0]? = some p) (hsound : Sound p)
    (hlines : ∀ cmds, some cmds ∈ s.lines → Connected false cmds) (hl : Logged p j) :
    Logged p' (Journal.record s (0, e) j) := by
  cases h with
  | reject hpc hlines =>
      rw [record_go hp, note_reject hpc hlines]
      exact hl
  | accept hpc hl' heq =>
      rw [record_go hp, note_accept hpc hl', heq]
      have hconn := hlines _ (hl' ▸ List.mem_cons_self)
      refine ⟨nofun, fun _ => ⟨rfl, fun c hc => ?_⟩, nofun⟩
      obtain ⟨fed, hfed, hstart⟩ := hconn.at hc
      left
      rw [hfed.1, hstart rfl]
      rfl
  | plain hpc hc hout heq =>
      rw [record_go hp, note_launch hpc hc, heq, if_pos hout]
      have hserving := (hsound.heading hpc).plain hc hout
      refine hl.plain hpc hc hout ?_
      rw [← hserving.did]
  | pipe hpc hc hout heq =>
      rw [record_go hp, note_launch hpc hc, heq, if_neg hout]
      exact hl.pipe hpc hc _
  | noWords hpc hc hargc =>
      rw [record_go hp, note_noWords hpc hc hargc]
      exact hl.goto (hpc ▸ rfl) (by simp) (by simp) rfl
  | fork hpc hc hargc heq =>
      rw [record_go hp, note_fork hpc hc hargc, heq]
      split
      · exact hl.goto (hpc ▸ rfl) (by simp) (by simp) rfl
      · exact hl.goto (hpc ▸ rfl) (by simp) (by simp) rfl
  | forkFailed hpc =>
      rw [record_event (by decide)]
      exact hl.goto (hpc ▸ rfl) (by simp) (by simp) rfl
  | branch hpc | exec hpc | execFailed hpc | kExit hpc | builtin hpc =>
      exact absurd hpc (hl.shell _)
  | waited hpc =>
      rw [record_go hp, Journal.note, hpc]
      exact hl.goto (hpc ▸ rfl) (by simp) (by simp) rfl
  | next hpc =>
      obtain ⟨c, hserving⟩ := hsound.serving (hpc ▸ rfl)
      rw [record_go hp, note_returned hpc]
      exact hl.next hpc hserving rfl
  | readPipe =>
      rw [record_event (by decide)]
      exact hl
  | term _ heq | write _ _ heq | writePipe _ _ _ _ heq =>
      rw [heq]
      exact .quiet nofun nofun rfl
  | _ => exact .quiet nofun nofun rfl

/-- The journal tells of kcsh what is so. -/
def Chronicled (s : Sys) (j : Journal) : Prop := ∀ p, s.procs[0]? = some p → Logged p j

theorem Logged.pending (h : Logged p j) (b : Bool) : Logged { p with pending := b } j :=
  ⟨h.shell, h.heading, h.busy⟩

theorem chronicled_step {a : Nat × Event} (hs : Numbered s) (hj : Chronicled s j)
    (h : step W s a = some t) : Chronicled t (Journal.record s a j) := by
  obtain ⟨pid, e⟩ := a
  obtain ⟨p, p', hp, hmove⟩ := step_move h
  intro q' hq'
  rcases hmove.origin hp hq' with ⟨rfl, rfl⟩ | ⟨hne, q, b, hq, rfl⟩ | ⟨hlen, -, rfl, -⟩
  · exact logged_move hmove hp (hs.procs _ p hp) hs.lines (hj p hp)
  · rw [record_other (Ne.symm hne)]
    exact (hj q hq).pending b
  · have hlt : pid < s.procs.length := (List.getElem?_eq_some_iff.mp hp).1
    omega

private theorem logged_invariant {lines : List (Option (List Cmd))}
    (hlines : ∀ cmds, some cmds ∈ lines → Parsed cmds)
    (h : Reachable (stepLogged W) (Sys.start lines, Journal.start) (s, j)) :
    Numbered s ∧ Chronicled s j := by
  refine recorded_invariant (fun s a t hs ht => numbered_step hs ht)
    (fun s a t j hs hj ht => chronicled_step hs hj ht) h (numbered_start hlines) ?_
  intro p hp
  cases hp
  exact .quiet nofun nofun rfl

/-! ## The wiring -/

/-- What the parser connects the shell connects: a command passed to `fork_and_exec` reads from the
pipe made for the command before or from the standard input, it writes to the pipe made for it or
to the standard output, and the placeholder never gets to `dup2`. -/
theorem pipes_wired (W : World) (lines : List (Option (List Cmd)))
    (hlines : ∀ cmds, some cmds ∈ lines → Parsed cmds) :
    (∀ cmds, Parsed cmds → Wired cmds) ∧
      ∀ s j, Reachable (stepLogged W) (Sys.start lines, Journal.start) (s, j) →
        (∀ p c, s.procs[0]? = some p → p.pc = .forkExec → p.commands[p.i]? = some c →
          Fed p j c ∧ Feeds p j c) ∧
        ∀ (x : Nat) (q : Proc) (c : Cmd), s.procs[x]? = some q → q.commands[q.i]? = some c →
          (q.pc = .child .dupIn → c.input ≠ 2) ∧ (q.pc = .child .dupOut → c.out ≠ 2) := by
  refine ⟨fun cmds hcmds => hcmds.connected.wired, fun s j hreach => ?_⟩
  obtain ⟨hnumbered, hlogged⟩ := logged_invariant hlines hreach
  constructor
  · intro p c hp hpc hc
    obtain ⟨hfed, hfeeds, -⟩ := ((hlogged p hp).busy (hpc ▸ rfl)).2 c hc
    exact ⟨hfed, hfeeds⟩
  · intro x q c hq hc
    have hsound := hnumbered.procs x q hq
    constructor
    · intro hpc
      have hserving : Serving q c := hsound.serving_here (hpc ▸ rfl) hc
      rcases hserving.input with hin | ⟨hle, -⟩
      · omega
      · omega
    · intro hpc
      have hserving : Serving q c := hsound.serving_here (hpc ▸ rfl) hc
      rw [hserving.out]
      cases hp : c.piped with
      | true =>
          have hle := (hserving.ends hp).2
          simp only [if_true]
          omega
      | false => simp

theorem twoStages_parsed (cmds : List Cmd) (h : some cmds ∈ [some twoStages.cmds]) :
    Parsed cmds := by
  rw [List.mem_singleton, Option.some.injEq] at h
  exact h ▸ twoStages.parsed

theorem pipes_wired_twoStages :
    (∀ cmds, Parsed cmds → Wired cmds) ∧
      ∀ s j, Reachable (stepLogged ⟨1, fun _ => 1⟩)
          (Sys.start [some twoStages.cmds], Journal.start) (s, j) →
        (∀ p c, s.procs[0]? = some p → p.pc = .forkExec → p.commands[p.i]? = some c →
          Fed p j c ∧ Feeds p j c) ∧
        ∀ (x : Nat) (q : Proc) (c : Cmd), s.procs[x]? = some q → q.commands[q.i]? = some c →
          (q.pc = .child .dupIn → c.input ≠ 2) ∧ (q.pc = .child .dupOut → c.out ≠ 2) :=
  pipes_wired ⟨1, fun _ => 1⟩ [some twoStages.cmds] twoStages_parsed

end SyssoftLabs.Lab4
