import SyssoftLabs.Lab4.Parser.Wiring
import SyssoftLabs.Lab4.Shell.Supply

/-!
# The numbers of the descriptors

The parser puts the placeholder `2` where the number of a pipe's end is to come. In every process
that runs the code of the shell the standard descriptors stay open, so that the ends of a pipe get
higher numbers, and when a command is taken up its placeholders have been replaced.
-/

namespace SyssoftLabs.Lab4

open SyssoftLabs.Framework

/-- Descriptors 0, 1 and 2 are open. -/
def Standard (fds : Descriptors Desc) : Prop := ∀ n, n < 3 → Descriptors.get fds n ≠ none

/-- Behind the head of the loop, with the current command taken up. -/
def Pc.busy : Pc → Bool
  | .forkExec | .child _ | .waiting _ | .returned => true
  | _ => false

/-- The outputs of commands and their connections, whatever the first one reads from. -/
def Linked : List Cmd → Prop
  | [] => True
  | c :: cmds =>
      c.out = (if c.piped then 2 else 1) ∧
        (c.piped = true → c.redirect = false ∧ c.redirectIn = false) ∧ Connected c.piped cmds

/-- At the head of the loop: the current command reads from a pipe that was made before, and the
later ones are as the parser left them. -/
structure Heading (p : Proc) : Prop where
  linked : Linked (p.commands.drop p.i)
  input : ∀ c, p.commands[p.i]? = some c → c.input = 0 ∨ (c.input = p.pipefd.1 ∧ 3 ≤ c.input)

/-- The current command has its descriptors, and the next one what it reads from. -/
structure Serving (p : Proc) (c : Cmd) : Prop where
  here : p.commands[p.i]? = some c
  input : c.input = 0 ∨ (3 ≤ c.input ∧ 3 ≤ p.pipefd.1)
  did : p.didPipe = c.piped
  out : c.out = if c.piped then p.pipefd.2 else 1
  ends : c.piped = true → 3 ≤ p.pipefd.1 ∧ 3 ≤ p.pipefd.2
  plain : c.piped = true → c.redirect = false ∧ c.redirectIn = false
  linked : Linked (p.commands.drop (p.i + 1))
  next : ∀ d, p.commands[p.i + 1]? = some d → d.input = if c.piped then p.pipefd.1 else 0

structure Sound (p : Proc) : Prop where
  standard : p.pc.inShell = true → Standard p.fds
  heading : p.pc = .launch → Heading p
  serving : p.pc.busy = true → ∃ c, Serving p c
  moving : ∀ fd, p.pc = .child (.moveOut fd) ∨ p.pc = .child (.moveIn fd) → 3 ≤ fd

variable {W : World} {s t : Sys} {pid : Nat} {p p' q : Proc} {e : Event} {c : Cmd}
  {fds : Descriptors Desc}

theorem Connected.linked {fed : Bool} {cmds : List Cmd} (h : Connected fed cmds) :
    Linked cmds := by
  cases cmds with
  | nil => trivial
  | cons c cmds => exact h.2

theorem Sound.serving_here (h : Sound p) (hpc : p.pc.busy = true)
    (hc : p.commands[p.i]? = some c) : Serving p c := by
  obtain ⟨c', hserving⟩ := h.serving hpc
  rwa [Option.some.inj (hc.symm.trans hserving.here)]

/-! ## Standard descriptors -/

theorem Standard.put (h : Standard fds) (n : Nat) (d : Desc) :
    Standard (Descriptors.put fds n d) := by
  intro m hm
  rw [Descriptors.get_put]
  split
  · simp
  · exact h m hm

theorem Standard.close {n : Nat} (h : Standard fds) (hn : 3 ≤ n) :
    Standard (Descriptors.close fds n) := by
  intro m hm
  rw [Descriptors.get_close_ne (by omega)]
  exact h m hm

theorem Standard.free (h : Standard fds) : 3 ≤ Descriptors.free fds := by
  by_contra hlt
  exact h _ (Nat.lt_of_not_le hlt) (Descriptors.get_free fds)

theorem Standard.duplicate {old new : Nat} (h : Standard p.fds)
    (hq : p.duplicate old new = some q) : Standard q.fds := by
  unfold Proc.duplicate at hq
  split at hq
  · cases hq
    exact h
  · obtain ⟨d, -, rfl⟩ := Option.map_eq_some_iff.mp hq
    exact h.put new d

theorem Standard.closeEnds (h : Standard p.fds) (hread : c.input ≠ 0 → 3 ≤ p.pipefd.1)
    (hwrite : c.out ≠ 1 → 3 ≤ p.pipefd.2) : Standard (p.closeEnds c).fds := by
  have hfirst : Standard (if c.input = 0 then p.fds else Descriptors.close p.fds p.pipefd.1) := by
    split
    · exact h
    · next hin => exact h.close (hread hin)
  unfold Proc.closeEnds
  simp only
  split
  · exact hfirst
  · next hout => exact hfirst.close (hwrite hout)

theorem Standard.moveFile {fd target : Nat} (h : Standard p.fds) (hfd : 3 ≤ fd)
    (hq : p.moveFile fd target = some q) : Standard q.fds := by
  obtain ⟨d, -, rfl⟩ := Option.map_eq_some_iff.mp hq
  exact (h.put target d).close hfd

theorem Standard.openFile {name : Option CStr} {stage : Nat → Stage} (h : Standard p.fds)
    (hstage : ∀ fd fd', stage fd = .moveOut fd' ∨ stage fd = .moveIn fd' → fd = fd')
    (hq : p.openFile name stage = some q) :
    Standard q.fds ∧
      ∀ fd, q.pc = .child (.moveOut fd) ∨ q.pc = .child (.moveIn fd) → 3 ≤ fd := by
  obtain ⟨name, -, rfl⟩ := Option.map_eq_some_iff.mp hq
  refine ⟨h.put _ _, fun fd hfd => ?_⟩
  rw [← hstage _ fd (hfd.imp Pc.child.inj Pc.child.inj)]
  exact h.free

theorem Standard.branch {stage : Stage} (h : Standard p.fds) (hserving : Serving p c)
    (hmoving : ∀ fd, stage = .moveOut fd ∨ stage = .moveIn fd → 3 ≤ fd)
    (hq : p.branch c stage e = some q) :
    Standard q.fds ∧
      ∀ fd, q.pc = .child (.moveOut fd) ∨ q.pc = .child (.moveIn fd) → 3 ≤ fd := by
  unfold Proc.branch at hq
  split at hq
  · obtain ⟨r, hr, rfl⟩ := Option.map_eq_some_iff.mp hq
    have hr' := h.duplicate hr
    exact ⟨hr', nofun⟩
  · split at hq <;> cases hq
    exact ⟨h, nofun⟩
  · obtain ⟨r, hr, rfl⟩ := Option.map_eq_some_iff.mp hq
    obtain ⟨fds, rfl, -⟩ := duplicate_keeps hr
    refine ⟨(h.duplicate hr).closeEnds (fun hin => ?_) (fun hout => ?_), nofun⟩
    · exact (hserving.input.resolve_left hin).2
    · rw [hserving.out] at hout
      cases hpiped : c.piped with
      | true => exact (hserving.ends hpiped).2
      | false => exact absurd (by simp [hpiped]) hout
  · split at hq <;> cases hq
    exact ⟨h, nofun⟩
  · split at hq
    · exact h.openFile (by simp) hq
    · cases hq
      exact ⟨h, nofun⟩
  · split at hq <;> cases hq
    exact ⟨h, nofun⟩
  · obtain ⟨r, hr, rfl⟩ := Option.map_eq_some_iff.mp hq
    have hr' := h.moveFile (hmoving _ (.inl rfl)) hr
    exact ⟨hr', nofun⟩
  · cases hq
    exact ⟨h, nofun⟩
  · split at hq
    · exact h.openFile (by simp) hq
    · cases hq
      exact ⟨h, nofun⟩
  · split at hq <;> cases hq
    exact ⟨h, nofun⟩
  · obtain ⟨r, hr, rfl⟩ := Option.map_eq_some_iff.mp hq
    have hr' := h.moveFile (hmoving _ (.inr rfl)) hr
    exact ⟨hr', nofun⟩
  · cases hq
    exact ⟨h, nofun⟩
  · cases hq

/-! ## Taking up a command -/

theorem Serving.congr (h : Serving p c) (hcommands : q.commands = p.commands) (hi : q.i = p.i)
    (hpipefd : q.pipefd = p.pipefd) (hdid : q.didPipe = p.didPipe) : Serving q c := by
  obtain ⟨here, input, did, out, ends, plain, linked, next⟩ := h
  refine ⟨?_, ?_, ?_, ?_, ?_, plain, ?_, ?_⟩
  · rwa [hcommands, hi]
  · rwa [hpipefd]
  · rwa [hdid]
  · rwa [hpipefd]
  · rwa [hpipefd]
  · rwa [hcommands, hi]
  · rwa [hcommands, hi, hpipefd]

private theorem drop_eq_cons (hc : p.commands[p.i]? = some c) :
    p.commands.drop p.i = c :: p.commands.drop (p.i + 1) := by
  obtain ⟨hlt, hget⟩ := List.getElem?_eq_some_iff.mp hc
  rw [List.drop_eq_getElem_cons hlt, hget]

theorem Heading.at (h : Heading p) (hc : p.commands[p.i]? = some c) :
    c.out = (if c.piped then 2 else 1) ∧
      (c.piped = true → c.redirect = false ∧ c.redirectIn = false) ∧
      Connected c.piped (p.commands.drop (p.i + 1)) := by
  have hlinked := h.linked
  rw [drop_eq_cons hc] at hlinked
  exact hlinked

theorem Heading.plain (h : Heading p) (hc : p.commands[p.i]? = some c) (hout : c.out = 1) :
    Serving { p with didPipe := false, pc := .forkExec } c := by
  obtain ⟨hconn, -, hrest⟩ := h.at hc
  have hpiped : c.piped = false := by
    cases hp : c.piped with
    | false => rfl
    | true => simp [hp, hout] at hconn
  rw [hpiped] at hrest
  refine ⟨hc, ?_, hpiped.symm, ?_, ?_, ?_, hrest.linked, ?_⟩
  · rcases h.input c hc with hin | ⟨heq, hle⟩
    · exact Or.inl hin
    · exact Or.inr ⟨hle, heq ▸ hle⟩
  · simp [hpiped, hout]
  · simp [hpiped]
  · simp [hpiped]
  · intro d hd
    have hhead : (p.commands.drop (p.i + 1))[0]? = some d := by
      rwa [List.getElem?_drop, Nat.add_zero]
    cases hdrop : p.commands.drop (p.i + 1) with
    | nil => simp [hdrop] at hhead
    | cons d' rest =>
        rw [hdrop] at hrest hhead
        cases hhead
        simpa [hpiped] using hrest.1

theorem Standard.makePipe (h : Standard p.fds) (k : Nat) :
    Standard (Sys.makePipe p k).fds ∧ 3 ≤ (Sys.makePipe p k).pipefd.1 ∧
      3 ≤ (Sys.makePipe p k).pipefd.2 := by
  have hread := h.put (Descriptors.free p.fds) (.read k)
  exact ⟨hread.put _ _, h.free, hread.free⟩

private theorem drop_makePipe (p : Proc) (k : Nat) :
    (Sys.makePipe p k).commands.drop (p.i + 1) =
      (p.commands.drop (p.i + 1)).modify 0 fun d =>
        { d with input := (Sys.makePipe p k).pipefd.1 } := by
  apply List.ext_getElem?
  intro j
  rw [List.getElem?_drop, getElem?_makePipe, List.getElem?_modify, List.getElem?_drop]
  cases p.commands[p.i + 1 + j]? with
  | none => rfl
  | some d =>
      by_cases hj : j = 0
      · subst hj
        simp
      · have hne : p.i + 1 + j ≠ p.i := by omega
        simp [hj, Ne.symm hj, hne]

theorem Heading.pipe (h : Heading p) (hstd : Standard p.fds) (hc : p.commands[p.i]? = some c)
    (hout : c.out ≠ 1) (k : Nat) :
    Serving (Sys.makePipe p k) { c with out := (Sys.makePipe p k).pipefd.2 } := by
  obtain ⟨hconn, hplain, hrest⟩ := h.at hc
  obtain ⟨-, hr, hw⟩ := hstd.makePipe k
  have hpiped : c.piped = true := by
    cases hp : c.piped with
    | true => rfl
    | false => simp [hp] at hconn; exact absurd hconn hout
  refine ⟨?_, ?_, hpiped.symm, by simp [hpiped], fun _ => ⟨hr, hw⟩, hplain, ?_, ?_⟩
  · show (Sys.makePipe p k).commands[p.i]? = _
    rw [getElem?_makePipe, hc]
    simp
  · rcases h.input c hc with hin | ⟨-, hle⟩
    · exact Or.inl hin
    · exact Or.inr ⟨hle, hr⟩
  · show Linked ((Sys.makePipe p k).commands.drop (p.i + 1))
    rw [drop_makePipe]
    cases hdrop : p.commands.drop (p.i + 1) with
    | nil => trivial
    | cons d rest =>
        rw [hdrop] at hrest
        exact hrest.2
  · intro d hd
    have hd' : (Sys.makePipe p k).commands[p.i + 1]? = some d := hd
    rw [getElem?_makePipe] at hd'
    obtain ⟨d₀, -, rfl⟩ := Option.map_eq_some_iff.mp hd'
    simp [hpiped]

theorem Serving.heading (h : Serving p c) : Heading (Sys.next p) := by
  refine ⟨h.linked, fun d hd => ?_⟩
  have hinput := h.next d hd
  cases hp : c.piped with
  | false =>
      left
      simpa [hp] using hinput
  | true =>
      right
      have hread : d.input = p.pipefd.1 := by simpa [hp] using hinput
      exact ⟨hread, hread ▸ (h.ends hp).1⟩

private theorem Serving.next_standard (h : Serving p c) (hstd : Standard p.fds) :
    Standard (Sys.next p).fds := by
  unfold Sys.next
  simp only
  split
  · next hdid =>
      rw [h.did] at hdid
      exact hstd.close (h.ends hdid).2
  · exact hstd

/-! ## The step -/

theorem Sound.quiet (hstd : q.pc.inShell = true → Standard q.fds) (hlaunch : q.pc ≠ .launch)
    (hbusy : q.pc.busy = false) : Sound q := by
  refine ⟨hstd, fun h => absurd h hlaunch, ?_, ?_⟩
  · intro h
    rw [hbusy] at h
    cases h
  · intro fd hfd
    rcases hfd with hfd | hfd
    · rw [hfd] at hbusy
      cases hbusy
    · rw [hfd] at hbusy
      cases hbusy

theorem Sound.serve (hstd : Standard q.fds) (hserving : Serving q c) (hpc : q.pc ≠ .launch)
    (hmoving : ∀ fd, q.pc = .child (.moveOut fd) ∨ q.pc = .child (.moveIn fd) → 3 ≤ fd) :
    Sound q :=
  ⟨fun _ => hstd, fun h => absurd h hpc, fun _ => ⟨c, hserving⟩, hmoving⟩

theorem Sound.goto {pc : Pc} (h : Sound p) (hpc : p.pc.busy = true) (hlaunch : pc ≠ .launch)
    (hmoving : ∀ fd, pc = .child (.moveOut fd) ∨ pc = .child (.moveIn fd) → 3 ≤ fd) :
    Sound (p.goto pc) := by
  obtain ⟨c, hserving⟩ := h.serving hpc
  have hstd : Standard p.fds := by
    apply h.standard
    cases hp : p.pc <;> simp [hp, Pc.busy, Pc.inShell] at hpc ⊢
  exact .serve (c := c) hstd (hserving.congr rfl rfl rfl rfl) hlaunch hmoving

private theorem sound_move (h : Move W s pid p e p' t)
    (hlines : ∀ cmds, some cmds ∈ s.lines → Connected false cmds) (hp : Sound p) : Sound p' := by
  have hstd : p.pc.inShell = true → Standard p.fds := hp.standard
  cases h with
  | reject | readPipe => exact hp
  | accept hpc hl heq =>
      rw [heq]
      have hconn := hlines _ (hl ▸ List.mem_cons_self)
      refine ⟨fun _ => hstd (hpc ▸ rfl), fun _ => ⟨hconn.linked, ?_⟩, nofun, nofun⟩
      intro c hc
      obtain ⟨fed, hfed, hstart⟩ := hconn.at hc
      left
      rw [hfed.1, hstart rfl]
      rfl
  | plain hpc hc hout heq =>
      rw [heq]
      have hserving := (hp.heading hpc).plain hc hout
      exact .serve (hstd (hpc ▸ rfl)) hserving nofun nofun
  | pipe hpc hc hout heq =>
      rw [heq]
      have hstd' := hstd (hpc ▸ rfl)
      have hserving := (hp.heading hpc).pipe hstd' hc hout s.pipes.length
      exact .serve (hstd'.makePipe _).1 hserving nofun nofun
  | next hpc =>
      obtain ⟨c, hserving⟩ := hp.serving (hpc ▸ rfl)
      have hnext := hserving.next_standard (hstd (hpc ▸ rfl))
      exact ⟨fun _ => hnext, fun _ => hserving.heading, nofun, nofun⟩
  | branch hpc hc hbranch =>
      have hserving := hp.serving_here (hpc ▸ rfl) hc
      obtain ⟨hstd', hmoving⟩ := (hstd (hpc ▸ rfl)).branch hserving
        (fun fd hfd => hp.moving fd (by simpa [hpc] using hfd)) hbranch
      obtain ⟨-, fds, pc, rfl, -, hcases⟩ := branch_cases hbranch
      have hlaunch : pc ≠ .launch := by
        rcases hcases with ⟨-, -, rfl⟩ | ⟨-, -, rfl⟩ | ⟨-, stage', rfl, -⟩
        all_goals simp
      exact ⟨fun _ => hstd', fun h => absurd h hlaunch,
        fun _ => ⟨_, hserving.congr rfl rfl rfl rfl⟩, hmoving⟩
  | killed | left | kExit | brokenPipe | ended => exact .quiet nofun nofun rfl
  | term hpc heq =>
      rw [heq]
      refine .quiet (fun _ => hstd ?_) nofun rfl
      cases hp : p.pc <;> simp [hp, Pc.heedsTerm, Pc.inShell] at hpc ⊢
  | leave hpc =>
      refine .quiet (fun _ => hstd ?_) nofun rfl
      cases hp : p.pc <;> simp [hp, Pc.mayLeave, Pc.inShell] at hpc ⊢
  | lineDone hpc => exact .quiet (fun _ => hstd (hpc ▸ rfl)) nofun rfl
  | pipeFailed hpc => exact .quiet (fun _ => hstd (hpc ▸ rfl)) nofun rfl
  | fork hpc _ _ heq =>
      rw [heq]
      split
      · exact hp.goto (hpc ▸ rfl) nofun nofun
      · exact hp.goto (hpc ▸ rfl) nofun nofun
  | noWords hpc | forkFailed hpc | execFailed hpc | builtin hpc | waited hpc =>
      exact hp.goto (hpc ▸ rfl) nofun nofun
  | exec _ _ _ heq | write _ _ heq | writePipe _ _ _ _ heq =>
      rw [heq]
      exact .quiet nofun nofun rfl

theorem Sound.forked (h : Sound p) (hpc : p.pc = .forkExec) (pid : Nat) :
    Sound (p.forked pid) := by
  obtain ⟨c, hserving⟩ := h.serving (hpc ▸ rfl)
  exact .serve (c := c) (h.standard (hpc ▸ rfl)) (hserving.congr rfl rfl rfl rfl) nofun nofun

theorem Sound.pending (h : Sound p) (b : Bool) : Sound { p with pending := b } := by
  refine ⟨h.standard, fun hpc => ?_, fun hpc => ?_, h.moving⟩
  · exact ⟨(h.heading hpc).linked, (h.heading hpc).input⟩
  · obtain ⟨c, hserving⟩ := h.serving hpc
    exact ⟨c, hserving.congr rfl rfl rfl rfl⟩

/-- Every process is sound, and the lines to come are connected. -/
structure Numbered (s : Sys) : Prop where
  lines : ∀ cmds, some cmds ∈ s.lines → Connected false cmds
  procs : ∀ (x : Nat) (q : Proc), s.procs[x]? = some q → Sound q

theorem numbered_step {a : Nat × Event} (hs : Numbered s) (h : step W s a = some t) :
    Numbered t := by
  obtain ⟨p, p', hp, hmove⟩ := step_move h
  constructor
  · intro cmds hcmds
    exact hs.lines cmds (hmove.lines _ hcmds)
  · intro x q' hq'
    rcases hmove.origin hp hq' with ⟨rfl, rfl⟩ | ⟨-, q, b, hq, rfl⟩ | ⟨-, hpc, rfl, -⟩
    · exact sound_move hmove hs.lines (hs.procs _ p hp)
    · exact (hs.procs x q hq).pending b
    · exact (hs.procs _ p hp).forked hpc _

theorem numbered_start {lines : List (Option (List Cmd))}
    (h : ∀ cmds, some cmds ∈ lines → Parsed cmds) : Numbered (Sys.start lines) := by
  refine ⟨fun cmds hcmds => (h cmds hcmds).connected, ?_⟩
  intro x q hq
  cases x with
  | zero =>
      cases hq
      refine .quiet (fun _ n hn => ?_) nofun rfl
      rcases n with _ | _ | _ | n
      · simp [kcsh, Descriptors.get]
      · simp [kcsh, Descriptors.get]
      · simp [kcsh, Descriptors.get]
      · omega
  | succ x => cases hq

end SyssoftLabs.Lab4
