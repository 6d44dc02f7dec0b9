import Mathlib.Data.Finset.Card
import SyssoftLabs.Lab4.Shell.Journal
import SyssoftLabs.Lab4.Shell.SingleShell

/-!
# Descriptors a line leaves open

Behind `fork_and_exec` the shell closes the write end of the pipe it made. Nobody closes the read
end, so that every pipe of a line costs the shell one descriptor.
-/

namespace SyssoftLabs.Lab4

open SyssoftLabs.Framework
open Descriptors (opened opened_put opened_close free_notMem_opened)

/-- How many commands of the line have been taken up. -/
def Proc.taken (p : Proc) : Nat := if p.pc.busy then p.i + 1 else p.i

/-- The write end of the pipe made for the current command. -/
def Proc.writeEnd (p : Proc) : Set Nat := if p.pc.busy ∧ p.didPipe then {p.pipefd.2} else ∅

/-- What is open in kcsh: what was open when it took the line, a read end for each command so far
that writes to a pipe, and the write end of the current one. -/
structure Leaking (p : Proc) (before : Descriptors Desc) (line : List Cmd)
    (leaked : Finset Nat) : Prop where
  same : p.commands.map Cmd.piped = line.map Cmd.piped
  card : leaked.card = (line.take p.taken).countP Cmd.piped
  fds : opened p.fds = p.writeEnd ∪ (opened before ∪ leaked)
  fresh : ∀ n ∈ leaked, n ∉ opened before
  write : ∀ n ∈ p.writeEnd, n ∉ opened before ∪ leaked
  done : p.pc = .readLine → p.commands.length ≤ p.i

/-- In the loop of `main` the open descriptors are accounted for. -/
def Balanced (p : Proc) (j : Journal) : Prop :=
  p.pc.inMain = true → ∃ leaked, Leaking p j.before j.line leaked

variable {W : World} {s t : Sys} {p p' q : Proc} {e : Event} {c : Cmd} {j : Journal}
  {before : Descriptors Desc} {line : List Cmd} {leaked : Finset Nat}

theorem Leaking.goto {pc : Pc} (h : Leaking p before line leaked) (hpc : p.pc.busy = true)
    (hbusy : pc.busy = true) : Leaking (p.goto pc) before line leaked := by
  have htaken : (p.goto pc).taken = p.taken := by simp [Proc.taken, Proc.goto, hpc, hbusy]
  have hend : (p.goto pc).writeEnd = p.writeEnd := by simp [Proc.writeEnd, Proc.goto, hpc, hbusy]
  refine ⟨h.same, ?_, ?_, h.fresh, ?_, ?_⟩
  · rw [htaken]
    exact h.card
  · rw [hend]
    exact h.fds
  · rw [hend]
    exact h.write
  · intro hread
    have hread' : pc = .readLine := hread
    rw [hread'] at hbusy
    cases hbusy

theorem Leaking.take (h : Leaking p before line leaked) (hc : p.commands[p.i]? = some c) :
    (line.take (p.i + 1)).countP Cmd.piped =
      (line.take p.i).countP Cmd.piped + c.piped.toNat := by
  have hmap : (p.commands.map Cmd.piped)[p.i]? = some c.piped := by
    rw [List.getElem?_map, hc]
    rfl
  rw [h.same, List.getElem?_map] at hmap
  obtain ⟨b, hb, hpiped⟩ := Option.map_eq_some_iff.mp hmap
  rw [List.take_add_one, hb, List.countP_append, ← hpiped]
  cases hb' : b.piped <;> simp [hb']

theorem Leaking.plain (h : Leaking p before line leaked) (hpc : p.pc = .launch)
    (hc : p.commands[p.i]? = some c) (hpiped : c.piped = false) :
    Leaking { p with didPipe := false, pc := .forkExec } before line leaked := by
  have hend : p.writeEnd = ∅ := by simp [Proc.writeEnd, hpc, Pc.busy]
  have htaken : p.taken = p.i := by simp [Proc.taken, hpc, Pc.busy]
  have hfds := h.fds
  have hcard := h.card
  rw [hend] at hfds
  rw [htaken] at hcard
  refine ⟨h.same, ?_, ?_, h.fresh, ?_, fun h => by cases h⟩
  · have htake := h.take hc
    rw [hpiped, Bool.toNat_false, Nat.add_zero] at htake
    exact hcard.trans htake.symm
  · simpa [Proc.writeEnd] using hfds
  · simp [Proc.writeEnd]

theorem Leaking.pipe (h : Leaking p before line leaked) (hpc : p.pc = .launch)
    (hc : p.commands[p.i]? = some c) (hpiped : c.piped = true) (k : Nat) :
    Leaking (Sys.makePipe p k) before line (insert (Sys.makePipe p k).pipefd.1 leaked) := by
  have hend : p.writeEnd = ∅ := by simp [Proc.writeEnd, hpc, Pc.busy]
  have htaken : p.taken = p.i := by simp [Proc.taken, hpc, Pc.busy]
  have hfds := h.fds
  rw [hend, Set.empty_union] at hfds
  have hread : (Sys.makePipe p k).pipefd.1 ∉ opened p.fds := free_notMem_opened p.fds
  have hwrite : (Sys.makePipe p k).pipefd.2 ∉
      insert (Sys.makePipe p k).pipefd.1 (opened p.fds) := by
    have hfree := free_notMem_opened (Descriptors.put p.fds (Descriptors.free p.fds) (.read k))
    rwa [opened_put] at hfree
  have hopened : opened (Sys.makePipe p k).fds =
      insert (Sys.makePipe p k).pipefd.2 (insert (Sys.makePipe p k).pipefd.1 (opened p.fds)) := by
    show opened (Descriptors.put _ _ _) = _
    rw [opened_put, opened_put]
    rfl
  have hleaked : opened before ∪ (insert (Sys.makePipe p k).pipefd.1 leaked : Finset Nat) =
      insert (Sys.makePipe p k).pipefd.1 (opened p.fds) := by
    rw [hfds, Finset.coe_insert, Set.union_insert]
  rw [hfds] at hread
  refine ⟨?_, ?_, ?_, ?_, ?_, fun h => by cases h⟩
  · rw [← h.same]
    apply List.ext_getElem?
    intro i
    rw [List.getElem?_map, List.getElem?_map, getElem?_makePipe, Option.map_map]
    rfl
  · have hnew : (Sys.makePipe p k).pipefd.1 ∉ leaked := fun hmem => hread (Or.inr hmem)
    have htake := h.take hc
    have hcard := h.card
    rw [hpiped, Bool.toNat_true] at htake
    rw [htaken] at hcard
    rw [Finset.card_insert_of_notMem hnew, hcard]
    exact htake.symm
  · rw [hopened, hleaked]
    rfl
  · intro n hn
    rcases Finset.mem_insert.mp hn with rfl | hn
    · exact fun hmem => hread (Or.inl hmem)
    · exact h.fresh n hn
  · intro n hn
    rw [hleaked]
    exact Set.mem_singleton_iff.mp hn ▸ hwrite

theorem Leaking.next (h : Leaking p before line leaked) (hpc : p.pc = .returned) :
    Leaking (Sys.next p) before line leaked := by
  have hend : (Sys.next p).writeEnd = ∅ := by simp [Proc.writeEnd, Sys.next, Pc.busy]
  have htaken : (Sys.next p).taken = p.taken := by
    simp [Proc.taken, Sys.next, hpc, Pc.busy]
  refine ⟨h.same, ?_, ?_, h.fresh, ?_, fun h => by cases h⟩
  · rw [htaken]
    exact h.card
  · have hfds := h.fds
    have hwrite := h.write
    rw [hend, Set.empty_union]
    unfold Proc.writeEnd at hfds hwrite
    unfold Sys.next
    simp only
    split
    · next hdid =>
        rw [hpc, if_pos ⟨rfl, hdid⟩] at hfds hwrite
        rw [opened_close, hfds, Set.singleton_union]
        exact Set.insert_sdiff_self_of_notMem (hwrite _ (Set.mem_singleton _))
    · next hdid =>
        rw [if_neg fun h => hdid h.2, Set.empty_union] at hfds
        exact hfds
  · rw [hend]
    intro n hn
    cases hn

/-! ## The step -/

private theorem record_keeps (a : Nat × Event) (hp : s.procs[0]? = some p)
    (hpc : p.pc ≠ .readLine) :
    (Journal.record s a j).before = j.before ∧ (Journal.record s a j).line = j.line := by
  rw [Journal.record, hp]
  simp only
  split
  · unfold Journal.note
    split
    · next h => exact absurd h hpc
    · split
      · exact ⟨rfl, rfl⟩
      · exact ⟨rfl, rfl⟩
    · split
      · split
        · exact ⟨rfl, rfl⟩
        · exact ⟨rfl, rfl⟩
      · exact ⟨rfl, rfl⟩
    · exact ⟨rfl, rfl⟩
    · exact ⟨rfl, rfl⟩
  · exact ⟨rfl, rfl⟩

theorem Balanced.outside (h : p.pc.inMain = false) : Balanced p j := by
  intro hmain
  rw [h] at hmain
  cases hmain

theorem Leaking.accept (p : Proc) (cmds : List Cmd) :
    Leaking { p with commands := cmds, i := 0, pc := .launch } p.fds cmds ∅ := by
  refine ⟨rfl, ?_, ?_, ?_, ?_, fun h => by cases h⟩
  · simp [Proc.taken, Pc.busy]
  · simp [Proc.writeEnd, Pc.busy]
  · simp
  · simp [Proc.writeEnd, Pc.busy]

theorem Leaking.lineDone (h : Leaking p before line leaked) (hpc : p.pc = .launch)
    (hc : p.commands[p.i]? = none) : Leaking (p.goto .readLine) before line leaked := by
  have hend : (p.goto .readLine).writeEnd = p.writeEnd := by
    simp [Proc.writeEnd, Proc.goto, hpc, Pc.busy]
  have htaken : (p.goto .readLine).taken = p.taken := by
    simp [Proc.taken, Proc.goto, hpc, Pc.busy]
  refine ⟨h.same, ?_, ?_, h.fresh, ?_, fun _ => List.getElem?_eq_none_iff.mp hc⟩
  · rw [htaken]
    exact h.card
  · rw [hend]
    exact h.fds
  · rw [hend]
    exact h.write

private theorem balanced_move (h : Move W s 0 p e p' t) (hp : s.procs[0]? = some p)
    (hsound : Sound p)
    (hlogged : Logged p j) (hl : Balanced p j) : Balanced p' (Journal.record s (0, e) j) := by
  have hloop : ∀ pc, p.pc = pc → pc ≠ .readLine → pc.inMain = true →
      (∀ leaked, Leaking p j.before j.line leaked → ∃ l, Leaking p' j.before j.line l) →
      Balanced p' (Journal.record s (0, e) j) := by
    intro pc hpc hread hmain hstep _
    obtain ⟨hbefore, hline⟩ := record_keeps (j := j) (0, e) hp (hpc ▸ hread)
    rw [hbefore, hline]
    obtain ⟨leaked, hleaked⟩ := hl (hpc ▸ hmain)
    exact hstep leaked hleaked
  have hround : ∀ pc pc', p.pc = pc → pc.busy = true → pc.inMain = true → pc'.busy = true →
      p' = p.goto pc' → Balanced p' (Journal.record s (0, e) j) := by
    intro pc pc' hpc hbusy hmain hbusy' heq
    refine hloop pc hpc (fun h => ?_) hmain fun leaked hleaked => ⟨leaked, ?_⟩
    · rw [h] at hbusy
      cases hbusy
    · rw [heq]
      exact hleaked.goto (hpc ▸ hbusy) hbusy'
  cases h with
  | reject hpc hlines =>
      rw [record_go hp, note_reject hpc hlines]
      exact hl
  | accept hpc hlines heq =>
      rw [record_go hp, note_accept hpc hlines, heq]
      exact fun _ => ⟨∅, .accept p _⟩
  | lineDone hpc hc =>
      exact hloop _ hpc nofun rfl fun leaked hleaked => ⟨leaked, hleaked.lineDone hpc hc⟩
  | plain hpc hc hout heq =>
      have hserving := (hsound.heading hpc).plain hc hout
      refine hloop _ hpc nofun rfl fun leaked hleaked => ⟨leaked, ?_⟩
      rw [heq]
      exact hleaked.plain hpc hc hserving.did.symm
  | pipe hpc hc hout heq =>
      have hstd := hsound.standard (hpc ▸ rfl)
      have hserving := (hsound.heading hpc).pipe hstd hc hout s.pipes.length
      refine hloop _ hpc nofun rfl fun leaked hleaked => ⟨insert p'.pipefd.1 leaked, ?_⟩
      rw [heq]
      exact hleaked.pipe hpc hc hserving.did.symm _
  | noWords hpc => exact hround _ _ hpc rfl rfl rfl rfl
  | fork hpc hc hargc heq =>
      refine hround _ _ hpc rfl rfl ?_ rfl
      rw [heq]
      split
      · rfl
      · rfl
  | forkFailed hpc => exact hround _ _ hpc rfl rfl rfl rfl
  | waited hpc => exact hround _ _ hpc rfl rfl rfl rfl
  | next hpc =>
      exact hloop _ hpc nofun rfl fun leaked hleaked => ⟨leaked, hleaked.next hpc⟩
  | branch hpc | exec hpc | execFailed hpc | kExit hpc | builtin hpc =>
      exact absurd hpc (hlogged.shell _)
  | readPipe hpc => exact .outside (hpc ▸ rfl)
  | term _ heq | write _ _ heq | writePipe _ _ _ _ heq =>
      rw [heq]
      exact .outside rfl
  | _ => exact .outside rfl

/-- The account of kcsh is balanced at every time. -/
def InBalance (s : Sys) (j : Journal) : Prop :=
  Chronicled s j ∧ ∀ p, s.procs[0]? = some p → Balanced p j

private theorem inBalance_step {a : Nat × Event} (hs : Numbered s) (hj : InBalance s j)
    (h : step W s a = some t) : InBalance t (Journal.record s a j) := by
  refine ⟨chronicled_step hs hj.1 h, ?_⟩
  obtain ⟨pid, e⟩ := a
  obtain ⟨p, p', hp, hmove⟩ := step_move h
  intro q' hq'
  rcases hmove.origin hp hq' with ⟨rfl, rfl⟩ | ⟨hne, q, b, hq, rfl⟩ | ⟨hlen, -, rfl, -⟩
  · exact balanced_move hmove hp (hs.procs _ p hp) (hj.1 p hp) (hj.2 p hp)
  · rw [record_other (Ne.symm hne)]
    intro hmain
    obtain ⟨leaked, hleaked⟩ := hj.2 q hq hmain
    exact ⟨leaked, hleaked.same, hleaked.card, hleaked.fds, hleaked.fresh, hleaked.write,
      hleaked.done⟩
  · have hlt : pid < s.procs.length := (List.getElem?_eq_some_iff.mp hp).1
    omega

private theorem inBalance_start (lines : List (Option (List Cmd))) :
    InBalance (Sys.start lines) Journal.start := by
  constructor
  · intro p hp
    cases hp
    exact .quiet nofun nofun rfl
  · intro p hp hmain
    cases hp
    refine ⟨∅, rfl, rfl, ?_, ?_, ?_, fun _ => Nat.le_refl _⟩
    · simp [Proc.writeEnd, kcsh, Pc.busy, Journal.start]
    · simp
    · simp [Proc.writeEnd, kcsh, Pc.busy]

/-! ## A whole line -/

private theorem line_leaks {lines : List (Option (List Cmd))}
    (hlines : ∀ cmds, some cmds ∈ lines → Parsed cmds)
    (h : Reachable (stepLogged W) (Sys.start lines, Journal.start) (s, j))
    (hp : s.procs[0]? = some p) (hpc : p.pc = .readLine) :
    ∃ leaked : Finset Nat, leaked.card = j.line.countP Cmd.piped ∧
      opened p.fds = opened j.before ∪ leaked ∧ ∀ n ∈ leaked, n ∉ opened j.before := by
  obtain ⟨-, -, hbalanced⟩ := recorded_invariant (fun s a t hs ht => numbered_step hs ht)
    (fun s a t j hs hj ht => inBalance_step hs hj ht) h (numbered_start hlines)
    (inBalance_start lines)
  obtain ⟨leaked, hleaked⟩ := hbalanced p hp (hpc ▸ rfl)
  have htaken : p.taken = p.i := by simp [Proc.taken, hpc, Pc.busy]
  have hend : p.writeEnd = ∅ := by simp [Proc.writeEnd, hpc, Pc.busy]
  have hlength : p.commands.length = j.line.length := by
    simpa using congrArg List.length hleaked.same
  have hall : j.line.take p.taken = j.line := by
    rw [htaken, List.take_of_length_le]
    rw [← hlength]
    exact hleaked.done hpc
  have hcard := hleaked.card
  have hfds := hleaked.fds
  rw [hall] at hcard
  rw [hend, Set.empty_union] at hfds
  exact ⟨leaked, hcard, hfds, hleaked.fresh⟩

/-- A line leaves the descriptors of the shell as they were exactly if none of its commands writes
to a pipe. -/
theorem line_keeps_descriptors_iff (W : World) (lines : List (Option (List Cmd)))
    (hlines : ∀ cmds, some cmds ∈ lines → Parsed cmds) (s : Sys) (j : Journal) (p : Proc)
    (h : Reachable (stepLogged W) (Sys.start lines, Journal.start) (s, j))
    (hp : s.procs[0]? = some p) (hpc : p.pc = .readLine) :
    opened p.fds = opened j.before ↔ ∀ c ∈ j.line, c.piped = false := by
  obtain ⟨leaked, hcard, hfds, hfresh⟩ := line_leaks hlines h hp hpc
  have hnone : (∀ c ∈ j.line, c.piped = false) ↔ leaked = ∅ := by
    rw [← Finset.card_eq_zero, hcard, List.countP_eq_zero]
    simp
  rw [hnone, hfds]
  constructor
  · intro heq
    have hsub : (leaked : Set Nat) ⊆ opened j.before := Set.union_eq_left.mp heq
    rw [Finset.eq_empty_iff_forall_notMem]
    intro n hn
    exact hfresh n hn (hsub hn)
  · rintro rfl
    simp

/-- Both stages of `a | b` run their programs, and the shell is back at its prompt. -/
def twoStagesRun : List (Nat × Event) :=
  [List.replicate 3 (0, .go), List.replicate 5 (1, .go), [(1, .exit)], List.replicate 4 (0, .go),
    List.replicate 5 (2, .go), [(2, .exit)], List.replicate 3 (0, .go)].flatten

private theorem twoStagesRun_ends :
    ∃ s j p, run (stepLogged ⟨1, fun _ => 0⟩) (Sys.start [some twoStages.cmds], Journal.start)
        twoStagesRun = some (s, j) ∧ s.procs[0]? = some p ∧ p.pc = .readLine ∧
      Descriptors.get p.fds 3 = some (.read 0) ∧ Descriptors.get j.before 3 = none := by
  have hrun : (run (stepLogged ⟨1, fun _ => 0⟩)
      (Sys.start [some twoStages.cmds], Journal.start) twoStagesRun).map (fun t =>
        ((t.1.procs[0]?).map fun p => (p.pc, Descriptors.get p.fds 3),
          Descriptors.get t.2.before 3)) =
      some (some (.readLine, some (.read 0)), none) := by decide
  obtain ⟨⟨s, j⟩, hs, heq⟩ := Option.map_eq_some_iff.mp hrun
  obtain ⟨hproc, hbefore⟩ := Prod.mk.inj heq
  obtain ⟨p, hp, hpair⟩ := Option.map_eq_some_iff.mp hproc
  obtain ⟨hpc, hfd⟩ := Prod.mk.inj hpair
  exact ⟨s, j, p, hs, hp, hpc, hfd, hbefore⟩

theorem line_keeps_descriptors_fails :
    ¬ ∀ (W : World) (cmds : List Cmd) (as : List (Nat × Event)) (s : Sys) (j : Journal) (p : Proc),
      Parsed cmds → (∀ c ∈ cmds, c.builtin = none) → (∀ a ∈ as, a.2 ≠ .fail) →
      run (stepLogged W) (Sys.start [some cmds], Journal.start) as = some (s, j) →
      s.procs[0]? = some p → p.pc = .readLine → opened p.fds = opened j.before := by
  intro h
  obtain ⟨s, j, p, hrun, hp, hpc, hfd, hbefore⟩ := twoStagesRun_ends
  have heq := h _ _ _ s j p twoStages.parsed twoStages_external (by decide) hrun hp hpc
  have hmem : 3 ∈ opened p.fds := by
    rw [Descriptors.mem_opened, hfd]
    exact Option.some_ne_none _
  rw [heq] at hmem
  exact hmem hbefore

theorem line_keeps_descriptors_twoStages :
    ∃ s j p, Reachable (stepLogged ⟨1, fun _ => 0⟩)
        (Sys.start [some twoStages.cmds], Journal.start) (s, j) ∧
      s.procs[0]? = some p ∧ p.pc = .readLine ∧
      (opened p.fds = opened j.before ↔ ∀ c ∈ j.line, c.piped = false) := by
  obtain ⟨s, j, p, hrun, hp, hpc, -, -⟩ := twoStagesRun_ends
  have hreach : Reachable (stepLogged ⟨1, fun _ => 0⟩)
      (Sys.start [some twoStages.cmds], Journal.start) (s, j) := ⟨_, hrun⟩
  exact ⟨s, j, p, hreach, hp, hpc,
    line_keeps_descriptors_iff _ _ twoStages_parsed s j p hreach hp hpc⟩

end SyssoftLabs.Lab4
