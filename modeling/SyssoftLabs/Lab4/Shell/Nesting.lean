import Mathlib.Data.List.Chain
import SyssoftLabs.Framework.History
import SyssoftLabs.Lab4.Shell.Builtins
import SyssoftLabs.Lab4.Shell.SingleShell

/-!
# Shells in shells

The child that runs a built-in other than `exit`, or that fails, goes on as a shell while its parent
waits for it. Without background commands the shells are a stack: only the newest one reads lines,
and the others wait each for the next newer one. What a built-in changed is lost when the shell ends
that it made.
-/

namespace SyssoftLabs.Lab4

open SyssoftLabs.Framework

/-! ## The memory of the processes -/

/-- `fork` copies the memory of the process, and a built-in changes that of its own. -/
def ambientNote (chdir : Chdir) (s : Sys) (a : Nat × Event) (amb : Nat → Ambient) : Nat → Ambient :=
  match s.procs[a.1]?, a.2 with
  | some p, .go =>
      match p.pc, p.commands[p.i]? with
      | .forkExec, some c =>
          if c.argc = 0 then amb else Function.update amb s.procs.length (amb a.1)
      | .child .run, some c =>
          match c.builtin with
          | some b =>
              match b.call chdir c (amb a.1) with
              | .ok (_, ambient) => Function.update amb a.1 ambient
              | .error _ => amb
          | none => amb
      | _, _ => amb
  | _, _ => amb

/-- The steps of all processes, with the memory of each. -/
def stepAmbient (W : World) (chdir : Chdir) :
    Sys × (Nat → Ambient) → Nat × Event → Option (Sys × (Nat → Ambient)) :=
  recorded (step W) (ambientNote chdir)

/-- A built-in that the process is about to call comes to no fault. -/
def Proc.faultless (chdir : Chdir) (p : Proc) (ambient : Ambient) : Bool :=
  match p.pc, p.commands[p.i]? with
  | .child .run, some c =>
      match c.builtin with
      | some b => (b.call chdir c ambient).isOk
      | none => true
  | _, _ => true

/-- No process is ended from outside, the handler of a pending SIGTERM runs before anything else in
its process, and no built-in comes to a fault. -/
def Orderly (chdir : Chdir) (s : Sys × (Nat → Ambient)) (a : Nat × Event) : Prop :=
  a.2 ≠ .killed ∧ (s.1.procs[a.1]?).all (fun p =>
    decide (p.pending = true → a.2 = .term) && p.faultless chdir (s.2 a.1)) = true

instance (chdir : Chdir) (s : Sys × (Nat → Ambient)) (a : Nat × Event) :
    Decidable (Orderly chdir s a) :=
  inferInstanceAs (Decidable (_ ∧ _ = true))

/-! ## The stack of shells -/

/-- The shell `y` waits for the shell `x`, whose process it forked for its present command. What the
built-in of this command did, if it is one and was reached, is what the two differ in. -/
def Above (chdir : Chdir) (s : Sys) (amb : Nat → Ambient) (x y : Nat) : Prop :=
  ∃ q c, s.procs[y]? = some q ∧ q.pc = .waiting x ∧ q.commands[q.i]? = some c ∧
    (amb x = amb y ∨
      ∃ b status, c.builtin = some b ∧ b.call chdir c (amb y) = .ok (status, amb x))

/-- A child in its branch, which is at the command that the shell `top` waits at. -/
def Under (s : Sys) (amb : Nat → Ambient) (pid : Nat) (p : Proc) (top : Nat) : Prop :=
  top < pid ∧ p.parent = top ∧ amb pid = amb top ∧
    ∃ q, s.procs[top]? = some q ∧ q.pc = .waiting pid ∧ q.commands[q.i]? = p.commands[p.i]?

/-- The processes in `main`, the newest first. -/
structure Nested (chdir : Chdir) (s : Sys) (amb : Nat → Ambient) (shells : List Nat) : Prop where
  alive : ∀ pid ∈ shells, ∃ p, s.procs[pid]? = some p
  members : ∀ pid p, s.procs[pid]? = some p → (p.pc.inMain = true ↔ pid ∈ shells)
  root : ∀ pid ∈ shells.getLast?, pid = 0
  sorted : shells.Pairwise (· > ·)
  chain : shells.IsChain (Above chdir s amb)
  branch : ∀ pid p stage, s.procs[pid]? = some p → p.pc = .child stage →
    ∃ top below, shells = top :: below ∧ Under s amb pid p top
  pending : ∀ pid p, s.procs[pid]? = some p → p.pending = true →
    ∃ child below, shells = pid :: below ∧ p.pc = .waiting child ∧
      (s.procs[child]?).map Proc.pc = some .exited
  foreground : ∀ (pid : Nat) (p : Proc), s.procs[pid]? = some p → ∀ c ∈ p.commands, c.bg = false
  lines : ∀ cmds, some cmds ∈ s.lines → ∀ c ∈ cmds, c.bg = false

variable {chdir : Chdir} {s t : Sys} {amb amb' : Nat → Ambient} {shells : List Nat}
  {pid x y top : Nat} {p p' q : Proc} {c : Cmd}

/-! ## What the stack says -/

theorem Nested.newest (h : Nested chdir s amb shells) (hp : s.procs[pid]? = some p)
    (hmain : p.pc.inMain = true)
    (hwaits : ∀ x q, p.pc = .waiting x → s.procs[x]? = some q → q.pc = .exited) :
    (∃ below, shells = pid :: below) ∧
      ∀ (x : Nat) (q : Proc) stage, s.procs[x]? = some q → q.pc ≠ .child stage := by
  have hmem := (h.members pid p hp).mp hmain
  obtain ⟨front, below, hshells⟩ := List.append_of_mem hmem
  have hnewest : front = [] := by
    cases front using List.reverseRecOn with
    | nil => rfl
    | append_singleton front x =>
        have hchain := h.chain
        rw [hshells, List.append_assoc, List.singleton_append] at hchain
        obtain ⟨q, c, hq, hpc, -⟩ : Above chdir s amb x pid :=
          (List.isChain_cons_cons.mp hchain.right_of_append).1
        rw [hp] at hq
        cases hq
        have hx : x ∈ shells := by simp [hshells]
        obtain ⟨r, hr⟩ := h.alive x hx
        have hin := (h.members x r hr).mpr hx
        rw [hwaits x r hpc hr] at hin
        cases hin
  subst hnewest
  refine ⟨⟨below, hshells⟩, ?_⟩
  intro x q stage hq hpc
  obtain ⟨top, below', hshells', -, -, -, r, hr, hwait, -⟩ := h.branch x q stage hq hpc
  rw [hshells] at hshells'
  cases hshells'
  rw [hp] at hr
  cases hr
  have hexited := hwaits x q hwait hq
  rw [hpc] at hexited
  cases hexited

private theorem Nested.not_pending (h : Nested chdir s amb shells) {stage : Stage}
    (hx : s.procs[x]? = some q) (hpc : q.pc = .child stage) (hp : s.procs[pid]? = some p) :
    p.pending = false := by
  rw [← Bool.not_eq_true]
  intro hpending
  obtain ⟨child, below, hshells, hwaiting, hexited⟩ := h.pending pid p hp hpending
  obtain ⟨top, below', hshells', -, -, -, r, hr, hwait, -⟩ := h.branch x q stage hx hpc
  rw [hshells] at hshells'
  cases hshells'
  rw [hp] at hr
  cases hr
  rw [hwaiting] at hwait
  cases hwait
  rw [hx, Option.map_some, hpc] at hexited
  cases hexited

theorem Nested.quiet (h : Nested chdir s amb shells) (hp : s.procs[pid]? = some p)
    (hmain : p.pc.inMain = false) : p.pending = false := by
  rw [← Bool.not_eq_true]
  intro hpending
  obtain ⟨child, below, -, hwaiting, -⟩ := h.pending pid p hp hpending
  rw [hwaiting] at hmain
  cases hmain

private theorem Nested.not_mem (h : Nested chdir s amb shells) (hp : s.procs[pid]? = some p)
    (hmain : p.pc.inMain = false) : pid ∉ shells := by
  intro hmem
  rw [(h.members pid p hp).mpr hmem] at hmain
  cases hmain

/-! ## Steps of one process -/

/-- No other process than `pid` changes. -/
def Replaces (s t : Sys) (pid : Nat) (p' : Proc) : Prop :=
  (∀ x, t.procs[x]? = if x = pid then some p' else s.procs[x]?) ∧ ∀ l ∈ t.lines, l ∈ s.lines

theorem Replaces.own (ht : Replaces s t pid p') : t.procs[pid]? = some p' := by
  rw [ht.1, if_pos rfl]

theorem Replaces.other (ht : Replaces s t pid p') (hx : x ≠ pid) : t.procs[x]? = s.procs[x]? := by
  rw [ht.1, if_neg hx]

theorem Replaces.origin (ht : Replaces s t pid p') (hq : t.procs[x]? = some q) :
    (x = pid ∧ q = p') ∨ (x ≠ pid ∧ s.procs[x]? = some q) := by
  rw [ht.1] at hq
  split at hq
  · next hx => exact .inl ⟨hx, (Option.some.inj hq).symm⟩
  · next hx => exact .inr ⟨hx, hq⟩

theorem Above.frame (h : Above chdir s amb x y) (hy : t.procs[y]? = s.procs[y]?)
    (hax : amb' x = amb x) (hay : amb' y = amb y) : Above chdir t amb' x y := by
  obtain ⟨q, c, hq, hpc, hc, heffect⟩ := h
  refine ⟨q, c, hy.trans hq, hpc, hc, ?_⟩
  rw [hax, hay]
  exact heffect

theorem Under.frame (h : Under s amb x q top) (htop : t.procs[top]? = s.procs[top]?)
    (hax : amb' x = amb x) (hatop : amb' top = amb top) : Under t amb' x q top := by
  obtain ⟨hlt, hparent, hamb, r, hr, hwait, hc⟩ := h
  refine ⟨hlt, hparent, ?_, r, htop.trans hr, hwait, hc⟩
  rw [hax, hatop]
  exact hamb

private theorem Nested.foreground_step (h : Nested chdir s amb shells) (ht : Replaces s t pid p')
    (hp' : ∀ c ∈ p'.commands, c.bg = false) (x : Nat) (q : Proc) (hq : t.procs[x]? = some q) :
    ∀ c ∈ q.commands, c.bg = false := by
  obtain ⟨-, rfl⟩ | ⟨-, hq⟩ := ht.origin hq
  · exact hp'
  · exact h.foreground x q hq

/-- The newest shell goes on in `main`, or leaves it. -/
theorem Nested.main (h : Nested chdir s amb shells) (hp : s.procs[pid]? = some p)
    (hmain : p.pc.inMain = true)
    (hwaits : ∀ x q, p.pc = .waiting x → s.procs[x]? = some q → q.pc = .exited)
    (ht : Replaces s t pid p') (hchild : ∀ stage, p'.pc ≠ .child stage)
    (hpending : p'.pending = false) (hp' : ∀ c ∈ p'.commands, c.bg = false) :
    ∃ shells', Nested chdir t amb shells' := by
  obtain ⟨⟨below, rfl⟩, hbranch⟩ := h.newest hp hmain hwaits
  obtain ⟨hnewest, hsorted⟩ := List.pairwise_cons.mp h.sorted
  have hne : ∀ y ∈ below, y ≠ pid := fun y hy => Nat.ne_of_lt (hnewest y hy)
  have hno : ∀ (x : Nat) (q : Proc) stage, t.procs[x]? = some q → q.pc ≠ .child stage := by
    intro x q stage hq
    obtain ⟨rfl, rfl⟩ | ⟨-, hq⟩ := ht.origin hq
    · exact hchild stage
    · exact hbranch x q stage hq
  have hquiet : ∀ (x : Nat) (q : Proc), t.procs[x]? = some q → q.pending = false := by
    intro x q hq
    obtain ⟨rfl, rfl⟩ | ⟨hx, hq⟩ := ht.origin hq
    · exact hpending
    · rw [← Bool.not_eq_true]
      intro hpend
      obtain ⟨child, below', hshells, -⟩ := h.pending x q hq hpend
      cases hshells
      exact hx rfl
  have halive : ∀ x ∈ below, ∃ q, t.procs[x]? = some q := by
    intro x hx
    rw [ht.other (hne x hx)]
    exact h.alive x (List.mem_cons_of_mem pid hx)
  have hpush : ∀ y ∈ below, ∀ x, Above chdir s amb x y → Above chdir t amb x y :=
    fun y hy x habove => habove.frame (ht.other (hne y hy)) rfl rfl
  cases hin : p'.pc.inMain with
  | true =>
      refine ⟨pid :: below, ?_⟩
      exact
        { alive := List.forall_mem_cons.mpr ⟨⟨p', ht.own⟩, halive⟩
          members := by
            intro x q hq
            obtain ⟨rfl, rfl⟩ | ⟨-, hq⟩ := ht.origin hq
            · exact iff_of_true hin List.mem_cons_self
            · exact h.members x q hq
          root := h.root
          sorted := h.sorted
          chain := h.chain.imp_of_mem_tail_imp fun x y _ hy => hpush y hy x
          branch := fun x q stage hq hpc => absurd hpc (hno x q stage hq)
          pending := by
            intro x q hq hpend
            rw [hquiet x q hq] at hpend
            cases hpend
          foreground := h.foreground_step ht hp'
          lines := fun cmds hcmds => h.lines cmds (ht.2 _ hcmds) }
  | false =>
      refine ⟨below, ?_⟩
      exact
        { alive := halive
          members := by
            intro x q hq
            obtain ⟨rfl, rfl⟩ | ⟨hx, hq⟩ := ht.origin hq
            · rw [hin]
              exact iff_of_false Bool.false_ne_true fun hmem => hne x hmem rfl
            · rw [h.members x q hq, List.mem_cons, or_iff_right hx]
          root := by
            cases below with
            | nil => exact nofun
            | cons y below => exact h.root
          sorted := hsorted
          chain := h.chain.tail.imp_of_mem_imp fun x y _ hy => hpush y hy x
          branch := fun x q stage hq hpc => absurd hpc (hno x q stage hq)
          pending := by
            intro x q hq hpend
            rw [hquiet x q hq] at hpend
            cases hpend
          foreground := h.foreground_step ht hp'
          lines := fun cmds hcmds => h.lines cmds (ht.2 _ hcmds) }

theorem Nested.outside (h : Nested chdir s amb shells) (hp : s.procs[pid]? = some p)
    (hmain : p.pc.inMain = false) (hmoves : p.pc ≠ .exited) (ht : Replaces s t pid p')
    (hmain' : p'.pc.inMain = false) (hpending : p'.pending = p.pending)
    (hcommands : p'.commands = p.commands)
    (hbranch : ∀ stage, p'.pc = .child stage →
      (∃ stage, p.pc = .child stage) ∧ p'.parent = p.parent ∧ p'.i = p.i) :
    Nested chdir t amb shells := by
  have hnot := h.not_mem hp hmain
  have hne : ∀ y ∈ shells, y ≠ pid := fun y hy heq => hnot (heq ▸ hy)
  exact
    { alive := by
        intro x hx
        rw [ht.other (hne x hx)]
        exact h.alive x hx
      members := by
        intro x q hq
        obtain ⟨rfl, rfl⟩ | ⟨-, hq⟩ := ht.origin hq
        · rw [hmain']
          exact iff_of_false Bool.false_ne_true hnot
        · exact h.members x q hq
      root := h.root
      sorted := h.sorted
      chain := h.chain.imp_of_mem_imp fun x y _ hy habove =>
        habove.frame (ht.other (hne y hy)) rfl rfl
      branch := by
        intro x q stage hq hpc
        obtain ⟨rfl, rfl⟩ | ⟨-, hq⟩ := ht.origin hq
        · obtain ⟨⟨stage', hchild⟩, hparent, hi⟩ := hbranch stage hpc
          obtain ⟨top, below, rfl, hunder⟩ := h.branch x p stage' hp hchild
          obtain ⟨hlt, hparent', hamb, r, hr, hwait, hc⟩ :=
            hunder.frame (ht.other (hne top List.mem_cons_self)) rfl rfl
          refine ⟨top, below, rfl, hlt, hparent.trans hparent', hamb, r, hr, hwait, ?_⟩
          rw [hcommands, hi]
          exact hc
        · obtain ⟨top, below, rfl, hunder⟩ := h.branch x q stage hq hpc
          exact ⟨top, below, rfl, hunder.frame (ht.other (hne top List.mem_cons_self)) rfl rfl⟩
      pending := by
        intro x q hq hpend
        obtain ⟨rfl, rfl⟩ | ⟨-, hq⟩ := ht.origin hq
        · rw [hpending, h.quiet hp hmain] at hpend
          cases hpend
        · obtain ⟨child, below, hshells, hwait, hexited⟩ := h.pending x q hq hpend
          refine ⟨child, below, hshells, hwait, ?_⟩
          have hchild : child ≠ pid := by
            rintro rfl
            rw [hp] at hexited
            exact hmoves (Option.some.inj hexited)
          rw [ht.other hchild]
          exact hexited
      foreground := by
        apply h.foreground_step ht
        rw [hcommands]
        exact h.foreground _ p hp
      lines := fun cmds hcmds => h.lines cmds (ht.2 _ hcmds) }

theorem Nested.nest (h : Nested chdir s amb shells) (hp : s.procs[pid]? = some p) {stage : Stage}
    (hpc : p.pc = .child stage) (hc : p.commands[p.i]? = some c) (ht : Replaces s t pid p')
    (hpc' : p'.pc = .returned) (hpending : p'.pending = p.pending)
    (hcommands : p'.commands = p.commands) (hother : ∀ x, x ≠ pid → amb' x = amb x)
    (hown : amb' pid = amb pid ∨
      ∃ b status, c.builtin = some b ∧ b.call chdir c (amb pid) = .ok (status, amb' pid)) :
    Nested chdir t amb' (pid :: shells) := by
  have hmain : p.pc.inMain = false := by rw [hpc]; rfl
  have hnot := h.not_mem hp hmain
  have hne : ∀ y ∈ shells, y ≠ pid := fun y hy heq => hnot (heq ▸ hy)
  obtain ⟨top, below, rfl, hlt, hparent, hamb, r, hr, hwait, hrc⟩ := h.branch pid p stage hp hpc
  have hnewest := (List.pairwise_cons.mp h.sorted).1
  have htop : top ≠ pid := Nat.ne_of_lt hlt
  exact
    { alive := by
        refine List.forall_mem_cons.mpr ⟨⟨p', ht.own⟩, ?_⟩
        intro x hx
        rw [ht.other (hne x hx)]
        exact h.alive x hx
      members := by
        intro x q hq
        obtain ⟨rfl, rfl⟩ | ⟨hx, hq⟩ := ht.origin hq
        · rw [hpc']
          exact iff_of_true rfl List.mem_cons_self
        · rw [h.members x q hq, List.mem_cons (a := x) (b := pid), or_iff_right hx]
      root := h.root
      sorted := by
        apply List.pairwise_cons.mpr
        refine ⟨List.forall_mem_cons.mpr ⟨hlt, ?_⟩, h.sorted⟩
        exact fun x hx => Nat.lt_trans (hnewest x hx) hlt
      chain := by
        apply List.isChain_cons_cons.mpr
        constructor
        · refine ⟨r, c, (ht.other htop).trans hr, hwait, hrc.trans hc, ?_⟩
          rw [hother top htop, ← hamb]
          exact hown
        · apply h.chain.imp_of_mem_imp
          intro x y hx hy habove
          exact habove.frame (ht.other (hne y hy)) (hother x (hne x hx)) (hother y (hne y hy))
      branch := by
        intro x q stage' hq hpcx
        obtain ⟨rfl, rfl⟩ | ⟨hx, hq⟩ := ht.origin hq
        · rw [hpc'] at hpcx
          cases hpcx
        · obtain ⟨top', below', hshells, -, -, -, r', hr', hwait', -⟩ :=
            h.branch x q stage' hq hpcx
          cases hshells
          rw [hr] at hr'
          cases hr'
          rw [hwait] at hwait'
          cases hwait'
          exact absurd rfl hx
      pending := by
        intro x q hq hpend
        have hquiet : q.pending = false := by
          obtain ⟨rfl, rfl⟩ | ⟨-, hq⟩ := ht.origin hq
          · exact hpending.trans (h.quiet hp hmain)
          · exact h.not_pending hp hpc hq
        rw [hquiet] at hpend
        cases hpend
      foreground := by
        apply h.foreground_step ht
        rw [hcommands]
        exact h.foreground _ p hp
      lines := fun cmds hcmds => h.lines cmds (ht.2 _ hcmds) }

/-- `k_exit` ends its process, and a SIGTERM is pending in the newest shell. -/
theorem Nested.kExit (h : Nested chdir s amb shells) (hp : s.procs[pid]? = some p) {stage : Stage}
    (hpc : p.pc = .child stage) :
    Nested chdir ((s.terminate p.parent).put pid p.exit) amb shells := by
  have hmain : p.pc.inMain = false := by rw [hpc]; rfl
  have hnot := h.not_mem hp hmain
  have hne : ∀ y ∈ shells, y ≠ pid := fun y hy heq => hnot (heq ▸ hy)
  obtain ⟨top, below, rfl, hlt, rfl, hamb, r, hr, hwait, hrc⟩ := h.branch pid p stage hp hpc
  have htop : p.parent ≠ pid := Nat.ne_of_lt hlt
  have hsignal : s.terminate p.parent = s.put p.parent { r with pending := true } := by
    rw [Sys.terminate, hr]
    dsimp only
    rw [if_neg (by rw [hwait]; exact nofun)]
  have hchild : (s.put p.parent { r with pending := true }).procs[pid]? = some p := by
    rw [Sys.getElem?_put hr, if_neg (Ne.symm htop), hp]
  have hlook : ∀ {x q}, ((s.terminate p.parent).put pid p.exit).procs[x]? = some q →
      (x = pid ∧ q = p.exit) ∨ (x = p.parent ∧ q = { r with pending := true }) ∨
        (x ≠ pid ∧ s.procs[x]? = some q) := by
    intro x q hq
    rw [hsignal, Sys.getElem?_put hchild, Sys.getElem?_put hr] at hq
    split at hq
    · next hx => exact .inl ⟨hx, (Option.some.inj hq).symm⟩
    split at hq
    · next hx => exact .inr (.inl ⟨hx, (Option.some.inj hq).symm⟩)
    · next hx _ => exact .inr (.inr ⟨hx, hq⟩)
  have hshell : ∀ {y q}, y ∈ p.parent :: below → s.procs[y]? = some q →
      ∃ b, ((s.terminate p.parent).put pid p.exit).procs[y]? = some { q with pending := b } := by
    intro y q hy hq
    rw [hsignal, Sys.getElem?_put hchild, Sys.getElem?_put hr, if_neg (hne y hy)]
    split
    · next heq =>
        subst heq
        rw [hr] at hq
        cases hq
        exact ⟨true, rfl⟩
    · exact ⟨q.pending, hq⟩
  exact
    { alive := by
        intro x hx
        obtain ⟨q, hq⟩ := h.alive x hx
        obtain ⟨b, hb⟩ := hshell hx hq
        exact ⟨_, hb⟩
      members := by
        intro x q hq
        obtain ⟨rfl, rfl⟩ | ⟨rfl, rfl⟩ | ⟨-, hq⟩ := hlook hq
        · exact iff_of_false Bool.false_ne_true hnot
        · exact h.members p.parent r hr
        · exact h.members x q hq
      root := h.root
      sorted := h.sorted
      chain := by
        apply h.chain.imp_of_mem_imp
        rintro x y - hy ⟨q, c, hq, hrest⟩
        obtain ⟨b, hb⟩ := hshell hy hq
        exact ⟨_, c, hb, hrest⟩
      branch := by
        intro x q stage' hq hpcx
        obtain ⟨rfl, rfl⟩ | ⟨rfl, rfl⟩ | ⟨hx, hq⟩ := hlook hq
        · cases hpcx
        · rw [hwait] at hpcx
          cases hpcx
        · obtain ⟨top', below', hshells, -, -, -, r', hr', hwait', -⟩ :=
            h.branch x q stage' hq hpcx
          cases hshells
          rw [hr] at hr'
          cases hr'
          rw [hwait] at hwait'
          cases hwait'
          exact absurd rfl hx
      pending := by
        intro x q hq hpend
        obtain ⟨rfl, rfl⟩ | ⟨rfl, rfl⟩ | ⟨-, hq⟩ := hlook hq
        · have hquiet : p.pending = true := hpend
          rw [h.quiet hp hmain] at hquiet
          cases hquiet
        · refine ⟨pid, below, rfl, hwait, ?_⟩
          rw [hsignal, Sys.getElem?_put hchild, if_pos rfl]
          rfl
        · rw [h.not_pending hp hpc hq] at hpend
          cases hpend
      foreground := by
        intro x q hq
        obtain ⟨rfl, rfl⟩ | ⟨rfl, rfl⟩ | ⟨-, hq⟩ := hlook hq
        · exact h.foreground _ p hp
        · exact h.foreground p.parent r hr
        · exact h.foreground x q hq
      lines := by
        rw [hsignal]
        exact h.lines }

/-- The newest shell forks a child and waits for it. -/
theorem Nested.fork (h : Nested chdir s amb shells) (hp : s.procs[pid]? = some p)
    (hpc : p.pc = .forkExec) (hc : p.commands[p.i]? = some c) (hpending : p.pending = false)
    (hown : amb' s.procs.length = amb pid) (hother : ∀ x, x < s.procs.length → amb' x = amb x) :
    Nested chdir (s.fork pid p c) amb' shells := by
  have hmain : p.pc.inMain = true := by rw [hpc]; rfl
  have hwaits : ∀ (x : Nat) (q : Proc), p.pc = .waiting x → s.procs[x]? = some q →
      q.pc = .exited := by
    intro x q hwait
    rw [hpc] at hwait
    cases hwait
  obtain ⟨⟨below, rfl⟩, hbranch⟩ := h.newest hp hmain hwaits
  have hnewest := (List.pairwise_cons.mp h.sorted).1
  have hbg : c.bg = false := h.foreground pid p hp c (List.mem_of_getElem? hc)
  have hlt : ∀ {x q}, s.procs[x]? = some q → x < s.procs.length :=
    fun hq => (List.getElem?_eq_some_iff.mp hq).1
  have hlook : ∀ x, (s.fork pid p c).procs[x]? =
      if x = pid then some (p.goto (.waiting s.procs.length))
      else if x = s.procs.length then some (p.forked pid) else s.procs[x]? := by
    intro x
    rw [Sys.getElem?_fork hp, hbg]
    rfl
  have horigin : ∀ {x q}, (s.fork pid p c).procs[x]? = some q →
      (x = pid ∧ q = p.goto (.waiting s.procs.length)) ∨
        (x = s.procs.length ∧ q = p.forked pid) ∨ (x ≠ pid ∧ s.procs[x]? = some q) := by
    intro x q hq
    rw [hlook] at hq
    split at hq
    · next hx => exact .inl ⟨hx, (Option.some.inj hq).symm⟩
    split at hq
    · next hx => exact .inr (.inl ⟨hx, (Option.some.inj hq).symm⟩)
    · next hx _ => exact .inr (.inr ⟨hx, hq⟩)
  have hnew : s.procs.length ∉ pid :: below := by
    intro hmem
    obtain ⟨q, hq⟩ := h.alive _ hmem
    exact Nat.lt_irrefl _ (hlt hq)
  have hkeep : ∀ y ∈ below, (s.fork pid p c).procs[y]? = s.procs[y]? := by
    intro y hy
    have hne : y ≠ pid := Nat.ne_of_lt (hnewest y hy)
    rw [hlook, if_neg hne, if_neg]
    rintro rfl
    exact hnew (List.mem_cons_of_mem pid hy)
  have hold : ∀ x ∈ pid :: below, amb' x = amb x := by
    intro x hx
    obtain ⟨q, hq⟩ := h.alive x hx
    exact hother x (hlt hq)
  exact
    { alive := by
        refine List.forall_mem_cons.mpr ⟨⟨p.goto (.waiting s.procs.length), ?_⟩, ?_⟩
        · rw [hlook, if_pos rfl]
        · intro x hx
          rw [hkeep x hx]
          exact h.alive x (List.mem_cons_of_mem pid hx)
      members := by
        intro x q hq
        obtain ⟨rfl, rfl⟩ | ⟨rfl, rfl⟩ | ⟨-, hq⟩ := horigin hq
        · exact iff_of_true rfl List.mem_cons_self
        · exact iff_of_false Bool.false_ne_true hnew
        · exact h.members x q hq
      root := h.root
      sorted := h.sorted
      chain := by
        apply h.chain.imp_of_mem_tail_imp
        intro x y hx hy habove
        exact habove.frame (hkeep y hy) (hold x hx) (hold y (List.mem_cons_of_mem pid hy))
      branch := by
        intro x q stage hq hpcx
        obtain ⟨rfl, rfl⟩ | ⟨rfl, rfl⟩ | ⟨-, hq⟩ := horigin hq
        · cases hpcx
        · refine ⟨pid, below, rfl, hlt hp, rfl, ?_, p.goto (.waiting s.procs.length), ?_, rfl, rfl⟩
          · rw [hown, hold pid List.mem_cons_self]
          · rw [hlook, if_pos rfl]
        · exact absurd hpcx (hbranch x q stage hq)
      pending := by
        intro x q hq hpend
        obtain ⟨rfl, rfl⟩ | ⟨rfl, rfl⟩ | ⟨hx, hq⟩ := horigin hq
        · have hquiet : p.pending = true := hpend
          rw [hpending] at hquiet
          cases hquiet
        · cases hpend
        · obtain ⟨child, below', hshells, -⟩ := h.pending x q hq hpend
          cases hshells
          exact absurd rfl hx
      foreground := by
        intro x q hq
        obtain ⟨rfl, rfl⟩ | ⟨rfl, rfl⟩ | ⟨-, hq⟩ := horigin hq
        · exact h.foreground _ p hp
        · exact h.foreground _ p hp
        · exact h.foreground x q hq
      lines := h.lines }

end SyssoftLabs.Lab4
