import SyssoftLabs.Framework.Transition

/-!
# The modes of the terminal

The shell reads a line with the terminal in a mode of its own and gives the old settings back before
it runs the commands. It ends in `goodnight`, which is called for `^D`, after an error, and by the
handler of `SIGTERM` at any moment; or it dies of a signal. The handler is there for the first
`SIGTERM` only: the sources are compiled as C89, with the `signal` of System V, and the second one
kills. `tcgetattr` and `tcsetattr` succeed. Other programs change the settings only while the shell
runs commands.
-/

namespace SyssoftLabs.Lab4

open SyssoftLabs.Framework

/-- `struct termios`; `Rest` is the type of the settings that the shell does not touch. -/
structure Termios (Rest : Type) where
  icanon : Bool
  echo : Bool
  isig : Bool
  vmin : Nat
  vtime : Nat
  rest : Rest
deriving DecidableEq, Repr

variable {Rest : Type}

/-- The settings under which lines are read. -/
def Termios.raw (tty : Termios Rest) : Termios Rest :=
  { tty with icanon := false, echo := false, isig := false, vmin := 1, vtime := 0 }

/-- The settings of the terminal, and the static variables of `io.c`. -/
structure Term (Rest : Type) where
  tty : Termios Rest
  savetty : Termios Rest
  initialized : Bool
deriving DecidableEq, Repr

/-! ## The functions -/

/-- The steps of `init_term`. -/
inductive InitPc
  | test
  | isatty
  | get
  | set
  | flag
deriving DecidableEq, Repr

/-- The steps of `reset_term`. -/
inductive ResetPc
  | test
  | set
  | flag
deriving DecidableEq, Repr

/-- The steps of `goodnight`. -/
inductive NightPc
  | wait
  | reset (pc : ResetPc)
  | exit
deriving DecidableEq, Repr

namespace Term

/-- A step of `init_term`; `none` where it returns. -/
def initTerm (s : Term Rest) : InitPc → Term Rest × Option InitPc
  | .test => (s, if s.initialized then none else some .isatty)
  | .isatty => (s, some .get)
  | .get => ({ s with savetty := s.tty }, some .set)
  | .set => ({ s with tty := s.savetty.raw }, some .flag)
  | .flag => ({ s with initialized := true }, none)

def resetTerm (s : Term Rest) : ResetPc → Term Rest × Option ResetPc
  | .test => (s, if s.initialized then some .set else none)
  | .set => ({ s with tty := s.savetty }, some .flag)
  | .flag => ({ s with initialized := false }, none)

/-- A step of `goodnight`; `none` where it calls `_exit`. -/
def goodnight (s : Term Rest) : NightPc → Term Rest × Option NightPc
  | .wait => (s, some (.reset .test))
  | .reset pc =>
      let (s, next) := s.resetTerm pc
      (s, some (next.elim .exit .reset))
  | .exit => (s, none)

end Term

/-! ## The shell -/

inductive TermPc
  /-- In `init_term`, called by `goodmorning` or in the loop. -/
  | init (morning : Bool) (pc : InitPc)
  /-- At the start of a round of the loop. -/
  | top
  /-- In `get_line`. -/
  | line
  | reset (pc : ResetPc)
  | commands
  | night (pc : NightPc)
deriving DecidableEq, Repr

structure TermShell (Rest : Type) where
  term : Term Rest
  main : TermPc
  /-- Where the handler of `SIGTERM` is in `goodnight`, once it is called. -/
  handler : Option NightPc
  exited : Bool
  /-- A signal has ended it, and not `_exit`. -/
  killed : Bool
  /-- The settings that the last other program has left. -/
  left : Termios Rest
deriving DecidableEq, Repr

inductive TermStep (Rest : Type)
  | main
  /-- `main` calls `goodnight`. -/
  | quit
  | sigterm
  /-- Another signal that kills the shell. -/
  | kill
  | handler
  /-- Another program changes the settings. -/
  | program (tty : Termios Rest)
deriving DecidableEq, Repr

namespace TermShell

/-- `savetty` is zeroed memory, whatever settings this makes. -/
def start (tty zeroed : Termios Rest) : TermShell Rest :=
  ⟨⟨tty, zeroed, false⟩, .init true .test, none, false, false, tty⟩

/-- A step of `main`. -/
def stepMain (s : TermShell Rest) : TermShell Rest :=
  match s.main with
  | .init morning pc =>
      let (term, next) := s.term.initTerm pc
      { s with
        term := term, main := next.elim (if morning then .top else .line) (.init morning) }
  | .top => { s with main := .init false .test }
  | .line => { s with main := .reset .test }
  | .reset pc =>
      let (term, next) := s.term.resetTerm pc
      { s with term := term, main := next.elim .commands .reset }
  | .commands => { s with main := .top }
  | .night pc =>
      let (term, next) := s.term.goodnight pc
      next.elim { s with term := term, exited := true } fun pc =>
        { s with term := term, main := .night pc }

/-- Where `main` calls `error` with an exit, or reads `^D`. -/
def mayQuit : TermPc → Bool
  | .init _ .isatty | .top | .line | .commands => true
  | _ => false

def step (s : TermShell Rest) : TermStep Rest → Option (TermShell Rest)
  | .main => if s.exited = false ∧ s.handler = none then some s.stepMain else none
  | .quit =>
      if s.exited = false ∧ s.handler = none ∧ mayQuit s.main then
        some { s with main := .night .wait }
      else none
  | .sigterm =>
      if s.exited then none
      else
        match s.handler with
        | none => some { s with handler := some .wait }
        | some _ => some { s with exited := true, killed := true }
  | .kill => if s.exited then none else some { s with exited := true, killed := true }
  | .handler =>
      match s.handler with
      | none => none
      | some pc =>
          if s.exited then none
          else
            let (term, next) := s.term.goodnight pc
            some (next.elim { s with term := term, exited := true } fun pc =>
              { s with term := term, handler := some pc })
  | .program tty =>
      if s.exited = false ∧ s.main = .commands then
        some { s with term := { s.term with tty := tty }, left := tty }
      else none

end TermShell

/-! ## What the settings are -/

namespace Term

/-- The settings are those that the last program has left. -/
def Cooked (left : Termios Rest) (s : Term Rest) : Prop :=
  s.initialized = false ∧ s.tty = left

/-- The settings are those for reading a line, and the others are saved. -/
def Raw (left : Termios Rest) (s : Term Rest) : Prop :=
  s.initialized = true ∧ s.tty = left.raw ∧ s.savetty = left

/-- The saved settings are back, but `term_initialized` is not reset. -/
def Restored (left : Termios Rest) (s : Term Rest) : Prop :=
  s.initialized = true ∧ s.tty = left ∧ s.savetty = left

/-- The settings are those for reading a line, but `term_initialized` is not set. -/
def Unnoted (left : Termios Rest) (s : Term Rest) : Prop :=
  s.initialized = false ∧ s.tty = left.raw

/-- What holds at a step of `goodnight`. -/
def AtNight (left : Termios Rest) (s : Term Rest) : NightPc → Prop
  | .wait | .reset .test => s.Cooked left ∨ s.Raw left ∨ s.Restored left
  | .reset .set => s.Raw left ∨ s.Restored left
  | .reset .flag => s.Restored left
  | .exit => s.Cooked left

/-- The same when `goodnight` has come between the change of the settings and that of the flag. -/
def AtNightUnnoted (left : Termios Rest) (s : Term Rest) : NightPc → Prop
  | .wait | .reset .test | .exit => s.Unnoted left
  | .reset .set | .reset .flag => False

variable {left : Termios Rest} {s : Term Rest} {pc next : NightPc}

private theorem AtNight.goodnight (h : s.AtNight left pc) (hnext : (s.goodnight pc).2 = some next) :
    (s.goodnight pc).1.AtNight left next := by
  cases pc with
  | wait =>
      cases hnext
      exact h
  | exit => cases hnext
  | reset r =>
      cases r with
      | test =>
          obtain hcooked | hraw | hrestored := h
          · simp only [Term.goodnight, resetTerm, hcooked.1] at hnext ⊢
            cases hnext
            exact hcooked
          · simp only [Term.goodnight, resetTerm, hraw.1] at hnext ⊢
            cases hnext
            exact Or.inl hraw
          · simp only [Term.goodnight, resetTerm, hrestored.1] at hnext ⊢
            cases hnext
            exact Or.inr hrestored
      | set =>
          cases hnext
          obtain ⟨hinit, -, hsaved⟩ | ⟨hinit, -, hsaved⟩ := h
          · exact ⟨hinit, hsaved, hsaved⟩
          · exact ⟨hinit, hsaved, hsaved⟩
      | flag =>
          cases hnext
          exact ⟨rfl, h.2.1⟩

private theorem AtNightUnnoted.goodnight (h : s.AtNightUnnoted left pc)
    (hnext : (s.goodnight pc).2 = some next) :
    (s.goodnight pc).1.AtNightUnnoted left next := by
  cases pc with
  | wait =>
      cases hnext
      exact h
  | exit => cases hnext
  | reset r =>
      cases r with
      | test =>
          have hunnoted : s.Unnoted left := h
          simp only [Term.goodnight, resetTerm, hunnoted.1] at hnext ⊢
          cases hnext
          exact hunnoted
      | set => exact h.elim
      | flag => exact h.elim

private theorem AtNight.not_resetting (h : s.AtNight left pc)
    (hinit : s.initialized = false) : pc = .wait ∨ pc = .reset .test ∨ pc = .exit := by
  cases pc with
  | wait => exact Or.inl rfl
  | exit => exact Or.inr (Or.inr rfl)
  | reset r =>
      cases r with
      | test => exact Or.inr (Or.inl rfl)
      | set =>
          obtain hraw | hrestored := h
          · cases hinit.symm.trans hraw.1
          · cases hinit.symm.trans hrestored.1
      | flag => cases hinit.symm.trans h.1

private theorem AtNight.of_cooked (h : s.Cooked left)
    (hpc : pc = .wait ∨ pc = .reset .test ∨ pc = .exit) : s.AtNight left pc := by
  obtain rfl | rfl | rfl := hpc
  · exact Or.inl h
  · exact Or.inl h
  · exact h

private theorem Cooked.goodnight (h : s.Cooked left)
    (hpc : pc = .wait ∨ pc = .reset .test ∨ pc = .exit) : (s.goodnight pc).1.Cooked left := by
  obtain rfl | rfl | rfl := hpc
  · exact h
  · exact h
  · exact h

private theorem goodnight_none (h : (s.goodnight pc).2 = none) :
    pc = .exit ∧ (s.goodnight pc).1 = s := by
  cases pc with
  | wait => cases h
  | reset r => cases h
  | exit => exact ⟨rfl, rfl⟩

end Term

namespace TermShell

open Term

/-- The terminal is set, and the flag is not. -/
def unnoted : TermPc → Bool
  | .init _ .flag => true
  | _ => false

/-- What holds at a step of `main`. -/
def AtMain (left : Termios Rest) (s : Term Rest) : TermPc → Prop
  | .init _ .test | .top => s.Cooked left ∨ s.Raw left
  | .init _ .isatty | .init _ .get | .commands => s.Cooked left
  | .init _ .set => s.Cooked left ∧ s.savetty = left
  | .init _ .flag => s.Unnoted left ∧ s.savetty = left
  | .line | .reset .test | .reset .set => s.Raw left
  | .reset .flag => s.Restored left
  | .night pc => s.AtNight left pc

structure Sound (s : TermShell Rest) : Prop where
  main : s.handler = none → AtMain s.left s.term s.main
  handler : ∀ pc, s.handler = some pc →
    if unnoted s.main then s.term.AtNightUnnoted s.left pc else s.term.AtNight s.left pc
  commands : s.main = .commands → s.term.Cooked s.left
  exited : s.exited = true →
    s.killed = true ∨ s.handler = none ∧ s.main = .night .exit ∨ s.handler = some .exit

variable {s t : TermShell Rest}

theorem Sound.start (tty zeroed : Termios Rest) : Sound (start tty zeroed) where
  main _ := Or.inl ⟨rfl, rfl⟩
  handler pc h := by cases h
  commands h := by cases h
  exited h := by cases h

private theorem AtMain.interrupted {left : Termios Rest} {x : Term Rest} {pc : TermPc}
    (h : AtMain left x pc) :
    if unnoted pc then x.AtNightUnnoted left .wait else x.AtNight left .wait := by
  cases pc with
  | init morning pc =>
      cases pc with
      | test =>
          obtain hcooked | hraw := h
          · exact Or.inl hcooked
          · exact Or.inr (Or.inl hraw)
      | isatty => exact Or.inl h
      | get => exact Or.inl h
      | set => exact Or.inl h.1
      | flag => exact h.1
  | top =>
      obtain hcooked | hraw := h
      · exact Or.inl hcooked
      · exact Or.inr (Or.inl hraw)
  | line => exact Or.inr (Or.inl h)
  | reset pc =>
      cases pc with
      | test => exact Or.inr (Or.inl h)
      | set => exact Or.inr (Or.inl h)
      | flag => exact Or.inr (Or.inr h)
  | commands => exact Or.inl h
  | night pc =>
      cases pc with
      | wait => exact h
      | exit => exact Or.inl h
      | reset pc =>
          cases pc with
          | test => exact h
          | set => exact Or.inr h
          | flag => exact Or.inr (Or.inr h)

/-- A step of `main` leads to what holds at the next one. -/
theorem AtMain.stepMain (h : AtMain s.left s.term s.main) :
    AtMain s.stepMain.left s.stepMain.term s.stepMain.main := by
  obtain ⟨term, main, handler, exited, killed, left⟩ := s
  cases main with
  | init morning pc =>
      cases pc with
      | test =>
          obtain hcooked | hraw := h
          · have hinit : term.initialized = false := hcooked.1
            simp only [TermShell.stepMain, initTerm, hinit]
            exact hcooked
          · have hinit : term.initialized = true := hraw.1
            simp only [TermShell.stepMain, initTerm, hinit]
            cases morning with
            | true => exact Or.inr hraw
            | false => exact hraw
      | isatty => exact h
      | get => exact ⟨h, h.2⟩
      | set => exact ⟨⟨h.1.1, congrArg Termios.raw h.2⟩, h.2⟩
      | flag =>
          have hraw : Term.Raw left { term with initialized := true } := ⟨rfl, h.1.2, h.2⟩
          cases morning with
          | true => exact Or.inr hraw
          | false => exact hraw
  | top => exact h
  | line => exact h
  | reset pc =>
      cases pc with
      | test =>
          have hinit : term.initialized = true := h.1
          simp only [TermShell.stepMain, resetTerm, hinit]
          exact h
      | set => exact ⟨h.1, h.2.2, h.2.2⟩
      | flag => exact ⟨rfl, h.2.1⟩
  | commands => exact Or.inl h
  | night pc =>
      cases hnext : (term.goodnight pc).2 with
      | none =>
          obtain ⟨rfl, hsame⟩ := goodnight_none hnext
          exact h
      | some next =>
          have hnight := AtNight.goodnight h hnext
          simp only [TermShell.stepMain, hnext]
          exact hnight

private theorem noted_of_mayQuit {pc : TermPc} (h : mayQuit pc = true) : unnoted pc = false := by
  cases pc with
  | init morning pc =>
      cases pc with
      | flag => cases h
      | test => rfl
      | isatty => rfl
      | get => rfl
      | set => rfl
  | top => rfl
  | line => rfl
  | reset pc => cases h
  | commands => rfl
  | night pc => cases h

private theorem stepMain_handler : s.stepMain.handler = s.handler := by
  obtain ⟨term, main, handler, exited, killed, left⟩ := s
  cases main with
  | night pc => cases pc <;> rfl
  | init morning pc => rfl
  | top => rfl
  | line => rfl
  | reset pc => rfl
  | commands => rfl

private theorem exited_of_stepMain (hexited : s.exited = false) (h : s.stepMain.exited = true) :
    s.stepMain.main = .night .exit := by
  obtain ⟨term, main, handler, exited, killed, left⟩ := s
  have hno : exited ≠ true := by
    rw [show exited = false from hexited]
    exact Bool.false_ne_true
  cases main with
  | night pc =>
      cases pc with
      | wait => exact absurd h hno
      | reset pc => exact absurd h hno
      | exit => rfl
  | init morning pc => exact absurd h hno
  | top => exact absurd h hno
  | line => exact absurd h hno
  | reset pc => exact absurd h hno
  | commands => exact absurd h hno

theorem Sound.stepMain (hs : s.Sound) (hexited : s.exited = false) (hhandler : s.handler = none) :
    s.stepMain.Sound := by
  have hmain := (hs.main hhandler).stepMain
  have hnone : s.stepMain.handler = none := stepMain_handler.trans hhandler
  constructor
  · intro _
    exact hmain
  · intro pc hpc
    cases hnone.symm.trans hpc
  · intro hpc
    rw [hpc] at hmain
    exact hmain
  · intro he
    exact Or.inr (Or.inl ⟨hnone, exited_of_stepMain hexited he⟩)

theorem Sound.stepHandler (hs : s.Sound) {pc next : NightPc} (hpc : s.handler = some pc)
    (hexited : s.exited = false) (hnext : (s.term.goodnight pc).2 = some next) :
    Sound { s with term := (s.term.goodnight pc).1, handler := some next } := by
  have hnight := hs.handler pc hpc
  constructor
  · intro h
    cases h
  · intro p hp
    cases hp
    dsimp only
    split at hnight
    · next hmain =>
        rw [if_pos hmain]
        exact hnight.goodnight hnext
    · next hmain =>
        rw [if_neg hmain]
        exact hnight.goodnight hnext
  · intro hmain
    rw [hmain] at hnight
    exact (hs.commands hmain).goodnight (AtNight.not_resetting hnight (hs.commands hmain).1)
  · intro he
    cases hexited.symm.trans he

theorem Sound.program (hs : s.Sound) (hexited : s.exited = false) (hmain : s.main = .commands)
    (tty : Termios Rest) :
    Sound { s with term := { s.term with tty := tty }, left := tty } := by
  have hcooked : Cooked tty { s.term with tty := tty } := ⟨(hs.commands hmain).1, rfl⟩
  constructor
  · intro _
    dsimp only
    rw [hmain]
    exact hcooked
  · intro pc hpc
    have hnight := hs.handler pc hpc
    dsimp only
    rw [hmain] at hnight ⊢
    exact AtNight.of_cooked hcooked (AtNight.not_resetting hnight (hs.commands hmain).1)
  · intro _
    exact hcooked
  · intro he
    cases hexited.symm.trans he

theorem Sound.killed (hs : s.Sound) : Sound { s with exited := true, killed := true } :=
  ⟨hs.main, hs.handler, hs.commands, fun _ => Or.inl rfl⟩

theorem Sound.step {a : TermStep Rest} (hs : s.Sound) (h : s.step a = some t) : t.Sound := by
  cases a with
  | main =>
      rw [TermShell.step] at h
      split at h
      · next hok =>
          cases h
          exact hs.stepMain hok.1 hok.2
      · cases h
  | quit =>
      rw [TermShell.step] at h
      split at h
      · next hok =>
          obtain ⟨hexited, hhandler, hquit⟩ := hok
          cases h
          have hnight := (hs.main hhandler).interrupted
          rw [noted_of_mayQuit hquit] at hnight
          constructor
          · intro _
            exact hnight
          · intro pc hpc
            cases hhandler.symm.trans hpc
          · intro hpc
            cases hpc
          · intro he
            cases hexited.symm.trans he
      · cases h
  | sigterm =>
      rw [TermShell.step] at h
      split at h
      · cases h
      · next hexited =>
          split at h
          · next hhandler =>
              cases h
              constructor
              · intro hnone
                cases hnone
              · intro pc hpc
                cases hpc
                exact (hs.main hhandler).interrupted
              · exact hs.commands
              · intro he
                exact absurd he hexited
          · cases h
            exact hs.killed
  | kill =>
      rw [TermShell.step] at h
      split at h
      · cases h
      · cases h
        exact hs.killed
  | handler =>
      rw [TermShell.step] at h
      split at h
      · cases h
      · next pc hpc =>
          split at h
          · cases h
          · next hexited =>
              rw [Bool.not_eq_true] at hexited
              cases hnext : (s.term.goodnight pc).2 with
              | some next =>
                  simp only [hnext] at h
                  cases h
                  exact hs.stepHandler hpc hexited hnext
              | none =>
                  obtain ⟨rfl, hsame⟩ := goodnight_none hnext
                  simp only [hnext, hsame] at h
                  cases h
                  exact ⟨hs.main, hs.handler, hs.commands, fun _ => Or.inr (Or.inr hpc)⟩
  | program tty =>
      rw [TermShell.step] at h
      split at h
      · next hok =>
          cases h
          exact hs.program hok.1 hok.2 tty
      · cases h

theorem Sound.of_reachable {tty zeroed : Termios Rest}
    (h : Reachable TermShell.step (TermShell.start tty zeroed) s) : s.Sound :=
  h.invariant (fun _ _ _ hs hstep => Sound.step hs hstep) (Sound.start tty zeroed)

/-- The settings are always those that the last program has left or those for reading a line. -/
theorem Sound.tty_cases (hs : s.Sound) : s.term.tty = s.left ∨ s.term.tty = s.left.raw := by
  have hnight {pc : NightPc} (h : s.term.AtNight s.left pc) :
      s.term.tty = s.left ∨ s.term.tty = s.left.raw := by
    cases pc with
    | wait =>
        obtain hcooked | hraw | hrestored := h
        · exact Or.inl hcooked.2
        · exact Or.inr hraw.2.1
        · exact Or.inl hrestored.2.1
    | exit => exact Or.inl h.2
    | reset r =>
        cases r with
        | test =>
            obtain hcooked | hraw | hrestored := h
            · exact Or.inl hcooked.2
            · exact Or.inr hraw.2.1
            · exact Or.inl hrestored.2.1
        | set =>
            obtain hraw | hrestored := h
            · exact Or.inr hraw.2.1
            · exact Or.inl hrestored.2.1
        | flag => exact Or.inl h.2.1
  have hunnoted {pc : NightPc} (h : s.term.AtNightUnnoted s.left pc) : s.term.tty = s.left.raw := by
    cases pc with
    | wait => exact h.2
    | exit => exact h.2
    | reset r =>
        cases r with
        | test => exact h.2
        | set => exact h.elim
        | flag => exact h.elim
  have hcase : ∃ pc, if unnoted s.main then s.term.AtNightUnnoted s.left pc
      else s.term.AtNight s.left pc := by
    cases hhandler : s.handler with
    | none => exact ⟨.wait, (hs.main hhandler).interrupted⟩
    | some pc => exact ⟨pc, hs.handler pc hhandler⟩
  obtain ⟨pc, hpc⟩ := hcase
  split at hpc
  · exact Or.inr (hunnoted hpc)
  · exact hnight hpc

/-- The shell gives the terminal back as the last program left it, wherever `SIGTERM` comes, except
when it comes between the change of the settings and that of the flag: then the terminal stays as
it is for reading a line. A shell that dies of a signal leaves it in one of the two modes. While a
line is read it is as for that, and while commands run it is as they leave it. -/
theorem terminal_given_back {tty zeroed : Termios Rest}
    (h : Reachable TermShell.step (TermShell.start tty zeroed) s) :
    (s.exited = true → s.killed = false →
        s.term.tty = if unnoted s.main then s.left.raw else s.left)
      ∧ (s.term.tty = s.left ∨ s.term.tty = s.left.raw)
      ∧ (s.main = .line → s.handler = none → s.term.tty = s.left.raw)
      ∧ (s.main = .commands → s.term.tty = s.left) := by
  have hs := Sound.of_reachable h
  refine ⟨fun he hdied => ?_, hs.tty_cases, fun hline hnone => ?_,
    fun hcommands => (hs.commands hcommands).2⟩
  · obtain hkilled | ⟨hnone, hmain⟩ | hhandler := hs.exited he
    · cases hdied.symm.trans hkilled
    · have hcooked := hs.main hnone
      rw [hmain] at hcooked ⊢
      exact hcooked.2
    · have hnight := hs.handler .exit hhandler
      split at hnight
      · next hmain =>
          rw [if_pos hmain]
          exact hnight.2
      · next hmain =>
          rw [if_neg hmain]
          exact hnight.2
  · have hraw := hs.main hnone
    rw [hline] at hraw
    exact hraw.2.1

/-- A shell whose `SIGTERM` comes before `term_initialized` is set leaves the terminal without
echo. -/
theorem terminal_given_back_unnoted :
    let tty : Termios Unit := ⟨true, true, true, 4, 0, ()⟩
    let s : TermShell Unit :=
      ⟨⟨tty.raw, tty, false⟩, .init true .flag, some .exit, true, false, tty⟩
    (s.exited = true → s.killed = false →
        s.term.tty = if unnoted s.main then s.left.raw else s.left)
      ∧ (s.term.tty = s.left ∨ s.term.tty = s.left.raw)
      ∧ (s.main = .line → s.handler = none → s.term.tty = s.left.raw)
      ∧ (s.main = .commands → s.term.tty = s.left) :=
  @terminal_given_back Unit _ ⟨true, true, true, 4, 0, ()⟩ ⟨false, false, false, 0, 0, ()⟩
    ⟨[.main, .main, .main, .main, .sigterm, .handler, .handler, .handler], by decide⟩

/-- So does one that a second `SIGTERM` finds in the `waitpid` of `goodnight`. -/
example :
    let tty : Termios Unit := ⟨true, true, true, 4, 0, ()⟩
    ∃ s : TermShell Unit, run TermShell.step
        (TermShell.start tty ⟨false, false, false, 0, 0, ()⟩)
        [.main, .main, .main, .main, .main, .main, .main, .sigterm, .sigterm] = some s ∧
      s.killed = true ∧ s.left = tty ∧ s.term.tty = tty.raw :=
  ⟨_, rfl, rfl, rfl, rfl⟩

end TermShell

end SyssoftLabs.Lab4
