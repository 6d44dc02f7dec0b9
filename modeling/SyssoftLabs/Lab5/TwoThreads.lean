import SyssoftLabs.Framework.Transition
import SyssoftLabs.Lab5.Sections

/-!
# A round with two threads

`multithread` starts a thread for each transformation of the string, waits for both of them and
prints the string, round after round. A semaphore with the value 1 guards the sections.
-/

namespace SyssoftLabs.Lab5

open SyssoftLabs.Framework

/-! ## The lock -/

/-- `enum sync_type`. -/
inductive SyncType
  | sem
  | ipcSem
  | none
deriving DecidableEq, Repr

/-- `sem_wait`; `none` while it waits. -/
def semWait (value : Nat) : Option Nat := if 0 < value then some (value - 1) else none

def semPost (value : Nat) : Nat := value + 1

/-- `semop` with one operation and no flags; `none` while it waits. -/
def semop (op : Int) (value : Nat) : Option Nat :=
  if op < 0 then if op.natAbs ≤ value then some (value - op.natAbs) else none
  else if op = 0 then if value = 0 then some value else none
  else some (value + op.natAbs)

namespace SyncType

/-- `init_sync`, with the value the static variable had. -/
def init : SyncType → Nat → Nat
  | .sem, _ => 1
  | .ipcSem, _ => 1
  | .none, value => value

def lock : SyncType → Nat → Option Nat
  | .sem, value => semWait value
  | .ipcSem, value => semop (-1) value
  | .none, value => some value

def unlock : SyncType → Nat → Option Nat
  | .sem, value => some (semPost value)
  | .ipcSem, value => semop 1 value
  | .none, value => some value

variable {sync : SyncType} {value left : Nat}

private theorem init_eq (h : sync ≠ .none) (value : Nat) : sync.init value = 1 := by
  cases sync with
  | sem => rfl
  | ipcSem => rfl
  | none => exact absurd rfl h

theorem lock_eq_some (h : sync ≠ .none) : sync.lock value = some left ↔ value = left + 1 := by
  cases sync with
  | sem =>
      simp only [lock, semWait]
      split
      · rw [Option.some_inj]
        omega
      · simp
        omega
  | ipcSem =>
      simp only [lock, semop]
      simp
      omega
  | none => exact absurd rfl h

private theorem unlock_eq (h : sync ≠ .none) (value : Nat) :
    sync.unlock value = some (value + 1) := by
  cases sync with
  | sem => rfl
  | ipcSem => rfl
  | none => exact absurd rfl h

end SyncType

/-! ## A thread -/

inductive Thread (Local : Type)
  | idle
  | waiting
  | inside (l : Local)
  | finished
  | joined
deriving DecidableEq, Repr

namespace Thread

variable {Local : Type} {len : Nat}

/-- A step of the thread, on its state, the value of the semaphore and the string. -/
def step (sync : SyncType) (body : Section (Toy len) Local) :
    Thread Local → Nat → Toy len → Option (Thread Local × Nat × Toy len)
  | .waiting, value, toy => (sync.lock value).map fun value => (.inside body.start, value, toy)
  | .inside l, value, toy =>
      match body.step l toy with
      | some (l, toy) => some (.inside l, value, toy)
      | none => (sync.unlock value).map fun value => (.finished, value, toy)
  | _, _, _ => none

/-- What the thread still does to the string. -/
def rest (body : Section (Toy len) Local) : Thread Local → Toy len → Toy len
  | .idle, toy => body.effect toy
  | .waiting, toy => body.effect toy
  | .inside l, toy => body.rest l toy
  | .finished, toy => toy
  | .joined, toy => toy

/-- The number of units of the semaphore that the thread holds. -/
def holds : Thread Local → Nat
  | .inside _ => 1
  | _ => 0

end Thread

/-! ## Main -/

/-- Where `main` stands in its loop. -/
inductive Main
  | createReverse
  | createRegister
  | joinReverse
  | joinRegister
  | print
deriving DecidableEq, Repr

structure Rounds (len : Nat) where
  toy : Toy len
  value : Nat
  reverse : Thread (Reversing len)
  register : Thread (Changing len)
  main : Main
  /-- What `puts` wrote, line by line. -/
  printed : List (Toy len)
deriving DecidableEq, Repr

/-- Who takes the next step. -/
inductive Party
  | main
  | reverse
  | register
deriving DecidableEq, Repr

namespace Rounds

variable {len : Nat}

/-- Before the loop, after `init_sync`. -/
def start (sync : SyncType) (value : Nat) (toy : Toy len) : Rounds len :=
  ⟨toy, sync.init value, .idle, .idle, .createReverse, []⟩

def stepMain (s : Rounds len) : Option (Rounds len) :=
  match s.main with
  | .createReverse => some { s with reverse := .waiting, main := .createRegister }
  | .createRegister => some { s with register := .waiting, main := .joinReverse }
  | .joinReverse =>
      match s.reverse with
      | .finished => some { s with reverse := .joined, main := .joinRegister }
      | _ => none
  | .joinRegister =>
      match s.register with
      | .finished => some { s with register := .joined, main := .print }
      | _ => none
  | .print =>
      some { s with
        printed := s.printed ++ [s.toy], reverse := .idle, register := .idle,
        main := .createReverse }

def step (sync : SyncType) (s : Rounds len) : Party → Option (Rounds len)
  | .main => s.stepMain
  | .reverse =>
      (s.reverse.step sync (Lab5.reverse len) s.value s.toy).map fun (thread, value, toy) =>
        { s with reverse := thread, value := value, toy := toy }
  | .register =>
      (s.register.step sync (changeRegister len) s.value s.toy).map fun (thread, value, toy) =>
        { s with register := thread, value := value, toy := toy }

end Rounds

namespace Thread

variable {Local : Type} {len : Nat} {sync : SyncType} {body : Section (Toy len) Local}
  {t t' : Thread Local} {value value' : Nat} {toy toy' : Toy len}

private theorem step_spec (hsync : sync ≠ .none)
    (h : t.step sync body value toy = some (t', value', toy')) :
    t ≠ .idle ∧ t ≠ .joined ∧ value' + t'.holds = value + t.holds ∧ 0 < t.holds + t'.holds ∧
      t'.rest body toy' = t.rest body toy ∧ (t'.holds = 0 → ∀ u, t'.rest body u = u) := by
  cases t with
  | idle => cases h
  | finished => cases h
  | joined => cases h
  | waiting =>
      rw [step, Option.map_eq_some_iff] at h
      obtain ⟨left, hlock, heq⟩ := h
      cases heq
      rw [SyncType.lock_eq_some hsync] at hlock
      exact ⟨by simp, by simp, by simp [holds, hlock], by simp [holds], rfl, by simp [holds]⟩
  | inside l =>
      rw [step] at h
      split at h
      · next hstep =>
          cases h
          exact ⟨by simp, by simp, rfl, by simp [holds], body.rest_step _ _ _ _ hstep,
            by simp [holds]⟩
      · next hstep =>
          rw [SyncType.unlock_eq hsync] at h
          cases h
          exact ⟨by simp, by simp, rfl, by simp [holds], (body.rest_end l toy hstep).symm,
            fun _ _ => rfl⟩

end Thread

namespace Rounds

variable {len : Nat} {sync : SyncType} {s t : Rounds len} {toy : Toy len}

/-- What a round does to the string. -/
def round (toy : Toy len) : Toy len := (changeRegister len).effect ((Lab5.reverse len).effect toy)

/-- Which threads exist, by where `main` stands. -/
def Staged (s : Rounds len) : Prop :=
  match s.main with
  | .createReverse => s.reverse = .idle ∧ s.register = .idle
  | .createRegister => s.register = .idle
  | .joinReverse => True
  | .joinRegister => s.reverse = .joined
  | .print => s.reverse = .joined ∧ s.register = .joined

/-- One unit of the semaphore, in it or with a thread inside its section. The threads complete the
round, a thread inside its section before the other one. -/
structure Keeps (toy : Toy len) (s : Rounds len) : Prop where
  units : s.value + s.reverse.holds + s.register.holds = 1
  staged : s.Staged
  reverseFirst : s.register.holds = 0 →
    s.register.rest (changeRegister len) (s.reverse.rest (Lab5.reverse len) s.toy) =
      round^[s.printed.length + 1] toy
  registerFirst : s.reverse.holds = 0 →
    s.reverse.rest (Lab5.reverse len) (s.register.rest (changeRegister len) s.toy) =
      round^[s.printed.length + 1] toy
  lines : ∀ k line, s.printed[k]? = some line → line = round^[k + 1] toy

theorem Keeps.start (hsync : sync ≠ .none) (value : Nat) (toy : Toy len) :
    Keeps toy (start sync value toy) where
  units := by rw [Rounds.start, SyncType.init_eq hsync]; rfl
  staged := ⟨rfl, rfl⟩
  reverseFirst := fun _ => rfl
  registerFirst := fun _ => reverse_changeRegister toy
  lines := fun k line h => by cases h

theorem Keeps.stepMain (h : Keeps toy s) (hstep : s.stepMain = some t) : Keeps toy t := by
  obtain ⟨hunits, hstaged, hreverse, hregister, hlines⟩ := h
  obtain ⟨string, value, reverse, register, main, printed⟩ := s
  cases main with
  | createReverse =>
      obtain ⟨rfl, rfl⟩ : reverse = .idle ∧ register = .idle := hstaged
      cases hstep
      exact ⟨hunits, rfl, hreverse, hregister, hlines⟩
  | createRegister =>
      obtain rfl : register = .idle := hstaged
      cases hstep
      exact ⟨hunits, trivial, hreverse, hregister, hlines⟩
  | joinReverse =>
      cases reverse with
      | finished =>
          cases hstep
          exact ⟨hunits, rfl, hreverse, hregister, hlines⟩
      | idle => cases hstep
      | waiting => cases hstep
      | inside l => cases hstep
      | joined => cases hstep
  | joinRegister =>
      cases register with
      | finished =>
          cases hstep
          exact ⟨hunits, ⟨hstaged, rfl⟩, hreverse, hregister, hlines⟩
      | idle => cases hstep
      | waiting => cases hstep
      | inside l => cases hstep
      | joined => cases hstep
  | print =>
      obtain ⟨rfl, rfl⟩ : reverse = .joined ∧ register = .joined := hstaged
      have hstring : string = round^[printed.length + 1] toy := hreverse rfl
      have hnext : round string = round^[(printed ++ [string]).length + 1] toy := by
        rw [List.length_append, List.length_singleton, Function.iterate_succ_apply', ← hstring]
      cases hstep
      refine ⟨hunits, ⟨rfl, rfl⟩, fun _ => hnext, fun _ => ?_, fun k line hline => ?_⟩
      · exact (reverse_changeRegister string).trans hnext
      · change (printed ++ [string])[k]? = some line at hline
        rw [List.getElem?_append] at hline
        split at hline
        · exact hlines k line hline
        · next hlast =>
            rw [List.getElem?_singleton] at hline
            split at hline
            · next hk =>
                have heq : k = printed.length := by omega
                cases hline
                rw [heq]
                exact hstring
            · cases hline

/-- A thread that steps is neither idle nor joined, so that `main` stands where it may. -/
theorem Staged.reverse (h : s.Staged) (hidle : s.reverse ≠ .idle) (hjoined : s.reverse ≠ .joined)
    (thread : Thread (Reversing len)) (value : Nat) (toy : Toy len) :
    Staged { s with reverse := thread, value := value, toy := toy } := by
  unfold Staged at h ⊢
  cases hmain : s.main with
  | createReverse =>
      simp only [hmain] at h
      exact absurd h.1 hidle
  | createRegister =>
      simp only [hmain] at h
      exact h
  | joinReverse => exact trivial
  | joinRegister =>
      simp only [hmain] at h
      exact absurd h hjoined
  | print =>
      simp only [hmain] at h
      exact absurd h.1 hjoined

theorem Staged.register (h : s.Staged) (hidle : s.register ≠ .idle)
    (hjoined : s.register ≠ .joined) (thread : Thread (Changing len)) (value : Nat)
    (toy : Toy len) : Staged { s with register := thread, value := value, toy := toy } := by
  unfold Staged at h ⊢
  cases hmain : s.main with
  | createReverse =>
      simp only [hmain] at h
      exact absurd h.2 hidle
  | createRegister =>
      simp only [hmain] at h
      exact absurd h hidle
  | joinReverse => exact trivial
  | joinRegister =>
      simp only [hmain] at h
      exact h
  | print =>
      simp only [hmain] at h
      exact absurd h.2 hjoined

private theorem Keeps.stepReverse (hsync : sync ≠ .none) (h : Keeps toy s)
    (hstep : s.step sync .reverse = some t) : Keeps toy t := by
  rw [step, Option.map_eq_some_iff] at hstep
  obtain ⟨⟨thread, value, string⟩, hthread, rfl⟩ := hstep
  obtain ⟨hidle, hjoined, hvalue, hhold, hrest, hdone⟩ := Thread.step_spec hsync hthread
  have hunits := h.units
  have hother : s.register.holds = 0 := by omega
  have hfirst := h.reverseFirst hother
  rw [← hrest] at hfirst
  refine ⟨?_, h.staged.reverse hidle hjoined thread value string, fun _ => hfirst,
    fun hout => ?_, h.lines⟩
  · change value + thread.holds + s.register.holds = 1
    omega
  · rw [hdone hout] at hfirst ⊢
    exact hfirst

private theorem Keeps.stepRegister (hsync : sync ≠ .none) (h : Keeps toy s)
    (hstep : s.step sync .register = some t) : Keeps toy t := by
  rw [step, Option.map_eq_some_iff] at hstep
  obtain ⟨⟨thread, value, string⟩, hthread, rfl⟩ := hstep
  obtain ⟨hidle, hjoined, hvalue, hhold, hrest, hdone⟩ := Thread.step_spec hsync hthread
  have hunits := h.units
  have hother : s.reverse.holds = 0 := by omega
  have hfirst := h.registerFirst hother
  rw [← hrest] at hfirst
  refine ⟨?_, h.staged.register hidle hjoined thread value string, fun hout => ?_,
    fun _ => hfirst, h.lines⟩
  · change value + s.reverse.holds + thread.holds = 1
    omega
  · rw [hdone hout] at hfirst ⊢
    exact hfirst

theorem Keeps.step (hsync : sync ≠ .none) (h : Keeps toy s) (party : Party)
    (hstep : s.step sync party = some t) : Keeps toy t := by
  cases party with
  | main => exact h.stepMain hstep
  | reverse => exact h.stepReverse hsync hstep
  | register => exact h.stepRegister hsync hstep

theorem keeps_of_reachable (hsync : sync ≠ .none) {value : Nat}
    (h : Reachable (Rounds.step sync) (Rounds.start sync value toy) t) : Keeps toy t :=
  h.invariant (fun _ party _ hs hstep => hs.step hsync party hstep) (Keeps.start hsync value toy)

private theorem round_iterate (h : Letters toy) (n : Nat) :
    round^[n + 1] toy = if n % 2 = 0 then swapped toy else toy := by
  induction n with
  | zero =>
      change (changeRegister len).effect ((Lab5.reverse len).effect toy) = swapped toy
      rw [reverse_effect, h.reverse.changeRegister]
      rfl
  | succ n ih =>
      rw [Function.iterate_succ_apply', ih]
      change (changeRegister len).effect ((Lab5.reverse len).effect _) = _
      by_cases hn : n % 2 = 0
      · have hodd : ¬(n + 1) % 2 = 0 := by omega
        rw [if_pos hn, if_neg hodd, reverse_effect, h.swapped.reverse.changeRegister]
        exact swapped_swapped toy
      · have heven : (n + 1) % 2 = 0 := by omega
        rw [if_neg hn, if_pos heven, reverse_effect, h.reverse.changeRegister]
        rfl

/-- Under both kinds of semaphore, whatever the order of the threads, the string is turned around
with its case swapped when both have been joined, and is the first one again a round later. -/
theorem round_order_free (hsync : sync ≠ .none) (value : Nat) (hletters : Letters toy)
    (h : Reachable (Rounds.step sync) (Rounds.start sync value toy) t) :
    (t.main = .print → t.toy = if t.printed.length % 2 = 0 then swapped toy else toy) ∧
      ∀ k line, t.printed[k]? = some line → line = if k % 2 = 0 then swapped toy else toy := by
  have hkeeps := keeps_of_reachable hsync h
  refine ⟨fun hmain => ?_, fun k line hline => ?_⟩
  · have hstaged := hkeeps.staged
    simp only [Staged, hmain] at hstaged
    have hstring : t.toy = round^[t.printed.length + 1] toy := by
      have hfirst := hkeeps.reverseFirst (by rw [hstaged.2]; rfl)
      rw [hstaged.1, hstaged.2] at hfirst
      exact hfirst
    rw [hstring, round_iterate hletters]
  · rw [hkeeps.lines k line hline, round_iterate hletters]

/-- `aB` becomes `bA`, with the case changed before the reversal. -/
theorem round_order_free_two :
    ∃ t, run (Rounds.step .ipcSem) (Rounds.start .ipcSem 0 (#v[97, 66] : Toy 2))
        ([.main, .main] ++ List.replicate 47 .register ++ List.replicate 27 .reverse ++
          [.main, .main]) = some t ∧ t.toy = #v[98, 65] := by
  have hrun : ((run (Rounds.step .ipcSem) (Rounds.start .ipcSem 0 (#v[97, 66] : Toy 2))
      ([.main, .main] ++ List.replicate 47 .register ++ List.replicate 27 .reverse ++
        [.main, .main])).map fun t => (t.main, t.printed)) = some (.print, []) := by
    decide +kernel
  obtain ⟨t, ht, hend⟩ := Option.map_eq_some_iff.mp hrun
  obtain ⟨hmain, hprinted⟩ := Prod.mk.inj hend
  have hletters : Letters (#v[97, 66] : Toy 2) := by
    unfold Letters
    decide
  have hstring := (round_order_free (by decide) 0 hletters ⟨_, ht⟩).1 hmain
  rw [hprinted] at hstring
  exact ⟨t, ht, hstring.trans (by decide +kernel)⟩

end Rounds

end SyssoftLabs.Lab5
