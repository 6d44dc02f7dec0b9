import SyssoftLabs.Framework.Transition
import SyssoftLabs.Lab5.Status

/-!
# The working time under signals

The server that answers signals runs `update` in its main loop and in its handler, on one state. A
signal may come between any two steps of the main loop; the handler then runs to its end with all
signals blocked.
-/

namespace SyssoftLabs.Lab5

open SyssoftLabs.Framework

variable {Load : Type}

/-- Where a call of `update` is. -/
inductive Updating
  /-- Before the clock is read; between two calls, too. -/
  | reading
  | comparing (currentTime : Int)
  | assigning (currentTime : Int)
  /-- Before `getloadavg`. -/
  | loading
deriving DecidableEq, Repr

structure SignalServer (Load : Type) where
  state : Status Load
  /-- The last reading of the clock. -/
  now : Int
  main : Updating
  handler : Option Updating
deriving DecidableEq, Repr

/-- A step of `update`, with what the clock and the system say. -/
inductive UpdateStep (Load : Type)
  | time (reading : Int)
  | compare
  | assign
  | getloadavg (loadavg : Vector Load 3)
deriving DecidableEq, Repr

/-- A signal that is handled, or a step of the handler or, without one, of the main loop. -/
inductive SignalAction (Load : Type)
  | signal
  | step (call : UpdateStep Load)
deriving DecidableEq, Repr

namespace SignalServer

/-- Behind the call to `time` at the start of `main`. -/
def start (clock : Int) (pid uid gid : Nat) (loadavg : Vector Load 3) : SignalServer Load where
  state := ⟨clock, 0, pid, uid, gid, loadavg⟩
  now := clock
  main := .reading
  handler := none

/-- A step of a call of `update`: where the call is now, or what it returns. The clock does not go
back. -/
def updating (s : SignalServer Load) (u : Updating) :
    UpdateStep Load → Option (SignalServer Load × (Updating ⊕ Bool))
  | .time reading =>
      if u = .reading ∧ s.now ≤ reading then
        some ({ s with now := reading }, .inl (.comparing reading))
      else none
  | .compare =>
      match u with
      | .comparing currentTime =>
          if currentTime - s.state.startTime > s.state.workingTime then
            some (s, .inl (.assigning currentTime))
          else some (s, .inr false)
      | _ => none
  | .assign =>
      match u with
      | .assigning currentTime =>
          let state := { s.state with workingTime := currentTime - s.state.startTime }
          some ({ s with state := state }, .inl .loading)
      | _ => none
  | .getloadavg loadavg =>
      if u = .loading then
        some ({ s with state := { s.state with loadavg := loadavg } }, .inr true)
      else none

/-- `while (!update());` in the handler. -/
def handle (s : SignalServer Load) : Updating ⊕ Bool → SignalServer Load
  | .inl u => { s with handler := some u }
  | .inr true => { s with handler := none }
  | .inr false => { s with handler := some .reading }

/-- `(void) update();` in the loop of `main`. -/
def loop (s : SignalServer Load) : Updating ⊕ Bool → SignalServer Load
  | .inl u => { s with main := u }
  | .inr _ => { s with main := .reading }

def step (s : SignalServer Load) : SignalAction Load → Option (SignalServer Load)
  | .signal => if s.handler = none then some { s with handler := some .reading } else none
  | .step call =>
      match s.handler with
      | some u => (s.updating u call).map fun r => r.1.handle r.2
      | none => (s.updating s.main call).map fun r => r.1.loop r.2

/-- The step does not turn the working time back. -/
def Rises (s : SignalServer Load) (a : SignalAction Load) : Prop :=
  ∀ t, step s a = some t → s.state.workingTime ≤ t.state.workingTime

instance Rises.decidable (s : SignalServer Load) (a : SignalAction Load) : Decidable (s.Rises a) :=
  inferInstanceAs (Decidable (∀ t ∈ step s a, s.state.workingTime ≤ t.state.workingTime))

/-- The main loop assigns a time only if the clock has not shown a later one since it was read. -/
def Current (s : SignalServer Load) (a : SignalAction Load) : Prop :=
  a = .step .assign → s.handler = none → ∀ currentTime, s.main = .assigning currentTime →
    s.now ≤ currentTime

/-- What the call has read is the last reading. -/
def Latest (s : SignalServer Load) : Updating → Prop
  | .comparing currentTime => currentTime = s.now
  | .assigning currentTime =>
      currentTime = s.now ∧ s.state.workingTime < currentTime - s.state.startTime
  | _ => True

/-- The handler is not between a reading and its use. -/
def Settled (s : SignalServer Load) : Prop :=
  ∀ u, s.handler = some u → u = .reading ∨ u = .loading

/-- The working time covers all readings later than the one the main loop has made. -/
def Covers (s : SignalServer Load) : Prop :=
  ∀ currentTime, s.main = .comparing currentTime ∨ s.main = .assigning currentTime →
    currentTime ≤ s.now ∧
      (s.Settled → currentTime < s.now → currentTime < s.state.startTime + s.state.workingTime)

structure Timed (s : SignalServer Load) : Prop where
  worked : s.state.startTime + s.state.workingTime ≤ s.now
  handler : ∀ u, s.handler = some u → s.Latest u
  covers : s.Covers

section

variable {s t : SignalServer Load} {u : Updating} {call : UpdateStep Load}
  {r : Updating ⊕ Bool}

/-- What a step of `update` can do. -/
theorem updating_cases (h : s.updating u call = some (t, r)) :
    (∃ reading, u = .reading ∧ s.now ≤ reading ∧ t = { s with now := reading } ∧
      r = .inl (.comparing reading)) ∨
    (∃ currentTime, u = .comparing currentTime ∧ t = s ∧
      (s.state.workingTime < currentTime - s.state.startTime ∧ r = .inl (.assigning currentTime) ∨
        currentTime - s.state.startTime ≤ s.state.workingTime ∧ r = .inr false)) ∨
    (∃ currentTime, u = .assigning currentTime ∧ call = .assign ∧
      t = { s with state :=
        { s.state with workingTime := currentTime - s.state.startTime } } ∧ r = .inl .loading) ∨
    ∃ loadavg, u = .loading ∧ t = { s with state := { s.state with loadavg := loadavg } } ∧
      r = .inr true := by
  cases call with
  | time reading =>
      simp only [updating] at h
      split at h
      · next hok =>
          cases h
          exact .inl ⟨reading, hok.1, hok.2, rfl, rfl⟩
      · cases h
  | compare =>
      cases u with
      | comparing currentTime =>
          simp only [updating] at h
          split at h
          · cases h
            exact .inr (.inl ⟨currentTime, rfl, rfl, .inl ⟨by omega, rfl⟩⟩)
          · cases h
            exact .inr (.inl ⟨currentTime, rfl, rfl, .inr ⟨by omega, rfl⟩⟩)
      | reading => cases h
      | assigning currentTime => cases h
      | loading => cases h
  | assign =>
      cases u with
      | assigning currentTime =>
          cases h
          exact .inr (.inr (.inl ⟨currentTime, rfl, rfl, rfl, rfl⟩))
      | reading => cases h
      | comparing currentTime => cases h
      | loading => cases h
  | getloadavg loadavg =>
      simp only [updating] at h
      split at h
      · next hu =>
          cases h
          exact .inr (.inr (.inr ⟨loadavg, hu, rfl, rfl⟩))
      · cases h

private theorem timed_start (clock : Int) (pid uid gid : Nat) (loadavg : Vector Load 3) :
    (start clock pid uid gid loadavg).Timed := by
  constructor
  · simp [start]
  · simp [start]
  · simp [start, Covers]

private theorem Timed.handle (hs : s.Timed) (hu : s.handler = some u)
    (h : s.updating u call = some (t, r)) :
    (t.handle r).Timed ∧ s.state.workingTime ≤ (t.handle r).state.workingTime := by
  have hlatest := hs.handler u hu
  have hworked := hs.worked
  obtain ⟨reading, rfl, hnow, rfl, rfl⟩ | ⟨currentTime, rfl, rfl, hcompare⟩ |
    ⟨currentTime, rfl, -, rfl, rfl⟩ | ⟨loadavg, rfl, rfl, rfl⟩ := updating_cases h
  · refine ⟨⟨?_, ?_, fun c hc => ⟨?_, fun hsettled => ?_⟩⟩, Int.le_refl _⟩
    · show s.state.startTime + s.state.workingTime ≤ reading
      omega
    · rintro u ⟨⟩
      rfl
    · have hle := (hs.covers c hc).1
      show c ≤ reading
      omega
    · cases hsettled _ rfl with
      | inl h => cases h
      | inr h => cases h
  · have hnow : currentTime = t.now := hlatest
    obtain ⟨hlt, rfl⟩ | ⟨hle, rfl⟩ := hcompare
    · refine ⟨⟨hworked, ?_, fun c hc => ⟨(hs.covers c hc).1, fun hsettled => ?_⟩⟩, Int.le_refl _⟩
      · rintro u ⟨⟩
        exact ⟨hnow, hlt⟩
      · cases hsettled _ rfl with
        | inl h => cases h
        | inr h => cases h
    · refine ⟨⟨hworked, ?_, fun c hc => ⟨(hs.covers c hc).1, fun _ hlater => ?_⟩⟩, Int.le_refl _⟩
      · rintro u ⟨⟩
        trivial
      · show c < t.state.startTime + t.state.workingTime
        have hlater' : c < t.now := hlater
        omega
  · obtain ⟨hnow, hlt⟩ := hlatest
    refine ⟨⟨?_, ?_, fun c hc => ⟨(hs.covers c hc).1, fun _ hlater => ?_⟩⟩, Int.le_of_lt hlt⟩
    · show s.state.startTime + (currentTime - s.state.startTime) ≤ s.now
      omega
    · rintro u ⟨⟩
      trivial
    · show c < s.state.startTime + (currentTime - s.state.startTime)
      have hlater' : c < s.now := hlater
      omega
  · refine ⟨⟨hworked, ?_, fun c hc => ⟨(hs.covers c hc).1, fun _ hlater => ?_⟩⟩, Int.le_refl _⟩
    · rintro u ⟨⟩
    · refine (hs.covers c hc).2 (fun u hu' => ?_) hlater
      rw [hu] at hu'
      cases hu'
      exact .inr rfl

/-- A step of the main loop keeps the times in order. -/
theorem Timed.loop (hs : s.Timed) (hu : s.handler = none)
    (h : s.updating s.main call = some (t, r)) : (t.loop r).Timed := by
  have hworked := hs.worked
  have hnone : ∀ {v : SignalServer Load}, v.handler = none → ∀ u, v.handler = some u →
      v.Latest u := by
    intro v hv u hu'
    rw [hv] at hu'
    cases hu'
  obtain ⟨reading, -, hnow, rfl, rfl⟩ | ⟨currentTime, hmain, rfl, hcompare⟩ |
    ⟨currentTime, hmain, -, rfl, rfl⟩ | ⟨loadavg, -, rfl, rfl⟩ := updating_cases h
  · refine ⟨Int.le_trans hworked hnow, hnone hu, fun c hc => ?_⟩
    obtain hc | hc := hc
    · cases hc
      exact ⟨Int.le_refl _, fun _ hlater => absurd hlater (Int.lt_irrefl _)⟩
    · cases hc
  · obtain ⟨-, rfl⟩ | ⟨-, rfl⟩ := hcompare
    · refine ⟨hworked, hnone hu, fun c hc => ?_⟩
      obtain hc | hc := hc
      · cases hc
      · cases hc
        exact hs.covers _ (.inl hmain)
    · exact ⟨hworked, hnone hu, fun c hc => by rcases hc with hc | hc <;> cases hc⟩
  · have hle := (hs.covers currentTime (.inr hmain)).1
    refine ⟨?_, hnone hu, fun c hc => by rcases hc with hc | hc <;> cases hc⟩
    show s.state.startTime + (currentTime - s.state.startTime) ≤ s.now
    omega
  · exact ⟨hworked, hnone hu, fun c hc => by rcases hc with hc | hc <;> cases hc⟩

theorem Timed.step {a : SignalAction Load} (hs : s.Timed) (h : s.step a = some t) : t.Timed := by
  cases a with
  | signal =>
      simp only [SignalServer.step] at h
      split at h
      · next hnone =>
          cases h
          refine ⟨hs.worked, ?_, fun c hc => ⟨(hs.covers c hc).1, fun _ hlater => ?_⟩⟩
          · rintro u ⟨⟩
            trivial
          · refine (hs.covers c hc).2 (fun u hu => ?_) hlater
            rw [hnone] at hu
            cases hu
      · cases h
  | step call =>
      simp only [SignalServer.step] at h
      split at h
      · next u hu =>
          obtain ⟨⟨v, r⟩, hv, rfl⟩ := Option.map_eq_some_iff.mp h
          exact (hs.handle hu hv).1
      · next hu =>
          obtain ⟨⟨v, r⟩, hv, rfl⟩ := Option.map_eq_some_iff.mp h
          exact hs.loop hu hv

private theorem Timed.rises_iff (hs : s.Timed) (a : SignalAction Load) :
    s.Rises a ↔ s.Current a := by
  constructor
  · intro hrises ha hnone currentTime hmain
    subst ha
    have hstep : s.step (.step .assign) = some { s with
        state := { s.state with workingTime := currentTime - s.state.startTime }
        main := .loading } := by
      simp [SignalServer.step, SignalServer.loop, updating, hnone, hmain]
    have hle : s.state.workingTime ≤ currentTime - s.state.startTime := hrises _ hstep
    have hcovers := (hs.covers currentTime (.inr hmain)).2 fun u hu => by
      rw [hnone] at hu
      cases hu
    by_contra hlater
    have hlt := hcovers (by omega)
    omega
  · intro hcurrent t ht
    cases a with
    | signal =>
        simp only [SignalServer.step] at ht
        split at ht
        · cases ht
          exact Int.le_refl _
        · cases ht
    | step call =>
        simp only [SignalServer.step] at ht
        split at ht
        · next u hu =>
            obtain ⟨⟨v, r⟩, hv, rfl⟩ := Option.map_eq_some_iff.mp ht
            exact (hs.handle hu hv).2
        · next hnone =>
            obtain ⟨⟨v, r⟩, hv, rfl⟩ := Option.map_eq_some_iff.mp ht
            obtain ⟨reading, -, -, rfl, rfl⟩ | ⟨currentTime, -, rfl, hcompare⟩ |
              ⟨currentTime, hmain, rfl, rfl, rfl⟩ | ⟨loadavg, -, rfl, rfl⟩ := updating_cases hv
            · exact Int.le_refl _
            · obtain ⟨-, rfl⟩ | ⟨-, rfl⟩ := hcompare
              · exact Int.le_refl _
              · exact Int.le_refl _
            · have hworked := hs.worked
              have hnow := hcurrent rfl hnone currentTime hmain
              show s.state.workingTime ≤ currentTime - s.state.startTime
              omega
            · exact Int.le_refl _

end

/-- The working time never goes back exactly in the runs whose main loop never assigns an old
reading. -/
theorem working_time_rises_iff (clock : Int) (pid uid gid : Nat) (loadavg : Vector Load 3)
    (as : List (SignalAction Load)) :
    Guarded step Rises (start clock pid uid gid loadavg) as ↔
      Guarded step Current (start clock pid uid gid loadavg) as :=
  guarded_congr (fun _ _ _ hs h => Timed.step hs h) (fun _ a hs => Timed.rises_iff hs a)
    (timed_start clock pid uid gid loadavg) as

/-- The main loop reads the clock in the first second and compares; the handler of a signal assigns
the second one, and the main loop the first one again. -/
theorem working_time_rises_fails :
    ¬ ∀ as : List (SignalAction Nat), Guarded step Rises (start 0 1 0 0 #v[0, 0, 0]) as := by
  intro h
  have hrun := h [.step (.time 1), .step .compare, .signal, .step (.time 2), .step .compare,
    .step .assign, .step (.getloadavg #v[0, 0, 0]), .step .assign]
  revert hrun
  decide

end SignalServer

end SyssoftLabs.Lab5
