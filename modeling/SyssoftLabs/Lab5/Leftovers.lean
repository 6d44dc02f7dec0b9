import SyssoftLabs.Framework.Transition

/-!
# What the status server leaves behind

The server makes a shared memory segment, a message queue or a file for mapping, and removes it in
the handler of a signal or after a failed call, before it ends. A signal comes at any point, also in
a handler. No other server is there, and none has left an object. Any call may fail but `shmctl`,
`msgctl` and `shm_unlink` on the object that the server has made.
-/

namespace SyssoftLabs.Lab5

open SyssoftLabs.Framework

inductive ServerMode
  | shm
  | msg
  | mmap
deriving DecidableEq, Repr

/-- The calls in front of `_exit`. -/
inductive Removal
  | shmdt
  | shmctl
  | msgctl
  | munmap
  | unlink
deriving DecidableEq, Repr

/-- Where the server is, after the first call of `time`. -/
inductive StatusPc
  /-- In the loop over the signals. -/
  | install
  /-- Before `shmget`, `msgget` or `shm_open`. -/
  | get
  /-- Between `shmget` or `msgget` and the assignment of what it returns. -/
  | assign
  /-- Before `ftruncate`. -/
  | truncate
  /-- Before `shmat` or `mmap`. -/
  | attach
  | sleep
  /-- Before `time` in `update`. -/
  | time
  /-- Before `getloadavg`. -/
  | load
  /-- Before `msgsnd`. -/
  | send
  | dying (calls : List Removal) (status : Nat)
deriving DecidableEq, Repr

/-- A handler that is running. -/
inductive StatusFrame
  /-- For `SIGUSR1`. -/
  | report
  | leave (calls : List Removal)
deriving DecidableEq, Repr

inductive StatusExit
  | status (n : Nat)
  | killed
deriving DecidableEq, Repr

structure StatusServer where
  mode : ServerMode
  main : StatusPc
  /-- `shmid` or `msgid` is assigned. -/
  known : Bool
  /-- The segment, queue or file is there. -/
  object : Bool
  /-- The handlers, the last one called first. -/
  handlers : List StatusFrame
  exit : Option StatusExit
deriving DecidableEq, Repr

inductive CallResult
  | ok
  | fails
  /-- `time` reads no later second than before. -/
  | stale
deriving DecidableEq, Repr

inductive StatusStep
  | main (r : CallResult)
  /-- `SIGUSR1` is delivered. -/
  | usr1
  /-- Another signal with a handler is delivered. -/
  | signal
  | handler
  /-- A signal without a handler. -/
  | kill
deriving DecidableEq, Repr

/-- What the handler calls for another signal than `SIGUSR1`, and `main` after a failed `usleep`. -/
def ServerMode.removal : ServerMode → List Removal
  | .shm => [.shmdt, .shmctl]
  | .msg => [.msgctl]
  | .mmap => [.munmap, .unlink]

namespace StatusServer

def start (mode : ServerMode) : StatusServer := ⟨mode, .install, false, false, [], none⟩

/-- The call removes the object; with an identifier of -1 it fails. -/
def removes (s : StatusServer) : Removal → Bool
  | .shmctl => s.mode = .shm ∧ s.known
  | .msgctl => s.mode = .msg ∧ s.known
  | .unlink => s.mode = .mmap
  | .shmdt | .munmap => false

def perform (s : StatusServer) (call : Removal) : StatusServer :=
  { s with object := s.object && !s.removes call }

def goto (s : StatusServer) (pc : StatusPc) : StatusServer := { s with main := pc }

def stepMain (s : StatusServer) : StatusPc → CallResult → Option StatusServer
  | .install, .ok => some (s.goto .get)
  | .get, .ok =>
      some { s with object := true, main := if s.mode = .mmap then .truncate else .assign }
  | .get, .fails => some (s.goto (.dying [] 3))
  | .assign, .ok =>
      some { s with known := true, main := if s.mode = .shm then .attach else .sleep }
  | .truncate, .ok => some (s.goto .attach)
  | .truncate, .fails => some (s.goto (.dying [.unlink] 7))
  | .attach, .ok => some (s.goto .sleep)
  | .attach, .fails => some (s.goto (.dying (if s.mode = .mmap then [.unlink] else []) 4))
  -- a call that a signal interrupts goes to `force_update` as well
  | .sleep, .ok => some (s.goto .time)
  | .sleep, .fails => some (s.goto (.dying s.mode.removal 5))
  | .time, .ok => some (s.goto .load)
  | .time, .stale => some (s.goto .sleep)
  | .time, .fails => some (s.goto (.dying [.shmdt, .shmctl, .msgctl] 1))
  | .load, .ok => some (s.goto (if s.mode = .msg then .send else .sleep))
  | .load, .fails => some (s.goto (.dying [.shmdt, .shmctl, .msgctl, .munmap, .unlink] 2))
  | .send, .ok => some (s.goto .sleep)
  | .send, .fails => some (s.goto (.dying [.msgctl] 6))
  | .dying (call :: calls) n, .ok => some ((s.perform call).goto (.dying calls n))
  | .dying [] n, .ok => some { s with exit := some (.status n) }
  | _, _ => none

/-- A step of the handler that was called last. -/
def stepHandler (s : StatusServer) : Option StatusServer :=
  match s.handlers with
  | [] => none
  | .report :: frames => some { s with handlers := frames }
  | .leave (call :: calls) :: frames =>
      some { s.perform call with handlers := .leave calls :: frames }
  | .leave [] :: _ => some { s with exit := some (.status 0) }

def step (s : StatusServer) (a : StatusStep) : Option StatusServer :=
  if s.exit ≠ none then none
  else
    match a with
    | .main r => if s.handlers = [] then s.stepMain s.main r else none
    | .usr1 => some { s with handlers := .report :: s.handlers }
    | .signal => some { s with handlers := .leave s.mode.removal :: s.handlers }
    | .handler => s.stepHandler
    | .kill => some { s with exit := some .killed }

/-! ## What is left -/

/-- The object is left when these calls have been made. -/
def leaves (s : StatusServer) (calls : List Removal) : Bool :=
  s.object && !calls.any s.removes

/-- The statuses of an exit that leaves the object to the system. -/
def forgets (mode : ServerMode) (n : Nat) : Bool :=
  n = 4 ∧ mode = .shm ∨ n = 1 ∧ mode = .mmap

/-- In the loop of the server. -/
def serving : StatusPc → Bool
  | .sleep | .time | .load | .send => true
  | _ => false

/-- What holds at a step of `main` as long as no handler is about to end the server. -/
def AtMain (s : StatusServer) : StatusPc → Prop
  | .install | .get => s.object = false ∧ s.known = false
  | .assign => s.object = true ∧ s.known = false ∧ s.mode ≠ .mmap
  | .truncate => s.object = true ∧ s.mode = .mmap
  | .attach => s.object = true ∧ s.mode ≠ .msg ∧ (s.mode = .shm → s.known = true)
  | .sleep | .time | .load => s.object = true ∧ (s.mode ≠ .mmap → s.known = true)
  | .send => s.object = true ∧ s.mode = .msg ∧ s.known = true
  | .dying calls n => n ≠ 0 ∧ s.leaves calls = forgets s.mode n ∧
      (s.object = true → s.mode ≠ .mmap → s.known = true)

structure Sound (s : StatusServer) : Prop where
  main : (∀ frame ∈ s.handlers, frame = .report) → s.AtMain s.main
  /-- A handler that ends the server removes the object unless it cannot name it. -/
  handlers : ∀ calls, .leave calls ∈ s.handlers → (s.leaves calls = true ↔ s.main = .assign)
  unnamed : s.main = .assign → s.known = false ∧ s.mode ≠ .mmap
  exited : ∀ n, s.exit = some (.status n) →
    (s.object = true ↔ forgets s.mode n = true ∨ n = 0 ∧ s.main = .assign)

variable {s t : StatusServer} {mode : ServerMode} {call : Removal} {calls : List Removal}

private theorem leaves_perform : (s.perform call).leaves calls = s.leaves (call :: calls) := by
  have hsame : (s.perform call).removes = s.removes := by
    funext c
    cases c <;> rfl
  rw [leaves, leaves, hsame, List.any_cons, perform]
  simp [Bool.and_assoc]

private theorem removes_unnamed (hknown : s.known = false) (hmode : s.mode ≠ .mmap) :
    s.removes call = false := by
  cases call <;> simp [removes, hknown, hmode]

private theorem leaves_removal (hknown : s.object = true → s.mode ≠ .mmap → s.known = true) :
    s.leaves s.mode.removal = false := by
  cases hobject : s.object with
  | false => simp [leaves, hobject]
  | true =>
      cases hmode : s.mode with
      | mmap => simp [leaves, ServerMode.removal, removes, hmode]
      | shm =>
          have hnamed := hknown hobject (by simp [hmode])
          simp [leaves, ServerMode.removal, removes, hmode, hnamed]
      | msg =>
          have hnamed := hknown hobject (by simp [hmode])
          simp [leaves, ServerMode.removal, removes, hmode, hnamed]

theorem Sound.start (mode : ServerMode) : (start mode).Sound where
  main _ := ⟨rfl, rfl⟩
  handlers calls h := by cases h
  unnamed h := by cases h
  exited n h := by cases h

private theorem atMain_dying {n : Nat} (hn : n ≠ 0) (hleaves : s.leaves calls = forgets s.mode n)
    (hknown : s.object = true → s.mode ≠ .mmap → s.known = true) :
    (s.goto (.dying calls n)).AtMain (.dying calls n) := ⟨hn, hleaves, hknown⟩

/-- What a step of `main` does. -/
inductive MainMove (s : StatusServer) : StatusPc → StatusServer → Prop
  | install : MainMove s .install (s.goto .get)
  | get :
      MainMove s .get
        { s with object := true, main := if s.mode = .mmap then .truncate else .assign }
  | getFails : MainMove s .get (s.goto (.dying [] 3))
  | assign :
      MainMove s .assign
        { s with known := true, main := if s.mode = .shm then .attach else .sleep }
  | truncate : MainMove s .truncate (s.goto .attach)
  | truncateFails : MainMove s .truncate (s.goto (.dying [.unlink] 7))
  | attach : MainMove s .attach (s.goto .sleep)
  | attachFails :
      MainMove s .attach (s.goto (.dying (if s.mode = .mmap then [.unlink] else []) 4))
  | sleep : MainMove s .sleep (s.goto .time)
  | sleepFails : MainMove s .sleep (s.goto (.dying s.mode.removal 5))
  | time : MainMove s .time (s.goto .load)
  | stale : MainMove s .time (s.goto .sleep)
  | timeFails : MainMove s .time (s.goto (.dying [.shmdt, .shmctl, .msgctl] 1))
  | load : MainMove s .load (s.goto (if s.mode = .msg then .send else .sleep))
  | loadFails :
      MainMove s .load (s.goto (.dying [.shmdt, .shmctl, .msgctl, .munmap, .unlink] 2))
  | send : MainMove s .send (s.goto .sleep)
  | sendFails : MainMove s .send (s.goto (.dying [.msgctl] 6))
  | call (call : Removal) (calls : List Removal) (n : Nat) :
      MainMove s (.dying (call :: calls) n) ((s.perform call).goto (.dying calls n))
  | exit (n : Nat) : MainMove s (.dying [] n) { s with exit := some (.status n) }

private theorem move_of_stepMain {pc : StatusPc} {r : CallResult} (ht : s.stepMain pc r = some t) :
    s.MainMove pc t := by
  revert ht
  fun_cases StatusServer.stepMain s pc r
  all_goals
    intro ht
    cases ht
  all_goals constructor

private theorem AtMain.install_step (h : s.AtMain .install) (ht : s.MainMove .install t) :
    t.AtMain t.main := by
  obtain ⟨mode, main, known, object, handlers, exit⟩ := s
  cases ht with
  | install => exact h

private theorem AtMain.get_step (h : s.AtMain .get) (ht : s.MainMove .get t) :
    t.AtMain t.main := by
  obtain ⟨mode, main, known, object, handlers, exit⟩ := s
  cases ht with
  | get =>
      cases mode with
      | mmap => exact ⟨rfl, rfl⟩
      | shm => exact ⟨rfl, h.2, nofun⟩
      | msg => exact ⟨rfl, h.2, nofun⟩
  | getFails =>
      have hobject : object = false := h.1
      subst hobject
      apply atMain_dying (by decide)
      · cases mode <;> rfl
      · intro hobject
        cases hobject

private theorem AtMain.assign_step (h : s.AtMain .assign) (ht : s.MainMove .assign t) :
    t.AtMain t.main := by
  obtain ⟨mode, main, known, object, handlers, exit⟩ := s
  simp only [AtMain] at h
  obtain ⟨hobject, -, hmode⟩ := h
  cases ht with
  | assign =>
      cases mode with
      | mmap => exact absurd rfl hmode
      | shm => exact ⟨hobject, nofun, fun _ => rfl⟩
      | msg => exact ⟨hobject, fun _ => rfl⟩

private theorem AtMain.truncate_step (h : s.AtMain .truncate) (ht : s.MainMove .truncate t) :
    t.AtMain t.main := by
  obtain ⟨mode, main, known, object, handlers, exit⟩ := s
  simp only [AtMain] at h
  obtain ⟨hobject, hmode⟩ := h
  cases hmode
  cases ht with
  | truncate => exact ⟨hobject, nofun, nofun⟩
  | truncateFails =>
      apply atMain_dying (by decide)
      · simp [leaves, removes, forgets]
      · intro _ hmode
        exact absurd rfl hmode

private theorem AtMain.attach_step (h : s.AtMain .attach) (ht : s.MainMove .attach t) :
    t.AtMain t.main := by
  obtain ⟨mode, main, known, object, handlers, exit⟩ := s
  simp only [AtMain] at h
  obtain ⟨hobject, hmode, hknown⟩ := h
  cases ht with
  | attach =>
      refine ⟨hobject, fun hfile => ?_⟩
      cases mode with
      | shm => exact hknown rfl
      | msg => exact absurd rfl hmode
      | mmap => exact absurd rfl hfile
  | attachFails =>
      cases mode with
      | shm =>
          apply atMain_dying (by decide)
          · simp [leaves, forgets, hobject]
          · exact fun _ _ => hknown rfl
      | msg => exact absurd rfl hmode
      | mmap =>
          apply atMain_dying (by decide)
          · simp [leaves, removes, forgets]
          · intro _ hmode
            exact absurd rfl hmode

private theorem AtMain.sleep_step (h : s.AtMain .sleep) (ht : s.MainMove .sleep t) :
    t.AtMain t.main := by
  obtain ⟨mode, main, known, object, handlers, exit⟩ := s
  simp only [AtMain] at h
  obtain ⟨hobject, hknown⟩ := h
  cases ht with
  | sleep => exact ⟨hobject, hknown⟩
  | sleepFails =>
      apply atMain_dying (by decide)
      · rw [leaves_removal fun _ => hknown]
        simp [forgets]
      · exact fun _ => hknown

private theorem AtMain.time_step (h : s.AtMain .time) (ht : s.MainMove .time t) :
    t.AtMain t.main := by
  obtain ⟨mode, main, known, object, handlers, exit⟩ := s
  simp only [AtMain] at h
  obtain ⟨hobject, hknown⟩ := h
  cases ht with
  | time => exact ⟨hobject, hknown⟩
  | stale => exact ⟨hobject, hknown⟩
  | timeFails =>
      apply atMain_dying (by decide)
      · cases mode with
        | mmap => simp [leaves, removes, forgets, hobject]
        | shm => simp [leaves, removes, forgets, hobject, hknown nofun]
        | msg => simp [leaves, removes, forgets, hobject, hknown nofun]
      · exact fun _ => hknown

private theorem AtMain.load_step (h : s.AtMain .load) (ht : s.MainMove .load t) :
    t.AtMain t.main := by
  obtain ⟨mode, main, known, object, handlers, exit⟩ := s
  simp only [AtMain] at h
  obtain ⟨hobject, hknown⟩ := h
  cases ht with
  | load =>
      cases mode with
      | msg => exact ⟨hobject, rfl, hknown (by simp)⟩
      | shm => exact ⟨hobject, hknown⟩
      | mmap => exact ⟨hobject, hknown⟩
  | loadFails =>
      apply atMain_dying (by decide)
      · cases mode with
        | mmap => simp [leaves, removes, forgets]
        | shm => simp [leaves, removes, forgets, hobject, hknown nofun]
        | msg => simp [leaves, removes, forgets, hobject, hknown nofun]
      · exact fun _ => hknown

private theorem AtMain.send_step (h : s.AtMain .send) (ht : s.MainMove .send t) :
    t.AtMain t.main := by
  obtain ⟨mode, main, known, object, handlers, exit⟩ := s
  simp only [AtMain] at h
  obtain ⟨hobject, hmode, hknown⟩ := h
  cases hmode
  cases hknown
  cases ht with
  | send => exact ⟨hobject, fun _ => rfl⟩
  | sendFails =>
      exact atMain_dying (by decide) (by simp [leaves, removes, forgets]) fun _ _ => rfl

private theorem AtMain.dying_step {n : Nat} (hmain : s.main = .dying calls n)
    (h : s.AtMain (.dying calls n)) (ht : s.MainMove (.dying calls n) t) :
    t.AtMain t.main := by
  obtain ⟨mode, main, known, object, handlers, exit⟩ := s
  cases hmain
  simp only [AtMain] at h
  obtain ⟨hn, hleaves, hknown⟩ := h
  cases ht with
  | exit => exact ⟨hn, hleaves, hknown⟩
  | call call calls =>
      apply atMain_dying hn
      · rw [leaves_perform]
        exact hleaves
      · intro hobject
        apply hknown
        exact (Bool.and_eq_true_iff.mp hobject).1

/-- A step of `main` leads to what holds at the next one. -/
theorem AtMain.stepMain {r : CallResult} (h : s.AtMain s.main)
    (ht : s.stepMain s.main r = some t) : t.AtMain t.main := by
  have hmove := move_of_stepMain ht
  cases hmain : s.main with
  | install =>
      rw [hmain] at h hmove
      exact h.install_step hmove
  | get =>
      rw [hmain] at h hmove
      exact h.get_step hmove
  | assign =>
      rw [hmain] at h hmove
      exact h.assign_step hmove
  | truncate =>
      rw [hmain] at h hmove
      exact h.truncate_step hmove
  | attach =>
      rw [hmain] at h hmove
      exact h.attach_step hmove
  | sleep =>
      rw [hmain] at h hmove
      exact h.sleep_step hmove
  | time =>
      rw [hmain] at h hmove
      exact h.time_step hmove
  | load =>
      rw [hmain] at h hmove
      exact h.load_step hmove
  | send =>
      rw [hmain] at h hmove
      exact h.send_step hmove
  | dying calls n =>
      rw [hmain] at h hmove
      exact h.dying_step hmain hmove

private theorem stepMain_handlers {pc : StatusPc} {r : CallResult} (ht : s.stepMain pc r = some t) :
    t.handlers = s.handlers := by
  cases move_of_stepMain ht <;> rfl

private theorem stepMain_mode {pc : StatusPc} {r : CallResult} (ht : s.stepMain pc r = some t) :
    t.mode = s.mode := by
  cases move_of_stepMain ht <;> rfl

private theorem stepHandler_mode (ht : s.stepHandler = some t) : t.mode = s.mode := by
  unfold stepHandler at ht
  split at ht
  case h_1 => cases ht
  all_goals
    cases ht
    rfl

private theorem step_mode {a : StatusStep} (ht : step s a = some t) : t.mode = s.mode := by
  unfold step at ht
  split at ht
  case isTrue => cases ht
  case isFalse =>
    cases a with
    | main r =>
        simp only [Option.ite_none_right_eq_some] at ht
        exact stepMain_mode ht.2
    | usr1 =>
        cases ht
        rfl
    | signal =>
        cases ht
        rfl
    | handler => exact stepHandler_mode ht
    | kill =>
        cases ht
        rfl

private theorem stepMain_exit {pc : StatusPc} {r : CallResult} (ht : s.stepMain pc r = some t) :
    t.exit = s.exit ∨ ∃ n, pc = .dying [] n ∧ t = { s with exit := some (.status n) } := by
  cases move_of_stepMain ht with
  | exit n => exact .inr ⟨n, rfl, rfl⟩
  | _ => exact .inl rfl

private theorem known_of_leaves (h : s.leaves calls = false) (hobject : s.object = true)
    (hmode : s.mode ≠ .mmap) : s.known = true := by
  rw [leaves, hobject, Bool.true_and, Bool.not_eq_false', List.any_eq_true] at h
  obtain ⟨call, -, hcall⟩ := h
  cases hknown : s.known with
  | true => rfl
  | false =>
      rw [removes_unnamed hknown hmode] at hcall
      cases hcall

private theorem leaves_cons (h : s.leaves calls = false) : s.leaves (call :: calls) = false := by
  rw [leaves, Bool.and_eq_false_iff] at h
  rw [leaves, Bool.and_eq_false_iff, List.any_cons]
  cases h with
  | inl h => exact .inl h
  | inr h =>
      right
      rw [Bool.not_eq_false'] at h
      rw [h, Bool.or_true]
      rfl

private theorem AtMain.known {pc : StatusPc} (h : s.AtMain pc) (hpc : pc ≠ .assign)
    (hobject : s.object = true) (hmode : s.mode ≠ .mmap) : s.known = true := by
  cases pc with
  | install => exact absurd hobject (by simp [h.1])
  | get => exact absurd hobject (by simp [h.1])
  | assign => exact absurd rfl hpc
  | truncate => exact absurd h.2 hmode
  | attach =>
      obtain ⟨-, hqueue, hknown⟩ := h
      apply hknown
      cases hcase : s.mode with
      | shm => rfl
      | msg => exact absurd hcase hqueue
      | mmap => exact absurd hcase hmode
  | sleep => exact h.2 hmode
  | time => exact h.2 hmode
  | load => exact h.2 hmode
  | send => exact h.2.2
  | dying calls n => exact h.2.2 hobject hmode

private theorem reports_or_leave (frames : List StatusFrame) :
    (∀ frame ∈ frames, frame = .report) ∨ ∃ calls, .leave calls ∈ frames := by
  induction frames with
  | nil => exact .inl nofun
  | cons frame frames ih =>
      cases frame with
      | leave calls => exact .inr ⟨calls, List.mem_cons_self⟩
      | report =>
          cases ih with
          | inl ih => exact .inl (List.forall_mem_cons.mpr ⟨rfl, ih⟩)
          | inr ih =>
              obtain ⟨calls, hcalls⟩ := ih
              exact .inr ⟨calls, List.mem_cons_of_mem _ hcalls⟩

/-- An object without a name is between its creation and the assignment. -/
theorem Sound.known (h : s.Sound) (hmain : s.main ≠ .assign) (hobject : s.object = true)
    (hmode : s.mode ≠ .mmap) : s.known = true := by
  cases reports_or_leave s.handlers with
  | inl hreports => exact (h.main hreports).known hmain hobject hmode
  | inr hleave =>
      obtain ⟨calls, hcalls⟩ := hleave
      have hremoves : s.leaves calls = false := by
        rw [Bool.eq_false_iff, Ne, h.handlers calls hcalls]
        exact hmain
      exact known_of_leaves hremoves hobject hmode

private theorem Sound.object_of_assign (h : s.Sound) (hmain : s.main = .assign) :
    s.object = true := by
  cases reports_or_leave s.handlers with
  | inl hreports =>
      have hassign := h.main hreports
      rw [hmain] at hassign
      exact hassign.1
  | inr hleave =>
      obtain ⟨calls, hcalls⟩ := hleave
      have hleaves := (h.handlers calls hcalls).mpr hmain
      exact (Bool.and_eq_true_iff.mp hleaves).1

private theorem Sound.leaves_new (h : s.Sound) :
    s.leaves s.mode.removal = true ↔ s.main = .assign := by
  constructor
  · intro hleaves
    by_contra hmain
    rw [leaves_removal (h.known hmain)] at hleaves
    cases hleaves
  · intro hmain
    obtain ⟨hknown, hmode⟩ := h.unnamed hmain
    rw [leaves, h.object_of_assign hmain, Bool.true_and, Bool.not_eq_true', List.any_eq_false]
    intro call _
    rw [removes_unnamed hknown hmode]
    exact Bool.false_ne_true

private theorem Sound.leaves_other (h : s.Sound)
    (hcalls : s.leaves calls = true ↔ s.main = .assign) :
    (s.perform call).leaves calls = true ↔ s.main = .assign := by
  rw [leaves_perform]
  by_cases hmain : s.main = .assign
  · obtain ⟨hknown, hmode⟩ := h.unnamed hmain
    rw [← hcalls, leaves, leaves, List.any_cons, removes_unnamed hknown hmode, Bool.false_or]
  · have hremoves : s.leaves calls = false := by
      rw [Bool.eq_false_iff, Ne, hcalls]
      exact hmain
    rw [leaves_cons hremoves]
    exact ⟨nofun, fun hassign => absurd hassign hmain⟩

theorem Sound.stepHandler (h : s.Sound) (hexit : s.exit = none)
    (ht : s.stepHandler = some t) : t.Sound := by
  unfold StatusServer.stepHandler at ht
  split at ht
  case h_1 => cases ht
  case h_2 frames hframes =>
    cases ht
    exact
      { main := by
          intro hreports
          apply h.main
          rw [hframes]
          exact List.forall_mem_cons.mpr ⟨rfl, hreports⟩
        handlers := by
          intro calls hcalls
          apply h.handlers
          rw [hframes]
          exact List.mem_cons_of_mem _ hcalls
        unnamed := h.unnamed
        exited := h.exited }
  case h_3 call calls frames hframes =>
    cases ht
    have hhead := h.handlers (call :: calls)
    rw [hframes, ← leaves_perform] at hhead
    exact
      { main := fun hreports => by cases hreports _ List.mem_cons_self
        handlers := by
          intro others hothers
          cases hothers with
          | head => exact hhead List.mem_cons_self
          | tail _ hframe =>
              apply h.leaves_other
              apply h.handlers
              rw [hframes]
              exact List.mem_cons_of_mem _ hframe
        unnamed := h.unnamed
        exited := fun n hn => by cases hexit.symm.trans hn }
  case h_4 frames hframes =>
    cases ht
    have hlast := h.handlers []
    rw [hframes] at hlast
    have hobject := hlast List.mem_cons_self
    exact
      { main := fun hreports => h.main hreports
        handlers := h.handlers
        unnamed := h.unnamed
        exited := by
          intro n hn
          cases hn
          simpa [forgets, leaves] using hobject }

theorem Sound.step {a : StatusStep} (h : s.Sound) (ht : StatusServer.step s a = some t) :
    t.Sound := by
  unfold StatusServer.step at ht
  split at ht
  case isTrue => cases ht
  case isFalse hexit =>
    rw [ne_eq, not_not] at hexit
    cases a with
    | main r =>
        simp only [Option.ite_none_right_eq_some] at ht
        obtain ⟨hnone, ht⟩ := ht
        have hmain : s.AtMain s.main := h.main (by simp [hnone])
        have hhandlers : t.handlers = [] := (stepMain_handlers ht).trans hnone
        exact
          { main := fun _ => hmain.stepMain ht
            handlers := fun calls hcalls => by simp [hhandlers] at hcalls
            unnamed := by
              intro hassign
              have hat := hmain.stepMain ht
              rw [hassign] at hat
              exact hat.2
            exited := by
              intro n hn
              cases stepMain_exit ht with
              | inl hsame =>
                  rw [hsame, hexit] at hn
                  cases hn
              | inr hlast =>
                  obtain ⟨m, hpc, rfl⟩ := hlast
                  cases hn
                  rw [hpc] at hmain
                  obtain ⟨hn, hleaves, -⟩ := hmain
                  simpa [leaves, hn] using hleaves }
    | usr1 =>
        cases ht
        exact
          { main := fun hreports => h.main (List.forall_mem_cons.mp hreports).2
            handlers := by
              intro calls hcalls
              cases hcalls with
              | tail _ hcalls => exact h.handlers calls hcalls
            unnamed := h.unnamed
            exited := h.exited }
    | signal =>
        cases ht
        exact
          { main := fun hreports => by cases hreports _ List.mem_cons_self
            handlers := by
              intro calls hcalls
              cases hcalls with
              | head => exact h.leaves_new
              | tail _ hcalls => exact h.handlers calls hcalls
            unnamed := h.unnamed
            exited := h.exited }
    | handler => exact h.stepHandler hexit ht
    | kill =>
        cases ht
        exact
          { main := h.main
            handlers := h.handlers
            unnamed := h.unnamed
            exited := nofun }

/-- An exit leaves the object after a failed `shmat`, after a failed `time` of the server that maps
a file, and after a signal between the creation and the assignment, and no other does. As long as
the loop runs and no handler ends the server, the object is there. -/
theorem object_left_iff (h : Reachable step (start mode) s) :
    (∀ n, s.exit = some (.status n) →
      (s.object = true ↔
        n = 4 ∧ mode = .shm ∨ n = 1 ∧ mode = .mmap ∨ n = 0 ∧ s.main = .assign)) ∧
    (s.exit = none → (∀ frame ∈ s.handlers, frame = .report) → serving s.main = true →
      s.object = true) := by
  have hsound : s.Sound := h.invariant (I := Sound) (fun _ _ _ => Sound.step) (Sound.start mode)
  have hmode : s.mode = mode :=
    h.invariant (I := fun s => s.mode = mode) (fun _ _ _ hs ht => (step_mode ht).trans hs) rfl
  constructor
  · intro n hn
    rw [hsound.exited n hn, forgets, decide_eq_true_iff, or_assoc, hmode]
  · intro _ hreports hserving
    have hmain := hsound.main hreports
    cases hpc : s.main with
    | sleep | time | load | send =>
        rw [hpc] at hmain
        exact hmain.1
    | install | get | assign | truncate | attach | dying =>
        rw [hpc] at hserving
        cases hserving

/-- Another signal than `SIGUSR1` comes before `shmid` is assigned, after one that only reports. -/
theorem object_left_iff_early :
    ∃ s, Reachable step (start .shm) s ∧ s.exit = some (.status 0) ∧ s.object = true := by
  let as : List StatusStep :=
    [.main .ok, .main .ok, .usr1, .handler, .signal, .handler, .handler, .handler]
  have hrun : Reachable step (start .shm) ((run step (start .shm) as).getD (start .shm)) :=
    ⟨as, by decide⟩
  refine ⟨_, hrun, by decide, ?_⟩
  exact ((object_left_iff hrun).1 0 (by decide)).mpr (by decide)

end StatusServer

end SyssoftLabs.Lab5
