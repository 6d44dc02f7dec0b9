import Mathlib.Data.List.Basic

/-!
# The status service

A server that publishes its state when a second has passed, and clients that ask for it. The state
travels through a shared memory segment, a mapped file or a message queue; each publication and each
request is one step.
-/

namespace SyssoftLabs.Lab5

/-- `struct state`; `Load` is the type of a load average. -/
structure Status (Load : Type) where
  startTime : Int
  workingTime : Int
  pid : Nat
  uid : Nat
  gid : Nat
  loadavg : Vector Load 3
deriving DecidableEq, Repr

/-- A round of the server with a reading of the clock and the load averages, or a request. -/
inductive StatusEvent (Load : Type)
  | round (currentTime : Int) (loadavg : Vector Load 3)
  | request
deriving DecidableEq, Repr

variable {Load : Type}

/-- `update`: the state behind it, and whether it has changed. -/
def update (state : Status Load) (currentTime : Int) (loadavg : Vector Load 3) :
    Status Load × Bool :=
  if currentTime - state.startTime > state.workingTime then
    ({ state with workingTime := currentTime - state.startTime, loadavg := loadavg }, true)
  else (state, false)

/-! ## The transports -/

/-- What lies between the server and its clients. A request gets a state or fails. -/
structure Transport (Load Medium : Type) where
  publish : Status Load → Medium → Medium
  request : Medium → Option (Status Load) × Medium

/-- `memcpy` into the segment, and a client that reads it. -/
def shm : Transport Load (Status Load) where
  publish := fun state _ => state
  request := fun segment => (some segment, segment)

/-- The same with a mapped file. -/
def mmap : Transport Load (Status Load) where
  publish := fun state _ => state
  request := fun file => (some file, file)

/-- `msgsnd`, and `msgrcv` with `IPC_NOWAIT`. -/
def msg : Transport Load (List (Status Load)) where
  publish := fun state queue => queue ++ [state]
  request := fun queue => (queue.head?, queue.tail)

@[simp] theorem shm_request (segment : Status Load) :
    shm.request segment = (some segment, segment) := rfl

@[simp] theorem mmap_request (file : Status Load) : mmap.request file = (some file, file) := rfl

@[simp] theorem msg_request (queue : List (Status Load)) :
    msg.request queue = (queue.head?, queue.tail) := rfl

/-- The answers to the requests of a schedule, each beside the state published last. -/
def serve {Medium : Type} (transport : Transport Load Medium) :
    Status Load → Medium → Option (Status Load) → List (StatusEvent Load) →
      List (Option (Status Load) × Option (Status Load))
  | _, _, _, [] => []
  | state, medium, last, .round currentTime loadavg :: events =>
      match update state currentTime loadavg with
      | (state, true) => serve transport state (transport.publish state medium) (some state) events
      | (state, false) => serve transport state medium last events
  | state, medium, last, .request :: events =>
      ((transport.request medium).1, last) ::
        serve transport state (transport.request medium).2 last events

/-- Who gets a state gets the one published last. -/
def UpToDate (answers : List (Option (Status Load) × Option (Status Load))) : Prop :=
  ∀ answer ∈ answers, answer.1.isSome = true → answer.1 = answer.2

/-- Since the last request, `unread` states have been published. There is exactly one before every
request. -/
def OnePerRequest (startTime : Int) : Int → Nat → List (StatusEvent Load) → Prop
  | _, _, [] => True
  | workingTime, unread, .round currentTime _ :: events =>
      if currentTime - startTime > workingTime then
        OnePerRequest startTime (currentTime - startTime) (unread + 1) events
      else OnePerRequest startTime workingTime unread events
  | workingTime, unread, .request :: events =>
      unread = 1 ∧ OnePerRequest startTime workingTime 0 events

/-! ## Agreement -/

variable {state segment file s : Status Load} {last : Option (Status Load)}
  {queue : List (Status Load)} {currentTime : Int} {loadavg : Vector Load 3}

/-- The states in the queue were published one after the other, the last of them last of all, and
the memory of the other transports holds what was published last. -/
structure Delivered (state segment file : Status Load) (last : Option (Status Load))
    (queue : List (Status Load)) : Prop where
  ascending : queue.Pairwise fun s t => s.workingTime < t.workingTime
  below : ∀ s ∈ queue, s.workingTime ≤ state.workingTime
  latest : ∀ s, queue.getLast? = some s → last = some s
  memory : ∀ s, last = some s → segment = s ∧ file = s

theorem Delivered.start (state segment file : Status Load) :
    Delivered state segment file none [] where
  ascending := List.Pairwise.nil
  below := fun s hs => by cases hs
  latest := fun s hs => by cases hs
  memory := fun s hs => by cases hs

private theorem Delivered.publish (h : Delivered state segment file last queue)
    (hlater : state.workingTime < s.workingTime) :
    Delivered s s s (some s) (queue ++ [s]) := by
  refine ⟨?_, ?_, ?_, fun t ht => ?_⟩
  · rw [List.pairwise_append]
    refine ⟨h.ascending, List.pairwise_singleton _ _, fun t ht u hu => ?_⟩
    rw [List.mem_singleton.mp hu]
    exact Int.lt_of_le_of_lt (h.below t ht) hlater
  · intro t ht
    rcases List.mem_append.mp ht with ht | ht
    · exact Int.le_of_lt (Int.lt_of_le_of_lt (h.below t ht) hlater)
    · cases List.mem_singleton.mp ht
      exact Int.le_refl _
  · intro t ht
    simpa using ht
  · cases ht
    exact ⟨rfl, rfl⟩

private theorem Delivered.head_eq_last (h : Delivered state segment file last queue)
    (hhead : queue.head? = some s) (hlast : last = some s) : queue = [s] := by
  obtain ⟨rest, rfl⟩ : ∃ rest, queue = s :: rest := by
    cases queue with
    | nil => cases hhead
    | cons t rest =>
        cases hhead
        exact ⟨rest, rfl⟩
  cases rest with
  | nil => rfl
  | cons t rest =>
      obtain ⟨u, hu⟩ : ∃ u, (t :: rest).getLast? = some u :=
        ⟨_, List.getLast?_eq_some_getLast (List.cons_ne_nil t rest)⟩
      have hmem : u ∈ t :: rest := List.mem_of_getLast? hu
      have hlatest : last = some u := h.latest u (by rw [List.getLast?_cons_cons]; exact hu)
      rw [hlast] at hlatest
      cases hlatest
      exact absurd (List.rel_of_pairwise_cons h.ascending hmem) (Int.lt_irrefl _)

private theorem upToDate_cons {answer : Option (Status Load) × Option (Status Load)}
    {answers : List (Option (Status Load) × Option (Status Load))} :
    UpToDate (answer :: answers) ↔
      (answer.1.isSome = true → answer.1 = answer.2) ∧ UpToDate answers :=
  List.forall_mem_cons

private theorem serve_agree_iff (events : List (StatusEvent Load))
    (h : Delivered state segment file last queue) :
    (UpToDate (serve shm state segment last events) ∧
      UpToDate (serve mmap state file last events) ∧ UpToDate (serve msg state queue last events) ∧
      (serve shm state segment last events).map Prod.fst =
        (serve msg state queue last events).map Prod.fst ∧
      (serve mmap state file last events).map Prod.fst =
        (serve msg state queue last events).map Prod.fst) ↔
    OnePerRequest state.startTime state.workingTime queue.length events := by
  induction events generalizing state segment file last queue with
  | nil => simp [serve, UpToDate, OnePerRequest]
  | cons event events ih =>
      cases event with
      | round currentTime loadavg =>
          by_cases hnew : currentTime - state.startTime > state.workingTime
          · have hpublish := h.publish (s := { state with
              workingTime := currentTime - state.startTime, loadavg := loadavg }) hnew
            have hiff := ih hpublish
            simp only [serve, update, OnePerRequest, if_pos hnew]
            rw [List.length_append, List.length_singleton] at hiff
            exact hiff
          · simp only [serve, update, OnePerRequest, if_neg hnew]
            exact ih h
      | request =>
          simp only [serve, OnePerRequest, upToDate_cons, List.map_cons, List.cons.injEq]
          cases queue with
          | nil =>
              constructor
              · rintro ⟨-, -, -, ⟨hsame, -⟩, -⟩
                cases hsame
              · rintro ⟨hone, -⟩
                cases hone
          | cons s rest =>
              cases rest with
              | nil =>
                  have hlast : last = some s := h.latest s rfl
                  obtain ⟨hsegment, hfile⟩ := h.memory s hlast
                  subst hsegment hfile
                  have hrest : Delivered state file file last [] :=
                    ⟨List.Pairwise.nil, by simp, by simp, h.memory⟩
                  have hiff := ih hrest
                  rw [hlast] at hiff ⊢
                  simp only [shm_request, mmap_request, msg_request, List.head?_cons,
                    List.tail_cons, List.length_singleton, implies_true, true_and]
                  exact hiff
              | cons t rest =>
                  constructor
                  · rintro ⟨-, -, ⟨hfresh, -⟩, -, -⟩
                    have hlast : last = some s := (hfresh rfl).symm
                    have halone := h.head_eq_last (s := s) rfl hlast
                    cases halone
                  · rintro ⟨hone, -⟩
                    simp at hone

/-- The three transports agree, and give every client that gets a state the latest one, exactly if
one state is published between two requests, and one before the first. -/
theorem transports_agree_iff (state segment file : Status Load)
    (events : List (StatusEvent Load)) :
    (UpToDate (serve shm state segment none events) ∧
      UpToDate (serve mmap state file none events) ∧ UpToDate (serve msg state [] none events) ∧
      (serve shm state segment none events).map Prod.fst =
        (serve msg state [] none events).map Prod.fst ∧
      (serve mmap state file none events).map Prod.fst =
        (serve msg state [] none events).map Prod.fst) ↔
    OnePerRequest state.startTime state.workingTime 0 events :=
  serve_agree_iff events (Delivered.start state segment file)

/-- After two seconds without a client, the message queue answers with the state of the first. -/
theorem transports_agree_fails :
    ¬UpToDate (serve msg ⟨0, 0, 7, 0, 0, #v[0, 0, 0]⟩ [] none
      [.round 1 #v[5, 0, 0], .round 2 #v[6, 0, 0], .request]) := by
  intro h
  have hanswer := h (some ⟨0, 1, 7, 0, 0, #v[5, 0, 0]⟩, some ⟨0, 2, 7, 0, 0, #v[6, 0, 0]⟩)
    (by decide) rfl
  revert hanswer
  decide

end SyssoftLabs.Lab5
