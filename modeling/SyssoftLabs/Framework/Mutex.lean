import SyssoftLabs.Framework.History
import SyssoftLabs.Framework.Population
import SyssoftLabs.Framework.Section

/-!
# Threads under one mutex

Any number of threads repeat their tasks on a shared state, and each takes the mutex for the whole
of a task. Whatever the order of their steps, the tasks act as if they were done one after the
other, in the order in which they end.
-/

namespace SyssoftLabs.Framework

variable {Shared Result Kind : Type*}

/-- The steps between a lock and its unlock, and what comes out of them. -/
structure Task (Shared Local Result : Type*) where
  start : Local
  step : Local → Shared → (Local × Shared) ⊕ Result
  /-- What the rest of the task does. -/
  rest : Local → Shared → Shared × Result
  rest_step : ∀ l s l' s', step l s = .inl (l', s') → rest l' s' = rest l s
  rest_end : ∀ l s r, step l s = .inr r → rest l s = (s, r)

/-- What the whole task does. -/
def Task.effect {Local : Type*} (task : Task Shared Local Result) : Shared → Shared × Result :=
  task.rest task.start

/-- A section is a task without a result. -/
def Section.task {Local : Type*} (body : Section Shared Local) (r : Result) :
    Task Shared Local Result where
  start := body.start
  step l s := (body.step l s).elim (.inr r) .inl
  rest l s := (body.rest l s, r)
  rest_step l s l' s' h := by
    cases hstep : body.step l s with
    | none =>
        rw [hstep] at h
        cases h
    | some next =>
        rw [hstep] at h
        cases h
        rw [body.rest_step _ _ _ _ hstep]
  rest_end l s r' h := by
    cases hstep : body.step l s with
    | none =>
        rw [hstep] at h
        cases h
        rw [body.rest_end _ _ hstep]
    | some next =>
        rw [hstep] at h
        cases h

/-! ## The threads -/

variable {Local : Kind → Type*}

/-- A thread, with the kind of its task; `none` outside of the task. -/
structure Repeating (Local : Kind → Type*) where
  kind : Kind
  inside : Option (Local kind)

def Repeating.isInside (w : Repeating Local) : Bool := w.inside.isSome

structure Locked (Shared Result : Type*) (Local : Kind → Type*) where
  shared : Shared
  locked : Bool
  threads : List (Repeating Local)
  /-- The tasks that are over with their results, the first one first. -/
  ended : List (Kind × Result)

namespace Locked

/-- All threads are outside. -/
def start (kinds : List Kind) (shared : Shared) : Locked Shared Result Local :=
  ⟨shared, false, kinds.map fun kind => ⟨kind, none⟩, []⟩

variable (task : ∀ kind, Task Shared (Local kind) Result)

/-- A step of the thread with this index: the lock, a step of its task, or the end of the task and
the unlock. -/
def step (s : Locked Shared Result Local) (i : Nat) : Option (Locked Shared Result Local) :=
  match s.threads[i]? with
  | none => none
  | some ⟨kind, none⟩ =>
      if s.locked then none
      else some { s with
        locked := true, threads := s.threads.set i ⟨kind, some (task kind).start⟩ }
  | some ⟨kind, some l⟩ =>
      match (task kind).step l s.shared with
      | .inl (l, shared) =>
          some { s with shared := shared, threads := s.threads.set i ⟨kind, some l⟩ }
      | .inr r =>
          some { s with
            locked := false, threads := s.threads.set i ⟨kind, none⟩
            ended := s.ended ++ [(kind, r)] }

end Locked

/-! ## One after the other -/

variable (task : ∀ kind, Task Shared (Local kind) Result)

/-- What the tasks make of the shared state, one after the other. -/
def sequential (s : Shared) (kinds : List Kind) : Shared :=
  kinds.foldl (fun s kind => ((task kind).effect s).1) s

@[simp] theorem sequential_nil (s : Shared) : sequential task s [] = s := rfl

@[simp] theorem sequential_append (s : Shared) (before after : List Kind) :
    sequential task s (before ++ after) = sequential task (sequential task s before) after :=
  List.foldl_append

@[simp] theorem sequential_singleton (s : Shared) (kind : Kind) :
    sequential task s [kind] = ((task kind).effect s).1 := rfl

/-- The result is that of the task on what the tasks before it have made of the state. -/
def Agrees (s : Shared) (before : List (Kind × Result)) (e : Kind × Result) : Prop :=
  e.2 = ((task e.1).effect (sequential task s (before.map Prod.fst))).2

/-! ## The invariant -/

variable {task} {s t : Locked Shared Result Local} {s₀ : Shared} {i : Nat}

/-- The mutex knows whether a thread is inside, the results so far are those of the tasks one after
the other, and the one that is inside is at its own task behind them. -/
structure Serial (task : ∀ kind, Task Shared (Local kind) Result) (s₀ : Shared)
    (s : Locked Shared Result Local) : Prop where
  count : s.threads.countP Repeating.isInside = s.locked.toNat
  agrees : Grown (Agrees task s₀) s.ended
  free : s.locked = false → s.shared = sequential task s₀ (s.ended.map Prod.fst)
  inside : ∀ kind l, ⟨kind, some l⟩ ∈ s.threads →
    (task kind).rest l s.shared = (task kind).effect (sequential task s₀ (s.ended.map Prod.fst))

theorem Serial.start (kinds : List Kind) (s₀ : Shared) :
    Serial task s₀ (Locked.start kinds s₀) where
  count := by
    apply List.countP_eq_zero.mpr
    intro w hw
    obtain ⟨kind, -, rfl⟩ := List.mem_map.mp hw
    exact Bool.false_ne_true
  agrees := Grown.nil
  free _ := rfl
  inside kind l h := by
    obtain ⟨kind', -, heq⟩ := List.mem_map.mp h
    cases heq

theorem Serial.one_inside (hs : Serial task s₀ s) :
    s.threads.countP Repeating.isInside ≤ 1 := by
  rw [hs.count]
  exact Bool.toNat_le _

theorem Serial.alone (hs : Serial task s₀ s) {w w' u : Repeating Local}
    (hi : s.threads[i]? = some w) (hw : w.isInside = true) (hu : u ∈ s.threads.set i w') :
    u = w' ∨ u.inside = none := by
  rcases of_mem_set_alone hi hw hs.one_inside hu with heq | ⟨-, hout⟩
  · exact Or.inl heq
  · exact Or.inr (Option.isNone_iff_eq_none.mp (Option.isSome_eq_false_iff.mp hout))

theorem Serial.outside (hs : Serial task s₀ s) (hfree : s.locked = false) :
    ∀ w ∈ s.threads, w.inside = none := by
  have hcount := hs.count
  rw [hfree, Bool.toNat_false, List.countP_eq_zero] at hcount
  intro w hw
  have hout := hcount w hw
  simpa [Repeating.isInside] using hout

theorem Serial.lock {kind : Kind} (hs : Serial task s₀ s) (hi : s.threads[i]? = some ⟨kind, none⟩)
    (hfree : s.locked = false) :
    Serial task s₀ { s with
      locked := true, threads := s.threads.set i ⟨kind, some (task kind).start⟩ } where
  count := by
    have henter := countP_set_enter (b := ⟨kind, some (task kind).start⟩)
      (p := Repeating.isInside) hi rfl rfl
    rw [hs.count, hfree] at henter
    exact henter
  agrees := hs.agrees
  free := nofun
  inside kind' l' h := by
    rcases of_mem_set h with heq | ⟨j, -, hj⟩
    · cases heq
      exact congrArg (task kind).effect (hs.free hfree)
    · have hout := hs.outside hfree _ (List.mem_of_getElem? hj)
      cases hout

theorem Serial.work {kind : Kind} {l l' : Local kind} {shared : Shared} (hs : Serial task s₀ s)
    (hi : s.threads[i]? = some ⟨kind, some l⟩)
    (hstep : (task kind).step l s.shared = .inl (l', shared)) :
    Serial task s₀ { s with shared := shared, threads := s.threads.set i ⟨kind, some l'⟩ } where
  count := by
    have hsame := countP_set_same (b := ⟨kind, some l'⟩) (p := Repeating.isInside) hi rfl
    exact hsame.trans hs.count
  agrees := hs.agrees
  free hfree := by
    have hin := List.mem_of_getElem? hi
    cases hs.outside hfree _ hin
  inside kind' k h := by
    rcases hs.alone hi rfl h with heq | hout
    · cases heq
      have hold := hs.inside kind l (List.mem_of_getElem? hi)
      exact ((task kind).rest_step _ _ _ _ hstep).trans hold
    · cases hout

theorem Serial.unlock {kind : Kind} {l : Local kind} {r : Result} (hs : Serial task s₀ s)
    (hi : s.threads[i]? = some ⟨kind, some l⟩)
    (hstep : (task kind).step l s.shared = .inr r) :
    Serial task s₀ { s with
      locked := false, threads := s.threads.set i ⟨kind, none⟩
      ended := s.ended ++ [(kind, r)] } := by
  have hold := hs.inside kind l (List.mem_of_getElem? hi)
  rw [(task kind).rest_end _ _ _ hstep] at hold
  constructor
  · have hleave := countP_set_leave (b := ⟨kind, none⟩) (p := Repeating.isInside) hi rfl rfl
    have hone := hs.one_inside
    change (s.threads.set i ⟨kind, none⟩).countP _ = 0
    omega
  · exact hs.agrees.concat (congrArg Prod.snd hold)
  · intro _
    rw [List.map_append, sequential_append]
    exact congrArg Prod.fst hold
  · intro kind' k h
    rcases hs.alone hi rfl h with heq | hout
    · cases heq
    · cases hout

theorem Serial.step (hs : Serial task s₀ s) (h : s.step task i = some t) : Serial task s₀ t := by
  unfold Locked.step at h
  split at h
  · cases h
  · next kind hi =>
      split at h
      · cases h
      · next hfree =>
          cases h
          exact hs.lock hi (by simpa using hfree)
  · next kind l hi =>
      split at h
      · next hstep =>
          cases h
          exact hs.work hi hstep
      · next hstep =>
          cases h
          exact hs.unlock hi hstep

end SyssoftLabs.Framework
