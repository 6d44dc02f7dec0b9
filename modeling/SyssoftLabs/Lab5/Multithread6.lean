import Mathlib.Data.List.TakeWhile
import SyssoftLabs.Framework.Mutex
import SyssoftLabs.Lab5.Puts

/-!
# Printing under the mutex

`multithread6` reverses the string, changes its case and prints it in three loops, and all of them
take the same mutex. Unlike that of `multithread7` its `main` never prints half of a change.
-/

namespace SyssoftLabs.Lab5

open SyssoftLabs.Framework

variable {len : Nat}

/-! ## The loops -/

/-- The loops, in the order of `pthread_create`; that of `main` is the last one. -/
inductive Loop6
  | reverse
  | changeRegister
  | main
deriving DecidableEq, Repr

/-- Where a loop stands under the mutex; `main` with the characters that `puts` has read. -/
def Loop6.Local (len : Nat) : Loop6 → Type
  | .reverse => Reversing len
  | .changeRegister => Changing len
  | .main => List UInt8

/-- `puts`, up to the terminator, with the line. -/
def putsTask (len : Nat) : Task (Toy len) (List UInt8) (Option (List UInt8)) where
  start := []
  step line toy :=
    match toy.toList[line.length]? with
    | some c => if c = 0 then .inr (some line) else .inl (line ++ [c], toy)
    | none => .inr (some line)
  rest line toy := (toy, some (line ++ (toy.toList.drop line.length).takeWhile (· ≠ 0)))
  rest_step line toy line' toy' h := by
    split at h
    · next c hc =>
        split at h
        · cases h
        · next hnonzero =>
            cases h
            obtain ⟨hlt, heq⟩ := List.getElem?_eq_some_iff.mp hc
            have hdrop : toy.toList.drop line.length = c :: toy.toList.drop (line.length + 1) := by
              rw [List.drop_eq_getElem_cons hlt, heq]
            rw [hdrop, List.takeWhile_cons_of_pos (by simpa using hnonzero), List.length_append,
              List.length_singleton, List.append_assoc, List.singleton_append]
    · cases h
  rest_end line toy r h := by
    split at h
    · next c hc =>
        split at h
        · next hzero =>
            cases h
            obtain ⟨hlt, heq⟩ := List.getElem?_eq_some_iff.mp hc
            rw [List.drop_eq_getElem_cons hlt, heq, List.takeWhile_cons_of_neg
              (by simpa using hzero), List.append_nil]
        · cases h
    · next hend =>
        cases h
        rw [List.drop_eq_nil_of_le (List.getElem?_eq_none_iff.mp hend), List.takeWhile_nil,
          List.append_nil]

/-- What a loop does between `lock` and `unlock`. -/
def Loop6.task (len : Nat) : ∀ kind : Loop6, Task (Toy len) (kind.Local len) (Option (List UInt8))
  | .reverse => (Lab5.reverse len).task none
  | .changeRegister => (Lab5.changeRegister len).task none
  | .main => putsTask len

/-! ## The program -/

/-- The program when both threads have been created. -/
structure Program6 (len : Nat) where
  loops : Locked (Toy len) (Option (List UInt8)) (Loop6.Local len)
  /-- `main` has called `init_sync`. -/
  initialised : Bool

inductive Turn6
  | initSync
  | thread (i : Nat)
  | main
deriving DecidableEq, Repr

namespace Program6

/-- The static mutex is one that nobody holds. -/
def start (toy : Toy len) : Program6 len :=
  ⟨.start [.reverse, .changeRegister, .main] toy, false⟩

def step (s : Program6 len) : Turn6 → Option (Program6 len)
  | .initSync =>
      if s.initialised then none else some ⟨{ s.loops with locked := false }, true⟩
  | .thread i =>
      if i < 2 then (s.loops.step (Loop6.task len) i).map fun loops => ⟨loops, s.initialised⟩
      else none
  | .main =>
      if s.initialised then
        (s.loops.step (Loop6.task len) 2).map fun loops => ⟨loops, s.initialised⟩
      else none

/-- When `init_sync` is called, no thread is inside its section. -/
def Quiet (s : Program6 len) : Turn6 → Prop
  | .initSync => s.loops.locked = false
  | .thread _ | .main => True

instance Quiet.decidable (s : Program6 len) : ∀ turn, Decidable (s.Quiet turn)
  | .initSync => inferInstanceAs (Decidable (s.loops.locked = false))
  | .thread _ | .main => inferInstanceAs (Decidable True)

end Program6

/-! ## One after the other -/

variable {toy : Toy len}

theorem Letters.orbit (h : Letters toy) (a b : Nat) : Letters (orbit a b toy) := by
  have hswap : Letters ((Vector.map swapCase)^[b % 2] toy) := by
    rcases Nat.mod_two_eq_zero_or_one b with hb | hb
    · rw [hb]
      exact h
    · rw [hb]
      exact h.swap
  unfold Lab5.orbit
  rcases Nat.mod_two_eq_zero_or_one a with ha | ha
  · rw [ha]
    exact hswap
  · rw [ha]
    exact hswap.reverse

private theorem letter_ne_zero {c : UInt8} (h : isLetter c = true) : c ≠ 0 := by
  rintro rfl
  exact Bool.noConfusion h

theorem Letters.puts (h : Letters toy) : (putsTask len).effect toy = (toy, some toy.toList) := by
  have hwhole : toy.toList.takeWhile (· ≠ 0) = toy.toList := by
    apply List.takeWhile_eq_self_iff.mpr
    intro c hc
    obtain ⟨k, hk, rfl⟩ := List.mem_iff_getElem.mp hc
    rw [Vector.length_toList] at hk
    simpa using letter_ne_zero (h k hk)
  change (toy, some ([] ++ (toy.toList.drop 0).takeWhile (· ≠ 0))) = _
  rw [List.drop_zero, hwhole, List.nil_append]

@[simp] theorem Loop6.reverse_effect (toy : Toy len) :
    ((Loop6.task len .reverse).effect toy).1 = toy.reverse := Lab5.reverse_effect toy

private theorem Letters.changeRegister_task (h : Letters toy) :
    ((Loop6.task len .changeRegister).effect toy).1 = toy.map swapCase := h.changeRegister

private theorem Letters.main_task (h : Letters toy) :
    (Loop6.task len .main).effect toy = (toy, some toy.toList) := h.puts

theorem Letters.sequential (h : Letters toy) (kinds : List Loop6) :
    sequential (Loop6.task len) toy kinds =
      Lab5.orbit (kinds.count .reverse) (kinds.count .changeRegister) toy := by
  induction kinds using List.reverseRecOn with
  | nil => rfl
  | append_singleton kinds kind ih =>
      have hsofar := h.orbit (kinds.count .reverse) (kinds.count .changeRegister)
      rw [sequential_append, ih, sequential_singleton]
      cases kind with
      | reverse => simp [List.count_append, orbit_reverse]
      | changeRegister => simp [List.count_append, orbit_swap, hsofar.changeRegister_task]
      | main => simp [List.count_append, hsofar.main_task]

/-! ## Runs -/

namespace Program6

variable {s t : Program6 len} {as : List Turn6}

private theorem serial_step {turn : Turn6} (hs : Serial (Loop6.task len) toy s.loops)
    (hok : s.Quiet turn) (h : s.step turn = some t) : Serial (Loop6.task len) toy t.loops := by
  cases turn with
  | initSync =>
      rw [step] at h
      split at h
      · cases h
      · have hfree : s.loops.locked = false := hok
        cases h
        simpa only [← hfree] using hs
  | thread i =>
      rw [step] at h
      split at h
      · obtain ⟨loops, hstep, rfl⟩ := Option.map_eq_some_iff.mp h
        exact hs.step hstep
      · cases h
  | main =>
      rw [step] at h
      split at h
      · obtain ⟨loops, hstep, rfl⟩ := Option.map_eq_some_iff.mp h
        exact hs.step hstep
      · cases h

/-- Whatever the order of the steps, if nobody is inside a section when the mutex is initialised:
a line is the string as the sections that ended before have left it, and so is the string itself
while the mutex is free. -/
theorem lines_whole (hletters : Letters toy) (h : run step (start toy) as = some s)
    (hok : Guarded step Quiet (start toy) as) :
    (∀ before line after, s.loops.ended = before ++ (.main, some line) :: after →
      line = (orbit ((before.map Prod.fst).count .reverse)
        ((before.map Prod.fst).count .changeRegister) toy).toList) ∧
    (s.loops.locked = false → s.loops.shared =
      orbit ((s.loops.ended.map Prod.fst).count .reverse)
        ((s.loops.ended.map Prod.fst).count .changeRegister) toy) := by
  have hs : Serial (Loop6.task len) toy s.loops :=
    run_invariant_of_guarded (fun _ _ _ hs hok hstep => serial_step hs hok hstep) h hok
      (Serial.start _ toy)
  constructor
  · intro before line after hended
    have hline : some line = _ := hs.agrees before (.main, some line) after hended
    rw [hletters.sequential, (hletters.orbit _ _).main_task] at hline
    exact Option.some.inj hline
  · intro hfree
    rw [hs.free hfree, hletters.sequential]

/-- `ab` is reversed, and `main` prints `ba`. -/
theorem lines_whole_ba :
    ∃ s, run step (start (#v[97, 98] : Toy 2))
        ([.initSync] ++ List.replicate 27 (.thread 0) ++ List.replicate 4 .main) = some s ∧
      s.loops.ended =
        [(.reverse, none), (.main, some (orbit 1 0 (#v[97, 98] : Toy 2)).toList)] ∧
      s.loops.shared = #v[98, 97] := by
  have hletters : Letters (#v[97, 98] : Toy 2) := by
    unfold Letters
    decide +kernel
  have hok : Guarded step Quiet (start (#v[97, 98] : Toy 2))
      ([.initSync] ++ List.replicate 27 (.thread 0) ++ List.replicate 4 .main) := by
    decide +kernel
  have hrun : ((run step (start (#v[97, 98] : Toy 2))
      ([.initSync] ++ List.replicate 27 (.thread 0) ++ List.replicate 4 .main)).map
        fun s => (s.loops.locked, s.loops.ended)) =
      some (false, [(.reverse, none), (.main, some [98, 97])]) := by decide +kernel
  obtain ⟨s, hs, hend⟩ := Option.map_eq_some_iff.mp hrun
  obtain ⟨hfree, hended⟩ := Prod.mk.inj hend
  obtain ⟨hlines, hstring⟩ := lines_whole hletters hs hok
  have hline := hlines [(.reverse, none)] [98, 97] [] hended
  have hshared := hstring hfree
  rw [hended] at hshared
  exact ⟨s, hs, hended.trans (by rw [hline]; rfl), hshared.trans (by decide +kernel)⟩

end Program6

end SyssoftLabs.Lab5
