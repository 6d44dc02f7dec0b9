import SyssoftLabs.Lab5.TwoThreads

/-!
# Threads without a lock

With `none` the two threads of a round work on the string at the same time, character by character.
Letters may then be doubled, lost, or left in the wrong case. What a byte is modulo 32 always comes
from the string itself.
-/

namespace SyssoftLabs.Lab5

open SyssoftLabs.Framework

variable {len : Nat} {p : UInt8 → Prop} {toy toy' : Toy len}

/-- Every character of the string is of a kind. -/
def AllOf (p : UInt8 → Prop) (toy : Toy len) : Prop := ∀ (k : Nat) (h : k < len), p toy[k]

theorem AllOf.set (h : AllOf p toy) {c : UInt8} (hc : p c) (i : Nat) (hi : i < len) :
    AllOf p (toy.set i c) := by
  intro k hk
  rw [Vector.getElem_set]
  split
  · exact hc
  · exact h k hk

/-- The two changes of case stay within the kind. -/
def Closed (p : UInt8 → Prop) : Prop :=
  ∀ c, p c → p (c - upperA + lowerA) ∧ p (c - lowerA + upperA)

/-! ## The sections -/

/-- What `reverse` has read is of the kind. -/
def Reversing.Carries (p : UInt8 → Prop) : Reversing len → Prop
  | .loop _ _ => True
  | .first _ _ c => p c
  | .second _ _ c d => p c ∧ p d
  | .third _ _ c => p c

/-- What `change_register` is about to write is of the kind. -/
def Changing.Carries (p : UInt8 → Prop) : Changing len → Prop
  | .write _ _ c => p c
  | .loop _ _ | .upper _ _ | .toLower _ _ | .toUpper _ _ => True

theorem Reversing.Carries.step {l l' : Reversing len} (hl : l.Carries p) (htoy : AllOf p toy)
    (h : l.step toy = some (l', toy')) : l'.Carries p ∧ AllOf p toy' := by
  cases l with
  | loop j i =>
      rw [Reversing.step] at h
      split at h
      · split at h
        · next hi =>
            cases h
            exact ⟨htoy _ _, htoy⟩
        · cases h
          exact ⟨trivial, htoy⟩
      · cases h
  | first j i c =>
      cases h
      exact ⟨⟨hl, htoy _ _⟩, htoy⟩
  | second j i c d =>
      cases h
      exact ⟨hl.1, htoy.set hl.2 _ _⟩
  | third j i c =>
      cases h
      exact ⟨trivial, htoy.set hl _ _⟩

theorem Changing.Carries.step {l l' : Changing len} (hp : Closed p) (hl : l.Carries p)
    (htoy : AllOf p toy) (h : l.step toy = some (l', toy')) : l'.Carries p ∧ AllOf p toy' := by
  cases l with
  | loop j i =>
      rw [Changing.step] at h
      split at h
      · split at h
        · cases h
          split
          · exact ⟨trivial, htoy⟩
          · exact ⟨trivial, htoy⟩
        · cases h
          exact ⟨trivial, htoy⟩
      · cases h
  | upper j i =>
      cases h
      split
      · exact ⟨trivial, htoy⟩
      · exact ⟨trivial, htoy⟩
  | toLower j i =>
      cases h
      exact ⟨(hp _ (htoy _ _)).1, htoy⟩
  | toUpper j i =>
      cases h
      exact ⟨(hp _ (htoy _ _)).2, htoy⟩
  | write j i c =>
      cases h
      exact ⟨trivial, htoy.set hl _ _⟩

/-! ## The threads -/

namespace Thread

variable {Local : Type} {sync : SyncType} {body : Section (Toy len) Local} {q : Local → Prop}

/-- A thread inside its section has a local state of the kind. -/
def Carries (q : Local → Prop) : Thread Local → Prop
  | .inside l => q l
  | .idle | .waiting | .finished | .joined => True

theorem Carries.step {t t' : Thread Local} {value value' : Nat} (hstart : q body.start)
    (hstep : ∀ l l' toy toy', q l → AllOf p toy → body.step l toy = some (l', toy') →
      q l' ∧ AllOf p toy')
    (ht : t.Carries q) (htoy : AllOf p toy)
    (h : t.step sync body value toy = some (t', value', toy')) : t'.Carries q ∧ AllOf p toy' := by
  cases t with
  | idle => cases h
  | finished => cases h
  | joined => cases h
  | waiting =>
      rw [Thread.step, Option.map_eq_some_iff] at h
      obtain ⟨taken, -, heq⟩ := h
      cases heq
      exact ⟨hstart, htoy⟩
  | inside l =>
      rw [Thread.step] at h
      split at h
      · next hbody =>
          cases h
          exact hstep _ _ _ _ ht htoy hbody
      · obtain ⟨left, -, heq⟩ := Option.map_eq_some_iff.mp h
        cases heq
        exact ⟨trivial, htoy⟩

end Thread

namespace Rounds

variable {sync : SyncType} {s t : Rounds len} {party : Party}

/-- All characters in the string, in the threads and on the lines are of the kind. -/
structure Carries (p : UInt8 → Prop) (s : Rounds len) : Prop where
  toy : AllOf p s.toy
  reverse : s.reverse.Carries (Reversing.Carries p)
  register : s.register.Carries (Changing.Carries p)
  lines : ∀ line ∈ s.printed, AllOf p line

theorem Carries.stepMain (hs : Carries p s) (h : s.stepMain = some t) : Carries p t := by
  obtain ⟨htoy, hreverse, hregister, hlines⟩ := hs
  rw [Rounds.stepMain] at h
  split at h
  · cases h
    exact ⟨htoy, trivial, hregister, hlines⟩
  · cases h
    exact ⟨htoy, hreverse, trivial, hlines⟩
  · split at h
    · cases h
      exact ⟨htoy, trivial, hregister, hlines⟩
    · cases h
  · split at h
    · cases h
      exact ⟨htoy, hreverse, trivial, hlines⟩
    · cases h
  · cases h
    refine ⟨htoy, trivial, trivial, fun line hline => ?_⟩
    rcases List.mem_append.mp hline with hline | hline
    · exact hlines line hline
    · rw [List.mem_singleton.mp hline]
      exact htoy

theorem Carries.step (hp : Closed p) (hs : Carries p s) (h : s.step sync party = some t) :
    Carries p t := by
  cases party with
  | main => exact hs.stepMain h
  | reverse =>
      rw [Rounds.step, Option.map_eq_some_iff] at h
      obtain ⟨⟨thread, value, string⟩, hthread, rfl⟩ := h
      obtain ⟨hcarries, htoy⟩ := hs.reverse.step (p := p) trivial
        (fun _ _ _ _ hl htoy hstep => Reversing.Carries.step hl htoy hstep) hs.toy hthread
      exact ⟨htoy, hcarries, hs.register, hs.lines⟩
  | register =>
      rw [Rounds.step, Option.map_eq_some_iff] at h
      obtain ⟨⟨thread, value, string⟩, hthread, rfl⟩ := h
      obtain ⟨hcarries, htoy⟩ := hs.register.step (p := p) trivial
        (fun _ _ _ _ hl htoy hstep => Changing.Carries.step hp hl htoy hstep) hs.toy hthread
      exact ⟨htoy, hs.reverse, hcarries, hs.lines⟩

end Rounds

/-- Modulo 32 the byte is one of the string. -/
def Kin (toy : Toy len) (c : UInt8) : Prop := ∃ (j : Nat) (h : j < len), c % 32 = toy[j] % 32

private theorem change_mod (c : UInt8) :
    (c - upperA + lowerA) % 32 = c % 32 ∧ (c - lowerA + upperA) % 32 = c % 32 := by
  apply forall_byte (p := fun c =>
    (c - upperA + lowerA) % 32 = c % 32 ∧ (c - lowerA + upperA) % 32 = c % 32)
  decide +kernel

private theorem closed_kin (toy : Toy len) : Closed (Kin toy) := by
  rintro c ⟨j, hj, hc⟩
  exact ⟨⟨j, hj, (change_mod c).1.trans hc⟩, ⟨j, hj, (change_mod c).2.trans hc⟩⟩

/-- With and without a lock, the bytes of the string and of every line are those of the first string
modulo 32. -/
theorem bytes_mod_32 {sync : SyncType} {value : Nat} {s : Rounds len}
    (h : Reachable (Rounds.step sync) (Rounds.start sync value toy) s) :
    (∀ (k : Nat) (hk : k < len), ∃ (j : Nat) (hj : j < len), s.toy[k] % 32 = toy[j] % 32) ∧
      ∀ row ∈ s.printed, ∀ (k : Nat) (hk : k < len),
        ∃ (j : Nat) (hj : j < len), row[k] % 32 = toy[j] % 32 := by
  have hs : Rounds.Carries (Kin toy) s := by
    refine h.invariant (fun _ _ _ hs ht => hs.step (closed_kin toy) ht)
      ⟨?_, trivial, trivial, nofun⟩
    exact fun k hk => ⟨k, hk, rfl⟩
  exact ⟨hs.toy, hs.lines⟩

/-- Without a lock `ab` may become `Ba`, and no more than that. -/
theorem bytes_mod_32_ab :
    ∃ s, Reachable (Rounds.step .none) (Rounds.start .none 0 (#v[97, 98] : Toy 2)) s ∧
      s.printed = [#v[66, 97]] ∧
      ∀ row ∈ s.printed, ∀ (k : Nat) (hk : k < 2), ∃ (j : Nat) (hj : j < 2),
        row[k] % 32 = (#v[97, 98] : Toy 2)[j] % 32 := by
  have hrun : ((run (Rounds.step .none) (Rounds.start .none 0 (#v[97, 98] : Toy 2))
      ([.main, .main, .reverse, .reverse] ++ List.replicate 47 .register ++
        List.replicate 25 .reverse ++ [.main, .main, .main])).map Rounds.printed) =
      some [#v[66, 97]] := by decide +kernel
  obtain ⟨s, hs, hlines⟩ := Option.map_eq_some_iff.mp hrun
  exact ⟨s, ⟨_, hs⟩, hlines, (bytes_mod_32 ⟨_, hs⟩).2⟩

end SyssoftLabs.Lab5
