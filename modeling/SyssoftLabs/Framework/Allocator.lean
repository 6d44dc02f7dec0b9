import Mathlib.Data.List.Infix
import Mathlib.Order.Basic

/-!
# Strings in blocks that are too small

An allocator rounds up the sizes it is asked for. What a program puts behind the rounded size lies
in the bytes of the allocator, and is lost when these are used again.
-/

namespace SyssoftLabs.Framework

/-- How long a block really is, by the length that was asked for. -/
structure Allocator where
  usable : Nat → Nat
  le_usable : ∀ n, n ≤ usable n
  two_le : ∀ n, 2 ≤ usable n

/-- An allocator, with what stands behind its blocks up to the first terminator. -/
structure Arena {α : Type} (stop : α) extends Allocator where
  behind : Nat → List α
  clean : ∀ n, stop ∉ behind n

/-- Blocks that end eight bytes below a multiple of sixteen, the shortest at 24. -/
def Allocator.aligned : Allocator where
  usable n := max 24 ((n + 23) / 16 * 16 - 8)
  le_usable n := by omega
  two_le n := by omega

variable {α : Type} {stop : α}

namespace Allocator

/-- A block of this length holds the string with its terminator. -/
def Fits (a : Allocator) (n : Nat) (s : List α) : Prop := s.length < a.usable n

instance (a : Allocator) (n : Nat) (s : List α) : Decidable (a.Fits n s) :=
  inferInstanceAs (Decidable (s.length < a.usable n))

theorem fits_of_lt {a : Allocator} {n : Nat} {s : List α} (h : s.length < n) : a.Fits n s :=
  Nat.lt_of_lt_of_le h (a.le_usable n)

theorem fits_singleton (a : Allocator) (n : Nat) (c : α) : a.Fits n [c] := a.two_le n

/-- The same element `n` times behind every block. -/
def filled (a : Allocator) {c : α} (hc : stop ≠ c) (n : Nat) : Arena stop where
  toAllocator := a
  behind _ := List.replicate n c
  clean _ h := hc (List.eq_of_mem_replicate h)

end Allocator

namespace Arena

/-- What a reader finds later of a string that was put into a block of length `n`. -/
def kept (mem : Arena stop) (n : Nat) (s : List α) : List α :=
  if mem.Fits n s then s else s.take (mem.usable n) ++ mem.behind n

variable {mem : Arena stop} {n : Nat} {s : List α}

theorem kept_of_fits (h : mem.Fits n s) : mem.kept n s = s := if_pos h

theorem prefix_kept (h : s.length ≤ n) : s <+: mem.kept n s := by
  by_cases hfits : mem.Fits n s
  · rw [kept_of_fits hfits]
  · have hle := mem.le_usable n
    rw [kept, if_neg hfits, List.take_of_length_le (by omega)]
    exact List.prefix_append _ _

theorem length_kept (h : ¬ mem.Fits n s) :
    (mem.kept n s).length = mem.usable n + (mem.behind n).length := by
  rw [kept, if_neg h, List.length_append, List.length_take, Nat.min_eq_left (Nat.le_of_not_lt h)]

/-- A string that comes out as it is has not lost its terminator. -/
theorem kept_eq_self_iff (h : s.length < n + (mem.behind n).length) :
    mem.kept n s = s ↔ mem.Fits n s := by
  refine ⟨fun heq => ?_, kept_of_fits⟩
  by_contra hfits
  have hlength := length_kept hfits
  have hle := mem.le_usable n
  rw [heq] at hlength
  omega

theorem stop_notMem_kept (hs : stop ∉ s) : stop ∉ mem.kept n s := by
  rw [kept]
  split
  · exact hs
  · rw [List.mem_append, not_or]
    exact ⟨fun hmem => hs (List.mem_of_mem_take hmem), mem.clean n⟩

end Arena

end SyssoftLabs.Framework
