import Mathlib.Logic.Function.Basic

/-!
# Heaps of cells

Memory as a C program sees it through pointers: cells that are allocated, read, written and freed.
An access the language leaves undefined is a fault that ends the program. An allocation may fail;
`grants` says which requests succeed. Addresses are not reused, so that a freed cell stays
recognisable.
-/

namespace SyssoftLabs.Framework

/-- A pointer, `none` for `NULL`. -/
abbrev Ptr := Option Nat

inductive Fault
  | nullDereference
  | danglingAccess
  | indeterminateRead
deriving DecidableEq, Repr

structure Heap (ν : Type*) where
  cell : Nat → Option ν
  /-- The first address never handed out. -/
  fresh : Nat
  unused : ∀ a, fresh ≤ a → cell a = none
  grants : Nat → Bool
  /-- The number of allocations requested so far. -/
  requests : Nat

namespace Heap

variable {ν : Type*}

/-- No cell allocated yet. -/
def empty (grants : Nat → Bool) : Heap ν := ⟨fun _ => none, 0, fun _ _ => rfl, grants, 0⟩

/-- Replace a live cell. -/
def set (h : Heap ν) (a : Nat) (v : ν) (ha : h.cell a ≠ none) : Heap ν where
  cell := Function.update h.cell a (some v)
  fresh := h.fresh
  unused b hb := by
    have hne : b ≠ a := by
      intro he
      subst b
      exact ha (h.unused a hb)
    rw [Function.update_of_ne hne]
    exact h.unused b hb
  grants := h.grants
  requests := h.requests

/-- Release a cell. -/
def erase (h : Heap ν) (a : Nat) : Heap ν where
  cell := Function.update h.cell a none
  fresh := h.fresh
  unused b hb := by
    by_cases he : b = a
    · subst b
      exact Function.update_self ..
    · rw [Function.update_of_ne he]
      exact h.unused b hb
  grants := h.grants
  requests := h.requests

/-- A new live cell at the first unused address. -/
def push (h : Heap ν) (v : ν) : Heap ν where
  cell := Function.update h.cell h.fresh (some v)
  fresh := h.fresh + 1
  unused b hb := by
    rw [Function.update_of_ne (by omega)]
    exact h.unused b (by omega)
  grants := h.grants
  requests := h.requests + 1

/-- A request that was refused. -/
def refuse (h : Heap ν) : Heap ν := { h with requests := h.requests + 1 }

theorem fresh_ne {h : Heap ν} {a : Nat} {v : ν} (ha : h.cell a = some v) : a ≠ h.fresh := by
  intro he
  rw [he, h.unused _ (Nat.le_refl _)] at ha
  cases ha

@[simp] theorem set_fresh (h : Heap ν) (a : Nat) (v : ν) (ha : h.cell a ≠ none) :
    (h.set a v ha).fresh = h.fresh := rfl

theorem set_cell (h : Heap ν) (a b : Nat) (v : ν) (ha : h.cell a ≠ none) :
    (h.set a v ha).cell b = if b = a then some v else h.cell b := by
  simp [set, Function.update_apply]

theorem erase_cell (h : Heap ν) (a b : Nat) :
    (h.erase a).cell b = if b = a then none else h.cell b := by
  simp [erase, Function.update_apply]

theorem push_cell (h : Heap ν) (b : Nat) (v : ν) :
    (h.push v).cell b = if b = h.fresh then some v else h.cell b := by
  simp [push, Function.update_apply]

end Heap

/-- A program over a heap, ended by the first fault. -/
abbrev HeapM (ν : Type) := StateT (Heap ν) (Except Fault)

section Operations

variable {ν : Type}

/-- `malloc`, the content of the new cell given as `v`. -/
def malloc (v : ν) : HeapM ν Ptr := fun h =>
  if h.grants h.requests then .ok (some h.fresh, h.push v) else .ok (none, h.refuse)

/-- Read the cell behind a pointer. -/
def load : Ptr → HeapM ν ν
  | none => fun _ => .error .nullDereference
  | some a => fun h =>
      match h.cell a with
      | none => .error .danglingAccess
      | some v => .ok (v, h)

/-- Change the cell behind a pointer. -/
def store (p : Ptr) (f : ν → ν) : HeapM ν Unit :=
  match p with
  | none => fun _ => .error .nullDereference
  | some a => fun h =>
      match hv : h.cell a with
      | none => .error .danglingAccess
      | some v => .ok ((), h.set a (f v) (by simp [hv]))

/-- `free`, which ignores `NULL`. -/
def free : Ptr → HeapM ν Unit
  | none => fun h => .ok ((), h)
  | some a => fun h =>
      match h.cell a with
      | none => .error .danglingAccess
      | some _ => .ok ((), h.erase a)

theorem malloc_granted (v : ν) {h : Heap ν} (hg : h.grants h.requests = true) :
    malloc v h = .ok (some h.fresh, h.push v) := by
  simp [malloc, hg]

theorem malloc_refused (v : ν) {h : Heap ν} (hg : h.grants h.requests = false) :
    malloc v h = .ok (none, h.refuse) := by
  simp [malloc, hg]

theorem load_live {h : Heap ν} {a : Nat} {v : ν} (hv : h.cell a = some v) :
    load (some a) h = .ok (v, h) := by
  simp [load, hv]

theorem store_live {h : Heap ν} {a : Nat} {v : ν} (f : ν → ν) (hv : h.cell a = some v) :
    store (some a) f h = .ok ((), h.set a (f v) (by simp [hv])) := by
  dsimp only [store]
  split
  · next hn => rw [hv] at hn; cases hn
  · next w hw =>
      rw [hv] at hw
      cases hw
      rfl

theorem free_live {h : Heap ν} {a : Nat} {v : ν} (hv : h.cell a = some v) :
    free (some a) h = .ok ((), h.erase a) := by
  simp [free, hv]

theorem bind_ok {β γ : Type} {x : HeapM ν β} {k : β → HeapM ν γ} {h h' : Heap ν} {b : β}
    (hx : x h = .ok (b, h')) : (x >>= k) h = k b h' := by
  change (x h >>= fun p => k p.1 p.2) = _
  rw [hx]
  rfl

theorem bind_fault {β γ : Type} {x : HeapM ν β} {k : β → HeapM ν γ} {h : Heap ν} {e : Fault}
    (hx : x h = .error e) : (x >>= k) h = .error e := by
  change (x h >>= fun p => k p.1 p.2) = _
  rw [hx]
  rfl

end Operations

end SyssoftLabs.Framework
