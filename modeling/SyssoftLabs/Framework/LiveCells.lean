import Mathlib.Data.Finset.Card
import Mathlib.Data.Finset.Range
import SyssoftLabs.Framework.Heap

/-!
# Counting the cells of a heap

How many cells are allocated and not freed, and how many more a program leaves behind, as a rule
for each operation and for the composition of two programs.
-/

namespace SyssoftLabs.Framework

variable {ν : Type}

/-- The addresses of the cells that are allocated and not freed. -/
def Heap.live (h : Heap ν) : Finset Nat :=
  (Finset.range h.fresh).filter fun a => (h.cell a).isSome

namespace Heap

variable {h h' : Heap ν} {a : Nat} {v : ν}

theorem mem_live : a ∈ h.live ↔ (h.cell a).isSome := by
  rw [live, Finset.mem_filter, Finset.mem_range]
  constructor
  · exact And.right
  · intro hcell
    refine ⟨?_, hcell⟩
    by_contra hlt
    rw [h.unused a (Nat.le_of_not_lt hlt)] at hcell
    cases hcell

theorem mem_live_of_cell (hcell : h.cell a = some v) : a ∈ h.live := by
  rw [mem_live, hcell]
  rfl

@[simp] theorem empty_live (grants : Nat → Bool) : (empty grants : Heap ν).live = ∅ := rfl

@[simp] theorem set_live (ha : h.cell a ≠ none) : (h.set a v ha).live = h.live := by
  ext b
  rw [mem_live, mem_live, set_cell]
  split
  · next hb =>
      rw [hb]
      exact iff_of_true rfl (Option.isSome_iff_ne_none.mpr ha)
  · rfl

theorem push_live (h : Heap ν) (v : ν) : (h.push v).live = insert h.fresh h.live := by
  ext b
  rw [Finset.mem_insert, mem_live, mem_live, push_cell]
  split
  · next hb => exact iff_of_true rfl (Or.inl hb)
  · next hb => exact ⟨Or.inr, fun hlive => hlive.resolve_left hb⟩

theorem erase_live (h : Heap ν) (a : Nat) : (h.erase a).live = h.live.erase a := by
  ext b
  rw [Finset.mem_erase, mem_live, mem_live, erase_cell]
  split
  · next hb => exact iff_of_false (by simp) fun hlive => hlive.1 hb
  · next hb => exact ⟨fun hlive => ⟨hb, hlive⟩, And.right⟩

theorem push_card (h : Heap ν) (v : ν) : (h.push v).live.card = h.live.card + 1 := by
  rw [push_live, Finset.card_insert_of_notMem]
  rw [mem_live, h.unused _ (Nat.le_refl _)]
  simp

theorem erase_card (hcell : h.cell a = some v) : (h.erase a).live.card + 1 = h.live.card := by
  rw [erase_live, Finset.card_erase_add_one (mem_live_of_cell hcell)]

end Heap

/-! ## What a program leaves behind -/

/-- No allocation fails. -/
def Heap.Grants (h : Heap ν) : Prop := ∀ n, h.grants n = true

/-- As long as no allocation fails, the program ends in a fault or with so many cells more. -/
def Adds {β : Type} (n : Nat) (x : HeapM ν β) : Prop :=
  ∀ ⦃h : Heap ν⦄ ⦃b : β⦄ ⦃h' : Heap ν⦄, h.Grants → x h = .ok (b, h') →
    h'.Grants ∧ h'.live.card = h.live.card + n

section

variable {β γ : Type} {m n : Nat}

theorem Adds.pure (b : β) : Adds 0 (Pure.pure b : HeapM ν β) := by
  intro h b' h' hg hrun
  cases hrun
  exact ⟨hg, rfl⟩

theorem Adds.bind {x : HeapM ν β} {k : β → HeapM ν γ} (hx : Adds m x)
    (hk : ∀ b, Adds n (k b)) : Adds (m + n) (x >>= k) := by
  intro h c h'' hg hrun
  change (x h >>= fun p => k p.1 p.2) = _ at hrun
  cases hxr : x h with
  | error e =>
      rw [hxr] at hrun
      cases hrun
  | ok p =>
      rw [hxr] at hrun
      obtain ⟨hg', hcard⟩ := hx hg hxr
      obtain ⟨hg'', hcard'⟩ := hk p.1 hg' hrun
      exact ⟨hg'', by omega⟩

theorem Adds.after {x : HeapM ν β} {k : β → HeapM ν γ} (hx : Adds 0 x) (hk : ∀ b, Adds n (k b)) :
    Adds n (x >>= k) := by
  have hbind := hx.bind hk
  rwa [Nat.zero_add] at hbind

theorem Adds.before {x : HeapM ν β} {k : β → HeapM ν γ} (hx : Adds n x) (hk : ∀ b, Adds 0 (k b)) :
    Adds n (x >>= k) := hx.bind hk

theorem Adds.ite {c : Prop} [Decidable c] {x y : HeapM ν β} (hx : Adds n x) (hy : Adds n y) :
    Adds n (if c then x else y) := by
  split
  · exact hx
  · exact hy

theorem Adds.malloc (v : ν) : Adds 1 (Framework.malloc v) := by
  intro h p h' hg hrun
  rw [malloc_granted v (hg _)] at hrun
  cases hrun
  exact ⟨hg, h.push_card v⟩

theorem Adds.load (p : Ptr) : Adds 0 (Framework.load p : HeapM ν ν) := by
  intro h v h' hg hrun
  cases p with
  | none => cases hrun
  | some a =>
      cases hv : h.cell a with
      | none =>
          simp only [Framework.load, hv] at hrun
          cases hrun
      | some w =>
          rw [load_live hv] at hrun
          cases hrun
          exact ⟨hg, rfl⟩

theorem Adds.store (p : Ptr) (f : ν → ν) : Adds 0 (Framework.store p f) := by
  intro h u h' hg hrun
  cases p with
  | none => cases hrun
  | some a =>
      cases hv : h.cell a with
      | none =>
          dsimp only [Framework.store] at hrun
          split at hrun
          · cases hrun
          · next w hw => cases hv.symm.trans hw
      | some w =>
          rw [store_live f hv] at hrun
          cases hrun
          exact ⟨hg, by rw [Heap.set_live]; rfl⟩

end

end SyssoftLabs.Framework
