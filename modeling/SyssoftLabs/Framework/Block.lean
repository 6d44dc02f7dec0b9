import SyssoftLabs.Framework.Heap

/-!
# Blocks of memory

A heap whose cells are blocks: lists of places that are read and written one by one. A place outside
of its block is no live memory, so that an access to it is a fault.
-/

namespace SyssoftLabs.Framework

namespace Heap

variable {ν : Type*}

/-- There is no live cell. -/
def Clear (h : Heap ν) : Prop := ∀ a, h.cell a = none

/-- The cell behind the pointer is live, and no other one is. -/
def Only (h : Heap ν) (p : Ptr) (v : ν) : Prop :=
  ∃ a, p = some a ∧ h.cell a = some v ∧ ∀ b, b ≠ a → h.cell b = none

theorem clear_empty (grants : Nat → Bool) : (empty grants : Heap ν).Clear := fun _ => rfl

end Heap

section

variable {α : Type}

/-- `p[i]` -/
def loadAt (p : Ptr) (i : Nat) : HeapM (List α) α := do
  let block ← load p
  if h : i < block.length then return block[i] else throw .danglingAccess

/-- `p[i] = x` -/
def storeAt (p : Ptr) (i : Nat) (x : α) : HeapM (List α) Unit := do
  let block ← load p
  if i < block.length then store p fun block => block.set i x else throw .danglingAccess

/-- `malloc`, where `content n` is what the n-th request finds in the new block. -/
def mallocWith (content : Nat → List α) : HeapM (List α) Ptr := fun h =>
  malloc (content h.requests) h

def mallocBlock (memory : Nat → Nat → α) (size : Nat) : HeapM (List α) Ptr :=
  mallocWith fun n => (List.range size).map (memory n)

/-- `realloc` to a larger size. The block always moves, so that the old pointer is of no use. -/
def reallocBlock (memory : Nat → Nat → α) (p : Ptr) (size : Nat) : HeapM (List α) Ptr := do
  let block ← load p
  let q ← mallocWith fun n => block ++ (List.range (size - block.length)).map fun i =>
    memory n (block.length + i)
  if q = none then return none
  free p
  return q

variable {h : Heap (List α)} {p : Ptr} {block : List α} (memory : Nat → Nat → α)

theorem loadAt_only (hp : h.Only p block) {i : Nat} (hi : i < block.length) :
    loadAt p i h = .ok (block[i], h) := by
  obtain ⟨a, rfl, ha, -⟩ := hp
  rw [loadAt, bind_ok (load_live ha), dif_pos hi]
  rfl

theorem storeAt_only (hp : h.Only p block) {i : Nat} (x : α) (hi : i < block.length) :
    ∃ h', storeAt p i x h = .ok ((), h') ∧ h'.Only p (block.set i x) ∧ h'.grants = h.grants ∧
      h'.requests = h.requests := by
  obtain ⟨a, rfl, ha, hother⟩ := hp
  refine ⟨h.set a (block.set i x) (by simp [ha]), ?_, ⟨a, rfl, ?_, ?_⟩, rfl, rfl⟩
  · rw [storeAt, bind_ok (load_live ha), if_pos hi]
    exact store_live _ ha
  · rw [Heap.set_cell, if_pos rfl]
  · intro b hb
    rw [Heap.set_cell, if_neg hb]
    exact hother b hb

theorem loadAt_append {pre rest : List α} {x : α} (hp : h.Only p (pre ++ x :: rest)) :
    loadAt p pre.length h = .ok (x, h) := by
  have hload := loadAt_only hp (i := pre.length) (by simp)
  simpa using hload

theorem storeAt_append {pre rest : List α} {x : α} (hp : h.Only p (pre ++ x :: rest)) (y : α) :
    ∃ h', storeAt p pre.length y h = .ok ((), h') ∧ h'.Only p (pre ++ y :: rest) ∧
      h'.grants = h.grants ∧ h'.requests = h.requests := by
  have hstore := storeAt_only hp (i := pre.length) y (by simp)
  simpa using hstore

theorem mallocWith_granted (content : Nat → List α) (hg : h.grants h.requests = true) :
    mallocWith content h = .ok (some h.fresh, h.push (content h.requests)) :=
  malloc_granted _ hg

theorem mallocWith_refused (content : Nat → List α) (hg : h.grants h.requests = false) :
    mallocWith content h = .ok (none, h.refuse) :=
  malloc_refused _ hg

theorem mallocBlock_clear (hc : h.Clear) (size : Nat) (hg : h.grants h.requests = true) :
    ∃ p h', mallocBlock memory size h = .ok (p, h') ∧
      h'.Only p ((List.range size).map (memory h.requests)) ∧ h'.grants = h.grants ∧
      h'.requests = h.requests + 1 := by
  refine ⟨some h.fresh, _, mallocWith_granted _ hg, ⟨h.fresh, rfl, ?_, ?_⟩, rfl, rfl⟩
  · rw [Heap.push_cell, if_pos rfl]
  · intro b hb
    rw [Heap.push_cell, if_neg hb]
    exact hc b

theorem free_only (hp : h.Only p block) :
    ∃ h', free p h = .ok ((), h') ∧ h'.Clear ∧ h'.grants = h.grants ∧
      h'.requests = h.requests := by
  obtain ⟨a, rfl, ha, hother⟩ := hp
  refine ⟨_, free_live ha, ?_, rfl, rfl⟩
  intro b
  rw [Heap.erase_cell]
  split
  · rfl
  · next hb => exact hother b hb

theorem reallocBlock_granted (hp : h.Only p block) (size : Nat)
    (hg : h.grants h.requests = true) :
    ∃ q h', reallocBlock memory p size h = .ok (q, h') ∧ q ≠ none ∧
      h'.Only q (block ++ (List.range (size - block.length)).map fun i =>
        memory h.requests (block.length + i)) ∧ h'.grants = h.grants ∧
      h'.requests = h.requests + 1 := by
  obtain ⟨a, rfl, ha, hother⟩ := hp
  have hne : a ≠ h.fresh := Heap.fresh_ne ha
  let grown := block ++ (List.range (size - block.length)).map fun i =>
    memory h.requests (block.length + i)
  have ha₁ : (h.push grown).cell a = some block := by rw [Heap.push_cell, if_neg hne, ha]
  refine ⟨some h.fresh, (h.push grown).erase a, ?_, Option.some_ne_none _,
    ⟨h.fresh, rfl, ?_, ?_⟩, rfl, rfl⟩
  · rw [reallocBlock, bind_ok (load_live ha), bind_ok (mallocWith_granted _ hg)]
    simp only [reduceCtorEq, if_false]
    rw [bind_ok (free_live ha₁)]
    rfl
  · rw [Heap.erase_cell, if_neg (Ne.symm hne), Heap.push_cell, if_pos rfl]
  · intro b hb
    rw [Heap.erase_cell]
    split
    · rfl
    · next hba => rw [Heap.push_cell, if_neg hb, hother b hba]

theorem reallocBlock_refused (hp : h.Only p block) (size : Nat)
    (hg : h.grants h.requests = false) :
    reallocBlock memory p size h = .ok (none, h.refuse) := by
  obtain ⟨a, rfl, ha, -⟩ := hp
  rw [reallocBlock, bind_ok (load_live ha), bind_ok (mallocWith_refused _ hg)]
  rfl

end

end SyssoftLabs.Framework
