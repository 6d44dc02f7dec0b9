import SyssoftLabs.Framework.Fifo
import SyssoftLabs.Framework.Heap

/-!
# The client queue

The linked queue of the directory server on an explicit heap. The header and the nodes share one
structure with two links. `queueEnqueue` chains the nodes through `tail`, `queueDequeue` follows
`head`, so that a removal empties the queue whatever else is chained.
-/

namespace SyssoftLabs.Lab6

open SyssoftLabs.Framework

/-- `struct queue`; `elem` is `none` until it is assigned. -/
structure QueueNode where
  head : Ptr
  tail : Ptr
  elem : Option Int

def queueInit : HeapM QueueNode Ptr := do
  let q ← malloc ⟨none, none, none⟩
  if q = none then return none
  store q fun n => { n with head := none }
  store q fun n => { n with tail := none }
  return q

def queueEnqueue (q : Ptr) (e : Int) : HeapM QueueNode Unit := do
  if q = none then return
  if (← load q).tail = none then
    let node ← queueInit
    store q fun n => { n with head := node }
    store q fun n => { n with tail := node }
    if (← load q).tail = none then return
    store (← load q).tail fun n => { n with elem := some e }
    return
  let node ← queueInit
  store (← load q).tail fun n => { n with tail := node }
  store (← load (← load q).tail).tail fun n => { n with elem := some e }
  let last := (← load (← load q).tail).tail
  store q fun n => { n with tail := last }

def queueDequeue (q : Ptr) : HeapM QueueNode Int := do
  if q = none then return -1
  if (← load q).head = none then return -1
  let some e := (← load (← load q).head).elem | throw .indeterminateRead
  let newHead := (← load (← load q).head).head
  free (← load q).head
  store q fun n => { n with head := newHead }
  if (← load q).head = none then
    store q fun n => { n with tail := none }
  return e

/-- A client descriptor: `-1` stands for an empty queue. -/
abbrev Client := { e : Int // e ≠ -1 }

/-- The answers of the removals, in order. -/
def queueRun (q : Ptr) : List (FifoCall Client) → HeapM QueueNode (List Int)
  | [] => pure []
  | .enqueue e :: cs => do
      queueEnqueue q e
      queueRun q cs
  | .dequeue :: cs => do
      let e ← queueDequeue q
      return e :: (← queueRun q cs)

/-- The calls on a queue made by `queueInit`. -/
def queueSession (grants : Nat → Bool) (cs : List (FifoCall Client)) : Except Fault (List Int) :=
  (do queueRun (← queueInit) cs : HeapM QueueNode (List Int)).run' (Heap.empty grants)

/-- What `queueDequeue` answers for an element of the queue. -/
def reply : Option Client → Int
  | none => -1
  | some e => e.val

private theorem reply_injective : Function.Injective reply := by
  intro a b h
  rcases a with _ | ⟨a, ha⟩ <;> rcases b with _ | ⟨b, hb⟩
  · rfl
  · exact absurd h.symm hb
  · exact absurd h ha
  · simpa [reply] using h

/-! ## What the code keeps of the queue -/

/-- Behind the header `q` the code keeps the element the next removal returns. Of the last node
it keeps the address only: nothing is said of the nodes chained in between. -/
def Holds (h : Heap QueueNode) (q : Nat) : Option Int → Prop
  | none => ∃ x, h.cell q = some ⟨none, none, x⟩
  | some e => ∃ a b x t y, h.cell q = some ⟨some a, some b, x⟩ ∧
      h.cell a = some ⟨none, t, some e⟩ ∧ h.cell b = some y ∧ a ≠ q ∧ b ≠ q

theorem queueInit_granted {h : Heap QueueNode} (hg : h.grants h.requests = true) :
    ∃ h', queueInit h = .ok (some h.fresh, h') ∧ h'.grants = h.grants ∧
      h'.requests = h.requests + 1 ∧
      ∀ b, h'.cell b = if b = h.fresh then some ⟨none, none, none⟩ else h.cell b := by
  let h₁ := h.push ⟨none, none, none⟩
  have hc₁ : h₁.cell h.fresh = some ⟨none, none, none⟩ := by simp [h₁, Heap.push_cell]
  let h₂ := h₁.set h.fresh ⟨none, none, none⟩ (by simp [hc₁])
  have hc₂ : h₂.cell h.fresh = some ⟨none, none, none⟩ := by simp [h₂, Heap.set_cell]
  refine ⟨h₂.set h.fresh ⟨none, none, none⟩ (by simp [hc₂]), ?_, rfl, rfl, ?_⟩
  · unfold queueInit
    rw [bind_ok (malloc_granted _ hg)]
    simp only [reduceCtorEq, if_false]
    rw [bind_ok (store_live _ hc₁), bind_ok (store_live _ hc₂)]
    rfl
  · intro b
    by_cases hb : b = h.fresh <;> simp [h₁, h₂, Heap.set_cell, Heap.push_cell, hb]

private theorem queueEnqueue_empty {h : Heap QueueNode} {q : Nat} (e : Int)
    (hg : h.grants h.requests = true) (hs : Holds h q none) :
    ∃ h', queueEnqueue (some q) e h = .ok ((), h') ∧ h'.grants = h.grants ∧
      h'.requests = h.requests + 1 ∧ Holds h' q (some e) := by
  obtain ⟨h₁, hinit, hgrants, hrequests, hcell⟩ := queueInit_granted hg
  obtain ⟨x, hq⟩ := hs
  have hqf := Heap.fresh_ne hq
  have hq₁ : h₁.cell q = some ⟨none, none, x⟩ := by rw [hcell, if_neg hqf, hq]
  let h₂ := h₁.set q ⟨some h.fresh, none, x⟩ (by simp [hq₁])
  have hq₂ : h₂.cell q = some ⟨some h.fresh, none, x⟩ := by simp [h₂, Heap.set_cell]
  let h₃ := h₂.set q ⟨some h.fresh, some h.fresh, x⟩ (by simp [hq₂])
  have hq₃ : h₃.cell q = some ⟨some h.fresh, some h.fresh, x⟩ := by
    simp [h₃, Heap.set_cell]
  have hf₃ : h₃.cell h.fresh = some ⟨none, none, none⟩ := by
    simp [h₃, h₂, Heap.set_cell, Ne.symm hqf, hcell]
  let h₄ := h₃.set h.fresh ⟨none, none, some e⟩ (by simp [hf₃])
  refine ⟨h₄, ?_, hgrants, hrequests, h.fresh, h.fresh, x, none, ⟨none, none, some e⟩, ?_, ?_, ?_,
    Ne.symm hqf, Ne.symm hqf⟩
  · unfold queueEnqueue
    simp only [reduceCtorEq, if_false]
    rw [bind_ok (load_live hq)]
    simp only [if_true]
    rw [bind_ok hinit, bind_ok (store_live _ hq₁), bind_ok (store_live _ hq₂),
      bind_ok (load_live hq₃)]
    simp only [reduceCtorEq, if_false]
    rw [bind_ok (load_live hq₃), bind_ok (store_live _ hf₃)]
    rfl
  · simp [h₄, Heap.set_cell, hqf, hq₃]
  · simp [h₄, Heap.set_cell]
  · simp [h₄, Heap.set_cell]

private theorem queueEnqueue_behind {h : Heap QueueNode} {q : Nat} {v : Int} (e : Int)
    (hg : h.grants h.requests = true) (hs : Holds h q (some v)) :
    ∃ h', queueEnqueue (some q) e h = .ok ((), h') ∧ h'.grants = h.grants ∧
      h'.requests = h.requests + 1 ∧ Holds h' q (some v) := by
  obtain ⟨h₁, hinit, hgrants, hrequests, hcell⟩ := queueInit_granted hg
  obtain ⟨a, b, x, t, y, hq, ha, hb, haq, hbq⟩ := hs
  have hqf := Heap.fresh_ne hq
  have haf := Heap.fresh_ne ha
  have hbf := Heap.fresh_ne hb
  have hq₁ : h₁.cell q = some ⟨some a, some b, x⟩ := by rw [hcell, if_neg hqf, hq]
  have hb₁ : h₁.cell b = some y := by rw [hcell, if_neg hbf, hb]
  let h₂ := h₁.set b ⟨y.head, some h.fresh, y.elem⟩ (by simp [hb₁])
  have hq₂ : h₂.cell q = some ⟨some a, some b, x⟩ := by
    simp [h₂, Heap.set_cell, Ne.symm hbq, hq₁]
  have hb₂ : h₂.cell b = some ⟨y.head, some h.fresh, y.elem⟩ := by simp [h₂, Heap.set_cell]
  have hf₂ : h₂.cell h.fresh = some ⟨none, none, none⟩ := by
    simp [h₂, Heap.set_cell, Ne.symm hbf, hcell]
  let h₃ := h₂.set h.fresh ⟨none, none, some e⟩ (by simp [hf₂])
  have hq₃ : h₃.cell q = some ⟨some a, some b, x⟩ := by simp [h₃, Heap.set_cell, hqf, hq₂]
  have hb₃ : h₃.cell b = some ⟨y.head, some h.fresh, y.elem⟩ := by
    simp [h₃, Heap.set_cell, hbf, hb₂]
  let h₄ := h₃.set q ⟨some a, some h.fresh, x⟩ (by simp [hq₃])
  have ha₄ : ∃ t', h₄.cell a = some ⟨none, t', some v⟩ := by
    by_cases hab : a = b
    · subst b
      rw [ha] at hb
      cases hb
      exact ⟨some h.fresh, by simp [h₄, h₃, Heap.set_cell, haq, haf, hb₂]⟩
    · exact ⟨t, by simp [h₄, h₃, h₂, Heap.set_cell, haq, haf, hab, hcell, ha]⟩
  obtain ⟨t', ha₄⟩ := ha₄
  refine ⟨h₄, ?_, hgrants, hrequests, a, h.fresh, x, t', ⟨none, none, some e⟩, ?_, ha₄, ?_, haq,
    Ne.symm hqf⟩
  · unfold queueEnqueue
    simp only [reduceCtorEq, if_false]
    rw [bind_ok (load_live hq)]
    simp only [reduceCtorEq, if_false]
    rw [bind_ok hinit, bind_ok (load_live hq₁), bind_ok (store_live _ hb₁),
      bind_ok (load_live hq₂), bind_ok (load_live hb₂), bind_ok (store_live _ hf₂),
      bind_ok (load_live hq₃), bind_ok (load_live hb₃)]
    exact store_live _ hq₃
  · simp [h₄, Heap.set_cell]
  · simp [h₄, h₃, Heap.set_cell, Ne.symm hqf]

theorem queueEnqueue_holds {h : Heap QueueNode} {q : Nat} {s : Option Int} (e : Int)
    (hg : h.grants h.requests = true) (hs : Holds h q s) :
    ∃ h', queueEnqueue (some q) e h = .ok ((), h') ∧ h'.grants = h.grants ∧
      h'.requests = h.requests + 1 ∧ Holds h' q (s.or (some e)) := by
  cases s with
  | none => exact queueEnqueue_empty e hg hs
  | some v => exact queueEnqueue_behind e hg hs

theorem queueDequeue_holds {h : Heap QueueNode} {q : Nat} {s : Option Int} (hs : Holds h q s) :
    ∃ h', queueDequeue (some q) h = .ok (s.getD (-1), h') ∧ h'.grants = h.grants ∧
      h'.requests = h.requests ∧ Holds h' q none := by
  cases s with
  | none =>
      obtain ⟨x, hq⟩ := hs
      refine ⟨h, ?_, rfl, rfl, x, hq⟩
      unfold queueDequeue
      simp only [reduceCtorEq, if_false]
      rw [bind_ok (load_live hq)]
      rfl
  | some e =>
      obtain ⟨a, b, x, t, y, hq, ha, hb, haq, hbq⟩ := hs
      let h₁ := h.erase a
      have hq₁ : h₁.cell q = some ⟨some a, some b, x⟩ := by
        simp [h₁, Heap.erase_cell, Ne.symm haq, hq]
      let h₂ := h₁.set q ⟨none, some b, x⟩ (by simp [hq₁])
      have hq₂ : h₂.cell q = some ⟨none, some b, x⟩ := by simp [h₂, Heap.set_cell]
      let h₃ := h₂.set q ⟨none, none, x⟩ (by simp [hq₂])
      have hq₃ : h₃.cell q = some ⟨none, none, x⟩ := by simp [h₃, Heap.set_cell]
      refine ⟨h₃, ?_, rfl, rfl, x, hq₃⟩
      unfold queueDequeue
      simp only [reduceCtorEq, if_false]
      rw [bind_ok (load_live hq)]
      simp only [reduceCtorEq, if_false]
      rw [bind_ok (load_live hq), bind_ok (load_live ha)]
      dsimp only
      rw [bind_ok (load_live hq), bind_ok (load_live ha), bind_ok (load_live hq),
        bind_ok (free_live ha), bind_ok (store_live _ hq₁), bind_ok (load_live hq₂)]
      simp only [if_true]
      rw [bind_ok (store_live _ hq₂)]
      rfl

private theorem queueRun_eq_latchRun {h : Heap QueueNode} {q : Nat} {s : Option Client}
    (cs : List (FifoCall Client)) (hg : ∀ i, h.grants i = true)
    (hs : Holds h q (s.map Subtype.val)) :
    ∃ h', queueRun (some q) cs h = .ok ((latchRun s cs).map reply, h') := by
  induction cs generalizing h s with
  | nil => exact ⟨h, rfl⟩
  | cons c cs ih =>
      cases c with
      | enqueue e =>
          obtain ⟨h₁, henq, hg₁, -, hs₁⟩ := queueEnqueue_holds e.val (hg _) hs
          have hs₁' : Holds h₁ q ((s.or (some e)).map Subtype.val) := by
            cases s <;> exact hs₁
          obtain ⟨h₂, hrest⟩ := ih (by rwa [hg₁]) hs₁'
          refine ⟨h₂, ?_⟩
          rw [queueRun, bind_ok henq, latchRun]
          exact hrest
      | dequeue =>
          obtain ⟨h₁, hdeq, hg₁, -, hs₁⟩ := queueDequeue_holds hs
          obtain ⟨h₂, hrest⟩ := ih (s := none) (by rwa [hg₁]) hs₁
          refine ⟨h₂, ?_⟩
          rw [queueRun, bind_ok hdeq, bind_ok hrest, latchRun]
          cases s <;> rfl

private theorem queueSession_eq_latchRun (cs : List (FifoCall Client)) :
    queueSession (fun _ => true) cs = .ok ((latchRun none cs).map reply) := by
  have hg : ∀ i, (Heap.empty (fun _ => true) : Heap QueueNode).grants i = true := fun _ => rfl
  obtain ⟨h₁, hinit, hgrants, -, hcell⟩ := queueInit_granted (hg _)
  have hs : Holds h₁ 0 ((none : Option Client).map Subtype.val) :=
    ⟨none, by rw [hcell]; rfl⟩
  obtain ⟨h₂, hrun⟩ := queueRun_eq_latchRun cs (by rwa [hgrants]) hs
  have hall : (do queueRun (← queueInit) cs : HeapM QueueNode (List Int))
      (Heap.empty fun _ => true) = .ok ((latchRun none cs).map reply, h₂) := by
    rw [bind_ok hinit]
    exact hrun
  rw [queueSession, StateT.run', hall]
  rfl

private theorem queueSession_eq_fifoRun (cs : List (FifoCall Client)) :
    queueSession (fun _ => true) cs = .ok ((fifoRun [] cs).map reply) ↔
      latchRun none cs = fifoRun [] cs := by
  rw [queueSession_eq_latchRun, Except.ok.injEq, reply_injective.list_map.eq_iff]

/-- The removals return what a first-in-first-out list returns for exactly the call sequences
in which no removal meets an older element that an earlier removal has made unreachable. -/
theorem queueSession_fifo_iff (cs : List (FifoCall Client)) :
    queueSession (fun _ => true) cs = .ok ((fifoRun [] cs).map reply) ↔ KeepsPace [] [] cs := by
  rw [queueSession_eq_fifoRun]
  exact latchRun_eq_fifoRun_iff [] [] cs

/-- Two clients queued at the same time: the second is never returned. -/
theorem queueSession_loses_second :
    queueSession (fun _ => true)
        [.enqueue ⟨3, by decide⟩, .enqueue ⟨4, by decide⟩, .dequeue, .dequeue] ≠
      .ok ((fifoRun [] [.enqueue (⟨3, by decide⟩ : Client), .enqueue ⟨4, by decide⟩, .dequeue,
        .dequeue]).map reply) := by
  decide +kernel

/-- For pairwise different descriptors the order is kept exactly when each removal but the last
finds at most one element. -/
theorem queueSession_fifo_iff_drains {cs : List (FifoCall Client)} (hn : (enqueued cs).Nodup) :
    queueSession (fun _ => true) cs = .ok ((fifoRun [] cs).map reply) ↔
      DrainsBetween [] [] cs := by
  rw [queueSession_eq_fifoRun]
  apply (latchRun_eq_fifoRun_iff [] [] cs).trans
  exact keepsPace_iff_drainsBetween [] [] cs (by simpa using hn)

end SyssoftLabs.Lab6
