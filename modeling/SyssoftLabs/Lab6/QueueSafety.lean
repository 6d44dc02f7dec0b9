import SyssoftLabs.Lab6.Queue

/-!
# The client queue when memory runs out

Every allocation of the queue may fail. `queueEnqueue` tests the node it asks for when the queue is
empty and takes it for granted behind another element.
-/

namespace SyssoftLabs.Lab6

open SyssoftLabs.Framework

/-- At most `fuel` rounds of the loop of `queue_destroy`; whether it has ended. -/
def destroyNodes (q : Ptr) : Nat → Ptr → HeapM QueueNode Bool
  | _, none => return true
  | 0, some _ => return false
  | fuel + 1, some next => do
      let second := (← load (← load q).head).head
      store q fun n => { n with head := second }
      free (some next)
      destroyNodes q fuel (← load q).head

def queueDestroy (fuel : Nat) (q : Ptr) : HeapM QueueNode Bool := do
  if q ≠ none then
    if !(← destroyNodes q fuel (← load q).head) then return false
  free q
  return true

/-- `head` is `NULL` exactly when `tail` is. -/
def Linked (h : Heap QueueNode) : Ptr → Prop
  | none => True
  | some q => ∃ header, h.cell q = some header ∧ (header.head = none ↔ header.tail = none)

/-- The calls and the `queue_destroy` behind them end without a fault. Each leaves the queue linked,
and an element for which there is no memory leaves it as it was. -/
def Safe (q : Ptr) : List (FifoCall Int) → Heap QueueNode → Prop
  | [], h => ∃ fuel h', queueDestroy fuel q h = .ok (true, h')
  | .enqueue e :: cs, h =>
      ∃ h', queueEnqueue q e h = .ok ((), h') ∧ Linked h' q ∧
        (h.grants h.requests = false → h'.cell = h.cell) ∧ Safe q cs h'
  | .dequeue :: cs, h => ∃ e h', queueDequeue q h = .ok (e, h') ∧ Linked h' q ∧ Safe q cs h'

/-- The calls on a queue made by `queueInit`, which may be `NULL`. -/
def SafeSession (grants : Nat → Bool) (cs : List (FifoCall Int)) : Prop :=
  ∃ q h, queueInit (Heap.empty grants) = .ok (q, h) ∧ Linked h q ∧ Safe q cs h

/-- The allocations from the n-th on never fail for an element that is enqueued behind another
one. -/
def GrantedBehind (grants : Nat → Bool) : Nat → Bool → List (FifoCall Int) → Prop
  | _, _, [] => True
  | n, occupied, .enqueue _ :: cs =>
      (occupied = true → grants n = true) ∧
        GrantedBehind grants (n + 1) (occupied || grants n) cs
  | n, _, .dequeue :: cs => GrantedBehind grants n false cs

/-! ## No queue -/

private theorem safe_null (cs : List (FifoCall Int)) (h : Heap QueueNode) : Safe none cs h := by
  induction cs with
  | nil => exact ⟨0, h, rfl⟩
  | cons c cs ih =>
      cases c with
      | enqueue e => exact ⟨h, rfl, trivial, fun _ => rfl, ih⟩
      | dequeue => exact ⟨-1, h, rfl, trivial, ih⟩

/-! ## Allocations that fail -/

section

variable {h : Heap QueueNode} {q : Nat} {s : Option Int}

theorem Holds.linked (hs : Holds h q s) : Linked h (some q) := by
  cases s with
  | none =>
      obtain ⟨x, hq⟩ := hs
      exact ⟨_, hq, by simp⟩
  | some e =>
      obtain ⟨a, b, x, t, y, hq, -⟩ := hs
      exact ⟨_, hq, by simp⟩

private theorem queueInit_refused (hg : h.grants h.requests = false) :
    queueInit h = .ok (none, h.refuse) := by
  unfold queueInit
  rw [bind_ok (malloc_refused _ hg)]
  rfl

private theorem queueEnqueue_empty_refused (e : Int) (hg : h.grants h.requests = false)
    (hs : Holds h q none) :
    ∃ h', queueEnqueue (some q) e h = .ok ((), h') ∧ h'.grants = h.grants ∧
      h'.requests = h.requests + 1 ∧ h'.cell = h.cell := by
  obtain ⟨x, hq⟩ := hs
  let h₁ := h.refuse
  have hq₁ : h₁.cell q = some ⟨none, none, x⟩ := hq
  let h₂ := h₁.set q ⟨none, none, x⟩ (by simp [hq₁])
  have hq₂ : h₂.cell q = some ⟨none, none, x⟩ := by simp [h₂, Heap.set_cell]
  let h₃ := h₂.set q ⟨none, none, x⟩ (by simp [hq₂])
  have hq₃ : h₃.cell q = some ⟨none, none, x⟩ := by simp [h₃, Heap.set_cell]
  refine ⟨h₃, ?_, rfl, rfl, ?_⟩
  · unfold queueEnqueue
    simp only [reduceCtorEq, if_false]
    rw [bind_ok (load_live hq)]
    simp only [if_true]
    rw [bind_ok (queueInit_refused hg), bind_ok (store_live _ hq₁), bind_ok (store_live _ hq₂),
      bind_ok (load_live hq₃)]
    rfl
  · funext b
    by_cases hb : b = q
    · rw [hb, hq₃, hq]
    · simp [h₃, h₂, h₁, Heap.set_cell, hb, Heap.refuse]

private theorem queueEnqueue_behind_refused {v : Int} (e : Int) (hg : h.grants h.requests = false)
    (hs : Holds h q (some v)) : queueEnqueue (some q) e h = .error .nullDereference := by
  obtain ⟨a, b, x, t, y, hq, -, hb, -, hbq⟩ := hs
  let h₁ := h.refuse
  have hq₁ : h₁.cell q = some ⟨some a, some b, x⟩ := hq
  have hb₁ : h₁.cell b = some y := hb
  let h₂ := h₁.set b ⟨y.head, none, y.elem⟩ (by simp [hb₁])
  have hq₂ : h₂.cell q = some ⟨some a, some b, x⟩ := by
    simp [h₂, Heap.set_cell, Ne.symm hbq, hq₁]
  have hb₂ : h₂.cell b = some ⟨y.head, none, y.elem⟩ := by simp [h₂, Heap.set_cell]
  unfold queueEnqueue
  simp only [reduceCtorEq, if_false]
  rw [bind_ok (load_live hq)]
  simp only [reduceCtorEq, if_false]
  rw [bind_ok (queueInit_refused hg), bind_ok (load_live hq₁), bind_ok (store_live _ hb₁),
    bind_ok (load_live hq₂), bind_ok (load_live hb₂)]
  exact bind_fault rfl

private theorem queueDestroy_holds (hs : Holds h q s) :
    ∃ h', queueDestroy 1 (some q) h = .ok (true, h') := by
  unfold queueDestroy
  cases s with
  | none =>
      obtain ⟨x, hq⟩ := hs
      have hloop : destroyNodes (some q) 1 none h = .ok (true, h) := rfl
      refine ⟨h.erase q, ?_⟩
      simp only [ne_eq, reduceCtorEq, not_false_eq_true, if_true]
      rw [bind_ok (load_live hq), bind_ok hloop]
      exact bind_ok (free_live hq)
  | some e =>
      obtain ⟨a, b, x, t, y, hq, ha, -, haq, -⟩ := hs
      let h₁ := h.set q ⟨none, some b, x⟩ (by simp [hq])
      have ha₁ : h₁.cell a = some ⟨none, t, some e⟩ := by simp [h₁, Heap.set_cell, haq, ha]
      let h₂ := h₁.erase a
      have hq₂ : h₂.cell q = some ⟨none, some b, x⟩ := by
        simp [h₂, h₁, Heap.set_cell, Heap.erase_cell, Ne.symm haq]
      have hloop : destroyNodes (some q) 1 (some a) h = .ok (true, h₂) := by
        unfold destroyNodes
        rw [bind_ok (load_live hq), bind_ok (load_live ha), bind_ok (store_live _ hq),
          bind_ok (free_live ha₁), bind_ok (load_live hq₂)]
        rfl
      refine ⟨h₂.erase q, ?_⟩
      simp only [ne_eq, reduceCtorEq, not_false_eq_true, if_true]
      rw [bind_ok (load_live hq), bind_ok hloop]
      exact bind_ok (free_live hq₂)

/-! ## Runs -/

private theorem safe_enqueue {q : Ptr} {e : Int} {cs : List (FifoCall Int)} {h' : Heap QueueNode}
    (henq : queueEnqueue q e h = .ok ((), h')) :
    Safe q (.enqueue e :: cs) h ↔
      Linked h' q ∧ (h.grants h.requests = false → h'.cell = h.cell) ∧ Safe q cs h' := by
  constructor
  · rintro ⟨h₁, h₁enq, hrest⟩
    rw [henq] at h₁enq
    cases h₁enq
    exact hrest
  · exact fun hrest => ⟨h', henq, hrest⟩

private theorem safe_dequeue {q : Ptr} {e : Int} {cs : List (FifoCall Int)} {h' : Heap QueueNode}
    (hdeq : queueDequeue q h = .ok (e, h')) :
    Safe q (.dequeue :: cs) h ↔ Linked h' q ∧ Safe q cs h' := by
  constructor
  · rintro ⟨e₁, h₁, h₁deq, hrest⟩
    rw [hdeq] at h₁deq
    cases h₁deq
    exact hrest
  · exact fun hrest => ⟨e, h', hdeq, hrest⟩

private theorem safe_iff_grantedBehind (cs : List (FifoCall Int)) (hs : Holds h q s) :
    Safe (some q) cs h ↔ GrantedBehind h.grants h.requests s.isSome cs := by
  induction cs generalizing h s with
  | nil => exact iff_of_true ⟨1, queueDestroy_holds hs⟩ trivial
  | cons c cs ih =>
      cases c with
      | enqueue e =>
          rw [GrantedBehind]
          cases hg : h.grants h.requests with
          | true =>
              obtain ⟨h₁, henq, hgrants, hrequests, hs₁⟩ := queueEnqueue_holds e hg hs
              have hrest := ih hs₁
              have hsome : (s.or (some e)).isSome = true := by cases s <;> rfl
              rw [hgrants, hrequests, hsome] at hrest
              rw [safe_enqueue henq, hrest]
              simp [hs₁.linked, hg]
          | false =>
              cases s with
              | none =>
                  obtain ⟨h₁, henq, hgrants, hrequests, hcell⟩ :=
                    queueEnqueue_empty_refused e hg hs
                  have hs₁ : Holds h₁ q none := by
                    obtain ⟨x, hq⟩ := hs
                    exact ⟨x, hcell ▸ hq⟩
                  have hrest := ih hs₁
                  rw [hgrants, hrequests] at hrest
                  rw [safe_enqueue henq, hrest]
                  simp [hs₁.linked, hcell]
              | some v =>
                  have hfault := queueEnqueue_behind_refused e hg hs
                  apply iff_of_false
                  · rintro ⟨h₁, henq, -⟩
                    rw [hfault] at henq
                    cases henq
                  · rintro ⟨hgranted, -⟩
                    exact Bool.false_ne_true (hgranted rfl)
      | dequeue =>
          obtain ⟨h₁, hdeq, hgrants, hrequests, hs₁⟩ := queueDequeue_holds hs
          have hrest := ih hs₁
          rw [hgrants, hrequests] at hrest
          rw [safe_dequeue hdeq, hrest, GrantedBehind]
          simp [hs₁.linked]

end

/-- The queue is safe exactly if no allocation fails for an element that is enqueued behind another
one. -/
theorem queueSession_safe_iff (grants : Nat → Bool) (cs : List (FifoCall Int)) :
    SafeSession grants cs ↔ (grants 0 = true → GrantedBehind grants 1 false cs) := by
  rw [SafeSession]
  cases hg : grants 0 with
  | true =>
      obtain ⟨h₁, hinit, hgrants, hrequests, hcell⟩ :=
        queueInit_granted (h := Heap.empty grants) hg
      have hs : Holds h₁ 0 none := ⟨none, by rw [hcell]; rfl⟩
      have hrest := safe_iff_grantedBehind cs hs
      rw [hgrants, hrequests] at hrest
      rw [hinit]
      constructor
      · rintro ⟨q, h, heq, -, hsafe⟩ -
        cases heq
        exact hrest.mp hsafe
      · exact fun hgranted => ⟨some 0, h₁, rfl, hs.linked, hrest.mpr (hgranted rfl)⟩
  | false =>
      refine iff_of_true ?_ (fun h => by cases h)
      exact ⟨none, _, queueInit_refused (h := Heap.empty grants) hg, trivial, safe_null cs _⟩

/-- Memory runs out when a second client comes. -/
theorem queueSession_safe_fails :
    ¬SafeSession (fun n => decide (n < 2)) [.enqueue 3, .enqueue 4] := by
  rintro ⟨q, h, hinit, -, h₁, hfirst, -, -, h₂, hsecond, -⟩
  cases hinit
  cases hfirst
  cases hsecond

end SyssoftLabs.Lab6
