import Mathlib.Data.List.Nodup

/-!
# First-in-first-out lists and one-place latches

A FIFO list answers a removal with its oldest element. A latch keeps only the first element put in
since the last removal. The two answer a sequence of calls alike exactly when no removal meets an
older element that the latch has dropped.
-/

namespace SyssoftLabs.Framework

variable {α : Type*}

inductive FifoCall (α : Type*)
  | enqueue (a : α)
  | dequeue
deriving DecidableEq, Repr

/-- The answers of a first-in-first-out list to the removals, `none` from an empty list. -/
def fifoRun : List α → List (FifoCall α) → List (Option α)
  | _, [] => []
  | xs, .enqueue a :: cs => fifoRun (xs ++ [a]) cs
  | xs, .dequeue :: cs => xs.head? :: fifoRun xs.tail cs

/-- The answers of a latch, which a second element does not enter and a removal empties. -/
def latchRun : Option α → List (FifoCall α) → List (Option α)
  | _, [] => []
  | s, .enqueue a :: cs => latchRun (s.or (some a)) cs
  | s, .dequeue :: cs => s :: latchRun none cs

/-- At every removal, nothing put in before the previous removal is still waiting, or the oldest
of what is waiting equals the first element put in since. `old` and `new` are the two parts of
the first-in-first-out list. -/
def KeepsPace : List α → List α → List (FifoCall α) → Prop
  | _, _, [] => True
  | old, new, .enqueue a :: cs => KeepsPace old (new ++ [a]) cs
  | old, new, .dequeue :: cs =>
      (old = [] ∨ old.head? = new.head?) ∧ KeepsPace (old ++ new).tail [] cs

/-- Nothing put in before a removal is still waiting at the next one. -/
def DrainsBetween : List α → List α → List (FifoCall α) → Prop
  | _, _, [] => True
  | old, new, .enqueue a :: cs => DrainsBetween old (new ++ [a]) cs
  | old, new, .dequeue :: cs => old = [] ∧ DrainsBetween (old ++ new).tail [] cs

/-- The elements the calls put in. -/
def enqueued : List (FifoCall α) → List α
  | [] => []
  | .enqueue a :: cs => a :: enqueued cs
  | .dequeue :: cs => enqueued cs

theorem latch_answer_iff (old new : List α) :
    new.head? = (old ++ new).head? ↔ old = [] ∨ old.head? = new.head? := by
  cases old with
  | nil => simp
  | cons a old => simp [eq_comm]

/-- A latch answers like a list on exactly the call sequences that keep pace. -/
theorem latchRun_eq_fifoRun_iff (old new : List α) (cs : List (FifoCall α)) :
    latchRun new.head? cs = fifoRun (old ++ new) cs ↔ KeepsPace old new cs := by
  induction cs generalizing old new with
  | nil => simp [latchRun, fifoRun, KeepsPace]
  | cons c cs ih =>
      cases c with
      | enqueue a =>
          have hlatch : new.head?.or (some a) = (new ++ [a]).head? := by
            cases new <;> rfl
          rw [latchRun, fifoRun, KeepsPace, hlatch, List.append_assoc]
          exact ih old (new ++ [a])
      | dequeue =>
          have hrest := ih (old ++ new).tail []
          rw [List.append_nil, List.head?_nil] at hrest
          rw [latchRun, fifoRun, KeepsPace, List.cons.injEq, hrest, latch_answer_iff]

/-- When no value is put in twice, keeping pace is draining between removals. -/
theorem keepsPace_iff_drainsBetween (old new : List α) (cs : List (FifoCall α))
    (hn : (old ++ new ++ enqueued cs).Nodup) :
    KeepsPace old new cs ↔ DrainsBetween old new cs := by
  induction cs generalizing old new with
  | nil => rfl
  | cons c cs ih =>
      cases c with
      | enqueue a =>
          apply ih
          simpa [enqueued, List.append_assoc] using hn
      | dequeue =>
          have hrest : ((old ++ new).tail ++ [] ++ enqueued cs).Nodup := by
            rw [List.append_nil]
            exact hn.sublist ((List.tail_sublist _).append_right _)
          rw [KeepsPace, DrainsBetween, ih _ _ hrest]
          apply and_congr_left
          intro _
          constructor
          · rintro (hold | hhead)
            · exact hold
            · cases old with
              | nil => rfl
              | cons a old =>
                  have hmem : a ∈ new := List.mem_of_mem_head? (by simpa using hhead.symm)
                  simp [enqueued, hmem] at hn
          · exact Or.inl

end SyssoftLabs.Framework
