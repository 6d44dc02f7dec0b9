import Mathlib.Data.List.Nodup
import SyssoftLabs.Lab4.Parser.Refinement
import SyssoftLabs.Lab4.Parser.Scan

/-!
# Rejected lines

After a rejected line `main` frees the commands in front of the first `NULL` of the array. The exit
at a pipe leaves them in order. The exits at a redirection leave the slot behind the last command
as an earlier line left it.
-/

namespace SyssoftLabs.Lab4

open SyssoftLabs.Framework

/-- One round of the loop by which `main` frees the commands of a rejected line. -/
def cleanUpStep : Parser × Nat → Except Halt (Parser × Nat ⊕ Parser)
  | (s, i) =>
      match s.commands i with
      | none => .ok (.inr s)
      | some _ => do
          let s ← s.freeCmd i
          return .inl (s, i + 1)

/-- The entries before the first `NULL` are `l`: the commands allocated from `base` on and not yet
freed, each once. -/
structure Entries (base : Nat) (t : Parser) (l : List Nat) : Prop where
  nodup : l.Nodup
  live : ∀ a, a ∈ l ↔ base ≤ a ∧ t.heap.cell a ≠ none
  slot : ∀ j a, l[j]? = some a → t.commands j = some a
  null : t.commands l.length = none

/-- The array holds the live commands of this call and nothing else before its first `NULL`, and
the loop of `main` frees these and nothing else. -/
def LeavesClean (base : Nat) (t : Parser) : Prop :=
  (∃ l, Entries base t l) ∧
  ∃ fuel u, loop cleanUpStep (.stuck .unfinished) fuel (t, 0) = .ok u ∧
    ∀ a, u.heap.cell a = if a < base then t.heap.cell a else none

section

variable {base : Nat} {t : Parser} {l : List Nat}

private theorem cleanUp_from (h : Entries base t l) (k i : Nat) (hk : l.length = i + k)
    {s : Parser} (hc : s.commands = t.commands)
    (hs : ∀ a, s.heap.cell a = if a ∈ l.take i then none else t.heap.cell a) :
    ∃ u, loop cleanUpStep (.stuck .unfinished) (k + 1) (s, i) = .ok u ∧
      ∀ a, u.heap.cell a = if a ∈ l then none else t.heap.cell a := by
  induction k generalizing i s with
  | zero =>
      have hnull : s.commands i = none := by
        rw [hc, show i = l.length by omega]
        exact h.null
      refine ⟨s, loop_done (by simp only [cleanUpStep, hnull]), ?_⟩
      rw [List.take_of_length_le (by omega)] at hs
      exact hs
  | succ k ih =>
      have hi : i < l.length := by omega
      have hget := List.getElem?_eq_getElem hi
      have hslot : s.commands i = some l[i] := by rw [hc, h.slot i _ hget]
      have hfresh : l[i] ∉ l.take i := by
        intro hm
        obtain ⟨j, hj, he⟩ := List.mem_take_iff_getElem.mp hm
        have := (List.nodup_iff_getElem?_ne_getElem?.mp h.nodup) j i (by omega) hi
        rw [List.getElem?_eq_getElem (by omega), hget, he] at this
        exact this rfl
      have hlive : t.heap.cell l[i] ≠ none := ((h.live l[i]).mp (List.getElem_mem hi)).2
      obtain ⟨c, hcell⟩ := Option.ne_none_iff_exists'.mp hlive
      have hcell' : s.heap.cell l[i] = some c := by rw [hs, if_neg hfresh, hcell]
      have hstep : cleanUpStep (s, i) =
          .ok (.inl ({ s with heap := s.heap.erase l[i] }, i + 1)) := by
        simp only [cleanUpStep, hslot, Parser.freeCmd, hcell']
        rfl
      rw [loop_next hstep]
      apply ih (i + 1) (by omega) (s := { s with heap := s.heap.erase l[i] }) hc
      intro a
      show (s.heap.erase l[i]).cell a = _
      rw [Heap.erase_cell, hs, List.take_succ_eq_append_getElem hi]
      simp only [List.mem_append, List.mem_singleton]
      by_cases ha : a = l[i]
      · rw [if_pos ha, if_pos (.inr ha)]
      · rw [if_neg ha]
        by_cases hm : a ∈ l.take i
        · rw [if_pos hm, if_pos (.inl hm)]
        · rw [if_neg hm, if_neg (by simp [ha, hm])]

private theorem Entries.leavesClean (h : Entries base t l) : LeavesClean base t := by
  refine ⟨⟨l, h⟩, ?_⟩
  obtain ⟨u, hloop, hcell⟩ := cleanUp_from h l.length 0 (Nat.zero_add _).symm (s := t) rfl (by simp)
  refine ⟨_, u, hloop, ?_⟩
  intro a
  have hlive := h.live a
  rw [hcell]
  by_cases hlt : a < base
  · have hm : a ∉ l := fun hm => absurd (hlive.mp hm).1 (Nat.not_le_of_lt hlt)
    rw [if_neg hm, if_pos hlt]
  · rw [if_neg hlt]
    by_cases hm : a ∈ l
    · rw [if_pos hm]
    · rw [if_neg hm]
      by_contra hne
      exact hm (hlive.mpr ⟨Nat.le_of_not_lt hlt, hne⟩)

private theorem Contents.leavesClean_iff {cell₀ : Nat → Option Cmd} {old : Nat → Ptr}
    {cmds : List Cmd} (h : Contents base cell₀ old t.heap t.commands cmds) :
    LeavesClean base t ↔ old cmds.length = none := by
  have hlive : ∀ a, (base ≤ a ∧ t.heap.cell a ≠ none) ↔ ∃ j, j < cmds.length ∧ a = base + j := by
    intro a
    rw [h.cell]
    constructor
    · rintro ⟨hle, hne⟩
      rw [if_neg (Nat.not_lt_of_le hle)] at hne
      refine ⟨a - base, ?_, by omega⟩
      by_contra hge
      exact hne (List.getElem?_eq_none (Nat.le_of_not_lt hge))
    · rintro ⟨j, hj, rfl⟩
      rw [if_neg (by omega), Nat.add_sub_cancel_left, List.getElem?_eq_getElem hj]
      exact ⟨Nat.le_add_right _ _, Option.some_ne_none _⟩
  constructor
  · rintro ⟨⟨l, hl⟩, -⟩
    by_contra hne
    have hlen : cmds.length < l.length := by
      by_contra hge
      have hnull := hl.null
      rw [h.commands] at hnull
      by_cases hlt : l.length < cmds.length
      · rw [if_pos hlt] at hnull
        cases hnull
      · rw [if_neg hlt, show l.length = cmds.length by omega] at hnull
        exact hne hnull
    have hlast := List.getElem?_eq_getElem hlen
    obtain ⟨j, hj, he⟩ := (hlive _).mp ((hl.live _).mp (List.getElem_mem hlen))
    have hjl : j < l.length := by omega
    have hfirst := hl.slot j _ (List.getElem?_eq_getElem hjl)
    rw [h.commands, if_pos hj, Option.some.injEq, ← he] at hfirst
    exact (List.nodup_iff_getElem?_ne_getElem?.mp hl.nodup) j cmds.length hj hlen
      (by rw [List.getElem?_eq_getElem hjl, hlast, hfirst])
  · intro hnone
    have hentries : Entries base t ((List.range cmds.length).map (base + ·)) := by
      constructor
      · exact List.Nodup.map (fun a b hab => Nat.add_left_cancel hab) List.nodup_range
      · intro a
        rw [hlive, List.mem_map]
        simp only [List.mem_range]
        constructor
        · rintro ⟨j, hj, rfl⟩
          exact ⟨j, hj, rfl⟩
        · rintro ⟨j, hj, rfl⟩
          exact ⟨j, hj, rfl⟩
      · intro j a hj
        rw [List.getElem?_map, Option.map_eq_some_iff] at hj
        obtain ⟨k, hk, rfl⟩ := hj
        obtain ⟨hlt, rfl⟩ := List.getElem?_eq_some_iff.mp hk
        rw [List.length_range] at hlt
        rw [h.commands, List.getElem_range, if_pos hlt]
      · rw [List.length_map, List.length_range, h.commands, if_neg (Nat.lt_irrefl _), hnone]
    exact hentries.leavesClean

end

/-- A rejected vector leaves the array clean unless it ends in a redirection without its operand
and an earlier line left a pointer behind the commands begun. -/
theorem rejected_clean_iff (ts : List CStr) (heap : Heap Cmd) (commands : Nat → Ptr)
    (hword : ∀ t, ts.head? = some t → startsSeparator t = false) :
    (∀ t, makeCmdv (ts.map some ++ [none]) heap (Function.update commands 0 none) = .ok (false, t) →
      LeavesClean heap.fresh t) ↔
    ∀ n, Scan.gap.ending 0 ts = (.dangling, n) → commands n = none := by
  have hword' : ∀ t, ts.head? = some t → isWord t := by
    intro t ht
    simp [isWord, hword t ht]
  have hending := ending_parse false ts 0 hword'
  have hrun := makeCmdv_parse ts heap (Function.update commands 0 none) hword'
    (Function.update_self ..)
  cases hp : parse false ts with
  | mk verdict parts =>
      rw [hp] at hrun hending
      cases verdict with
      | accepted =>
          obtain ⟨t, hok, -⟩ := hrun
          rw [hok, hending]
          constructor
          · intro _ n hn
            cases hn
          · intro _ t ht
            cases ht
      | dropped =>
          obtain ⟨t, hok, hc⟩ := hrun
          rw [hok, hending]
          constructor
          · intro _ n hn
            cases hn
          · intro _ u hu
            cases hu
            rw [hc.leavesClean_iff, settle_length, Function.update_self]
      | dangling =>
          obtain ⟨t, c, hok, hc⟩ := hrun
          have hiff := hc.leavesClean_iff
          rw [List.length_append, settle_length, List.length_singleton,
            Function.update_of_ne (Nat.succ_ne_zero _)] at hiff
          rw [hok, hending]
          constructor
          · intro h n hn
            cases hn
            rw [Nat.zero_add]
            exact hiff.mp (h t rfl)
          · intro h u hu
            cases hu
            apply hiff.mpr
            have := h _ rfl
            rwa [Nat.zero_add] at this

/-- Memory after an earlier line: the command it allocated at address `0` is freed. -/
def laterHeap : Heap Cmd := ((Heap.empty fun _ => true).push (newCmd [])).erase 0

/-- The line `a >` behind a longer one whose second entry is still in the array. -/
theorem rejected_clean_fails :
    ¬ ∀ (ts : List CStr) (heap : Heap Cmd) (commands : Nat → Ptr),
      (∀ t, ts.head? = some t → startsSeparator t = false) →
      ∀ t, makeCmdv (ts.map some ++ [none]) heap (Function.update commands 0 none) =
        .ok (false, t) → LeavesClean heap.fresh t := by
  intro h
  have hword : ∀ t, [['a'], ['>']].head? = some t → startsSeparator t = false := by
    intro t ht
    cases ht
    rfl
  have hrun := makeCmdv_parse [['a'], ['>']] laterHeap (Function.update (fun _ => some 0) 0 none)
    (fun t ht => by simp [isWord, hword t ht]) (Function.update_self ..)
  rw [parse_dangling (List.cons_ne_nil _ _) rfl] at hrun
  obtain ⟨t, c, hok, hc⟩ := hrun
  have hclean := h _ laterHeap (fun _ => some 0) hword t hok
  have hnone := hc.leavesClean_iff.mp hclean
  cases hnone

theorem rejected_clean_first_line :
    (∀ t, makeCmdv [some ['a'], some ['>'], none] laterHeap
        (Function.update (fun j => if j = 2 then some 0 else none) 0 none) = .ok (false, t) →
      LeavesClean laterHeap.fresh t) ↔
    ∀ n, Scan.gap.ending 0 [['a'], ['>']] = (.dangling, n) →
      (if n = 2 then some 0 else none : Ptr) = none :=
  rejected_clean_iff [['a'], ['>']] laterHeap (fun j => if j = 2 then some 0 else none) (by
    intro t ht
    cases ht
    rfl)

end SyssoftLabs.Lab4
