import Mathlib.Logic.Basic

/-!
# Loops with a bound on their rounds

A loop body either goes on with a new state, leaves the loop with a result, or fails. A loop whose
bound is used up before the body leaves it fails with an error of its own, so that a result never
depends on the bound.
-/

namespace SyssoftLabs.Framework

section

variable {ε σ ρ : Type}

/-- At most `fuel` rounds of `body`; `late` when none of them leaves the loop. -/
def loop (body : σ → Except ε (σ ⊕ ρ)) (late : ε) : Nat → σ → Except ε ρ
  | 0, _ => .error late
  | fuel + 1, s =>
      match body s with
      | .error e => .error e
      | .ok (.inr r) => .ok r
      | .ok (.inl t) => loop body late fuel t

variable {body : σ → Except ε (σ ⊕ ρ)} {late : ε} {fuel : Nat} {s t : σ} {r : ρ} {e : ε}

theorem loop_next (h : body s = .ok (.inl t)) :
    loop body late (fuel + 1) s = loop body late fuel t := by
  rw [loop, h]

theorem loop_done (h : body s = .ok (.inr r)) : loop body late (fuel + 1) s = .ok r := by
  rw [loop, h]

theorem loop_fail (h : body s = .error e) : loop body late (fuel + 1) s = .error e := by
  rw [loop, h]

/-- The state in which a round begins, counted from zero. -/
def roundAt (body : σ → Except ε (σ ⊕ ρ)) : Nat → σ → Option σ
  | 0, s => some s
  | n + 1, s =>
      match body s with
      | .ok (.inl t) => roundAt body n t
      | .ok (.inr _) => none
      | .error _ => none

/-- There is no round with this number. -/
def Ends (body : σ → Except ε (σ ⊕ ρ)) (s : σ) : Prop := ∃ n, roundAt body n s = none

theorem roundAt_next {n : Nat} (h : body s = .ok (.inl t)) :
    roundAt body (n + 1) s = roundAt body n t := by
  rw [roundAt, h]

theorem Ends.of_next (h : body s = .ok (.inl t)) : Ends body t → Ends body s
  | ⟨n, hn⟩ => ⟨n + 1, (roundAt_next h).trans hn⟩

theorem Ends.next (h : body s = .ok (.inl t)) : Ends body s → Ends body t
  | ⟨n + 1, hn⟩ => ⟨n, (roundAt_next h).symm.trans hn⟩

/-- A loop that keeps to a set of states in which it goes on never ends. -/
theorem not_ends_of_invariant (inv : σ → Prop)
    (hround : ∀ s, inv s → ∃ t, body s = .ok (.inl t) ∧ inv t) (hs : inv s) : ¬ Ends body s := by
  rintro ⟨n, hn⟩
  induction n generalizing s with
  | zero => cases hn
  | succ n ih =>
      obtain ⟨t, ht, hinv⟩ := hround s hs
      exact ih hinv ((roundAt_next ht).symm.trans hn)

theorem roundAt_add {m n : Nat} (h : roundAt body m s = some t) :
    roundAt body (m + n) s = roundAt body n t := by
  induction m generalizing s with
  | zero =>
      cases h
      rw [Nat.zero_add]
  | succ m ih =>
      rw [Nat.add_right_comm]
      cases hb : body s with
      | error e =>
          rw [roundAt, hb] at h
          cases h
      | ok next =>
          cases next with
          | inl u =>
              rw [roundAt_next hb] at h ⊢
              exact ih h
          | inr r =>
              rw [roundAt, hb] at h
              cases h

theorem Ends.of_roundAt {n : Nat} (h : roundAt body n s = some t) : Ends body t → Ends body s
  | ⟨m, hm⟩ => ⟨n + m, (roundAt_add h).trans hm⟩

theorem roundAt_none {m n : Nat} (h : roundAt body n s = none) (hle : n ≤ m) :
    roundAt body m s = none := by
  cases hm : roundAt body m s with
  | none => rfl
  | some t =>
      -- a later state has an earlier one
      induction n generalizing s m with
      | zero => cases h
      | succ n ih =>
          obtain ⟨m, rfl⟩ : ∃ k, m = k + 1 := ⟨m - 1, by omega⟩
          cases hb : body s with
          | error e =>
              rw [roundAt, hb] at hm
              cases hm
          | ok next =>
              cases next with
              | inl u =>
                  rw [roundAt_next hb] at h hm
                  exact ih h (by omega) hm
              | inr r =>
                  rw [roundAt, hb] at hm
                  cases hm

theorem roundAt_invariant {inv : σ → Prop}
    (hnext : ∀ s t, inv s → body s = .ok (.inl t) → inv t) (hs : inv s) {n : Nat}
    (h : roundAt body n s = some t) : inv t := by
  induction n generalizing s with
  | zero =>
      cases h
      exact hs
  | succ n ih =>
      cases hb : body s with
      | error e =>
          rw [roundAt, hb] at h
          cases h
      | ok next =>
          cases next with
          | inl u =>
              rw [roundAt_next hb] at h
              exact ih (hnext s u hs hb) h
          | inr r =>
              rw [roundAt, hb] at h
              cases h

/-- A loop whose rounds another one follows round by round. -/
theorem roundAt_simulates {ε' τ ρ' : Type} {body' : τ → Except ε' (τ ⊕ ρ')} {R : σ → τ → Prop}
    (hround : ∀ s t s', R s t → body s = .ok (.inl s') → ∃ t', body' t = .ok (.inl t') ∧ R s' t')
    {s s' : σ} {t : τ} (hst : R s t) {n : Nat} (h : roundAt body n s = some s') :
    ∃ t', roundAt body' n t = some t' ∧ R s' t' := by
  induction n generalizing s t with
  | zero =>
      cases h
      exact ⟨t, rfl, hst⟩
  | succ n ih =>
      cases hb : body s with
      | error e =>
          rw [roundAt, hb] at h
          cases h
      | ok next =>
          cases next with
          | inl u =>
              rw [roundAt_next hb] at h
              obtain ⟨v, hv, huv⟩ := hround s t u hst hb
              rw [roundAt_next hv]
              exact ih huv h
          | inr r =>
              rw [roundAt, hb] at h
              cases h

theorem loop_unique {m n : Nat} {r r' : ρ} (h : loop body late m s = .ok r)
    (h' : loop body late n s = .ok r') : r = r' := by
  induction m generalizing s n with
  | zero => cases h
  | succ m ih =>
      cases n with
      | zero => cases h'
      | succ n =>
          rw [loop] at h h'
          cases hb : body s with
          | error e =>
              rw [hb] at h
              cases h
          | ok next =>
              rw [hb] at h h'
              cases next with
              | inl t => exact ih h h'
              | inr r =>
                  cases h
                  cases h'
                  rfl

/-- A loop whose body never fails fails only when its bound is used up. -/
theorem loop_error (hbody : ∀ s e, body s ≠ .error e) (h : loop body late fuel s = .error e) :
    e = late := by
  induction fuel generalizing s with
  | zero =>
      cases h
      rfl
  | succ fuel ih =>
      rw [loop] at h
      cases hb : body s with
      | error e => exact absurd hb (hbody s e)
      | ok next =>
          rw [hb] at h
          cases next with
          | inl t => exact ih h
          | inr r => cases h

/-- Where two properties agree on the states of an invariant, and the second one keeps the
invariant, one of them holds in every round exactly if the other does. -/
theorem rounds_iff {inv P Q : σ → Prop} (hiff : ∀ s, inv s → (P s ↔ Q s))
    (hnext : ∀ s t, inv s → Q s → body s = .ok (.inl t) → inv t) (hs : inv s) :
    (∀ n t, roundAt body n s = some t → P t) ↔ ∀ n t, roundAt body n s = some t → Q t := by
  have hround : ∀ n s, inv s →
      ((∀ m t, roundAt body m s = some t → P t) ∨ ∀ m t, roundAt body m s = some t → Q t) →
      ∀ t, roundAt body n s = some t → inv t := by
    intro n
    induction n with
    | zero =>
        intro s hs _ t ht
        cases ht
        exact hs
    | succ n ih =>
        intro s hs hall t ht
        have hq : Q s := hall.elim (fun h => (hiff s hs).mp (h 0 s rfl)) fun h => h 0 s rfl
        cases hb : body s with
        | error e =>
            rw [roundAt, hb] at ht
            cases ht
        | ok next =>
            cases next with
            | inr r =>
                rw [roundAt, hb] at ht
                cases ht
            | inl u =>
                rw [roundAt_next hb] at ht
                refine ih u (hnext s u hs hq hb) ?_ t ht
                exact hall.imp (fun h m t hm => h (m + 1) t ((roundAt_next hb).trans hm))
                  fun h m t hm => h (m + 1) t ((roundAt_next hb).trans hm)
  constructor
  · exact fun h n t ht => (hiff t (hround n s hs (.inl h) t ht)).mp (h n t ht)
  · exact fun h n t ht => (hiff t (hround n s hs (.inr h) t ht)).mpr (h n t ht)

/-- A loop whose body never fails has a result exactly when its rounds end. -/
theorem loop_ok_iff (hbody : ∀ s e, body s ≠ .error e) :
    (∃ fuel r, loop body late fuel s = .ok r) ↔ Ends body s := by
  constructor
  · rintro ⟨fuel, r, h⟩
    induction fuel generalizing s with
    | zero => cases h
    | succ fuel ih =>
        cases hb : body s with
        | error e => exact absurd hb (hbody s e)
        | ok next =>
            cases next with
            | inl t => exact .of_next hb (ih ((loop_next hb).symm.trans h))
            | inr r => exact ⟨1, by rw [roundAt, hb]⟩
  · rintro ⟨n, h⟩
    induction n generalizing s with
    | zero => cases h
    | succ n ih =>
        cases hb : body s with
        | error e => exact absurd hb (hbody s e)
        | ok next =>
            cases next with
            | inl t =>
                obtain ⟨fuel, r, hr⟩ := ih ((roundAt_next hb).symm.trans h)
                exact ⟨fuel + 1, r, (loop_next hb).trans hr⟩
            | inr r => exact ⟨1, r, loop_done hb⟩

/-- A loop ends when each round makes a measure smaller, or leads to a state from which the rounds
are known to end. -/
theorem ends_of_decreasing {α : Type} {lt : α → α → Prop} (hwf : WellFounded lt) (measure : σ → α)
    (inv : σ → Prop)
    (hround : ∀ s t, inv s → body s = .ok (.inl t) →
      Ends body t ∨ (inv t ∧ lt (measure t) (measure s)))
    (hs : inv s) : Ends body s := by
  induction hm : measure s using hwf.induction generalizing s with
  | h a ih =>
      cases hb : body s with
      | error e => exact ⟨1, by rw [roundAt, hb]⟩
      | ok next =>
          cases next with
          | inl t =>
              apply Ends.of_next hb
              rcases hround s t hs hb with h | ⟨ht, hlt⟩
              · exact h
              · exact ih (measure t) (hm ▸ hlt) ht rfl
          | inr r => exact ⟨1, by rw [roundAt, hb]⟩

end

section

variable {ε α β : Type} {x : Except ε α} {k : α → Except ε β}

theorem bind_of_ok {a : α} (h : x = .ok a) : (x >>= k) = k a := by
  rw [h]
  rfl

theorem bind_of_error {e : ε} (h : x = .error e) : (x >>= k) = .error e := by
  rw [h]
  rfl

end

/-! ## Both ways out of a computation -/

section

variable {ε α β : Type} {Q : α → Prop} {R : β → Prop} {E : ε → Prop}

/-- What it returns satisfies `Q`, and what it fails with satisfies `E`. -/
def Returns (x : Except ε α) (Q : α → Prop) (E : ε → Prop) : Prop :=
  match x with
  | .ok a => Q a
  | .error e => E e

theorem Returns.bind {x : Except ε α} {k : α → Except ε β} (hx : Returns x Q E)
    (hk : ∀ a, Q a → Returns (k a) R E) : Returns (x >>= k) R E := by
  cases x with
  | ok a => exact hk a hx
  | error e => exact hx

/-- An invariant of the rounds holds where the loop is left. -/
theorem Returns.loop {σ ρ : Type} {R : ρ → Prop} {body : σ → Except ε (σ ⊕ ρ)} {late : ε}
    {fuel : Nat} {s : σ} (inv : σ → Prop) (hlate : E late)
    (hbody : ∀ s, inv s → Returns (body s) (Sum.elim inv R) E) (hs : inv s) :
    Returns (loop body late fuel s) R E := by
  induction fuel generalizing s with
  | zero => exact hlate
  | succ fuel ih =>
      have hround := hbody s hs
      rw [Framework.loop]
      cases hb : body s with
      | error e =>
          rw [hb] at hround
          exact hround
      | ok next =>
          rw [hb] at hround
          cases next with
          | inl t => exact ih hround
          | inr r => exact hround

end

end SyssoftLabs.Framework
