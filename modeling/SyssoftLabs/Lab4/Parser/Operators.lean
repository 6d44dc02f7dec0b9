import SyssoftLabs.Lab4.Parser.Printing
import SyssoftLabs.Lab4.Parser.Scan

/-!
# Which operators take effect

The operators of a vector against the commands that `make_cmdv` makes of it. Each command has a
segment of the vector, from its first word up to the next command. Whatever stands in a segment
behind a redirection operand, `;`, `&` and a following `<` apart, is stepped over.
-/

namespace SyssoftLabs.Lab4

open SyssoftLabs.Framework

def isOperator (t : CStr) : Bool :=
  t == [';'] || t == ['|'] || t == ['&'] || t == ['>'] || t == ['<']

def StartsWord (ts : List CStr) : Prop := ∀ t, ts.head? = some t → isWord t = true

/-- Every separator is one operator, followed by a word or the end; a `>` may be followed by one
more `>`. -/
def Spaced : List CStr → Prop
  | [] => True
  | t :: ts =>
      (isWord t = true ∨ isOperator t = true ∧
        (StartsWord ts ∨ t = ['>'] ∧ ∃ us, ts = ['>'] :: us ∧ StartsWord us)) ∧ Spaced ts

/-- The number of output operators: a run of `>` is one. -/
def outputOperators (behindOne : Bool) : List CStr → Nat
  | [] => 0
  | t :: ts =>
      if t = ['>'] then (if behindOne then 0 else 1) + outputOperators true ts
      else outputOperators false ts

/-- The tokens from each start up to the next one. -/
def segments (ts : List CStr) : List Nat → List (List CStr)
  | [] => []
  | [i] => [ts.drop i]
  | i :: j :: starts => (ts.drop i).take (j - i) :: segments ts (j :: starts)

/-- No operator of the vector is lost in the commands, of which command `j` begins at
`starts[j]`. -/
structure NothingIgnored (ts : List CStr) (starts : List Nat) (cmds : List Cmd) : Prop where
  pipes : cmds.countP Cmd.piped = ts.count ['|']
  outputs : cmds.countP Cmd.redirect = outputOperators false ts
  inputs : cmds.countP Cmd.redirectIn = ts.count ['<']
  marks : ∀ (j : Nat) (seg : List CStr) (c : Cmd), (segments ts starts)[j]? = some seg →
    cmds[j]? = some c → ['&'] ∈ seg → c.bg = true
  separated : ∀ (j : Nat) (seg : List CStr), j + 1 < cmds.length →
    (segments ts starts)[j]? = some seg → ∃ t ∈ seg, t = [';'] ∨ t = ['|'] ∨ t = ['&']

/-! ## One segment -/

/-- No operator of a segment is lost in its command. -/
structure Heeded (seg : List CStr) (c : Cmd) (last : Prop) : Prop where
  pipes : c.piped.toNat = seg.count ['|']
  outputs : c.redirect.toNat = outputOperators false seg
  inputs : c.redirectIn.toNat = seg.count ['<']
  separated : ¬ last → ∃ t ∈ seg, t = [';'] ∨ t = ['|'] ∨ t = ['&']

/-- What holds of every segment and its command. -/
structure Bounded (seg : List CStr) (c : Cmd) : Prop where
  starts : ∃ t ts, seg = t :: ts ∧ isWord t = true
  pipes : c.piped.toNat ≤ seg.count ['|']
  outputs : c.redirect.toNat ≤ outputOperators false seg
  inputs : c.redirectIn.toNat ≤ seg.count ['<']
  marks : ['&'] ∈ seg → c.bg = true

section

variable {ts ws rest : List CStr} {t : CStr}

private theorem isWord_ne {c : Char} (ht : isWord t = true) (hc : isSeparator c = true) :
    t ≠ [c] := by
  intro h
  rw [h] at ht
  simp [isWord, startsSeparator, hc] at ht

private theorem count_words {c : Char} (hc : isSeparator c = true)
    (hws : ∀ w ∈ ws, isWord w = true) :
    ws.count [c] = 0 := by
  rw [List.count_eq_zero]
  intro hm
  exact isWord_ne (hws _ hm) hc rfl

private theorem outputOperators_words (b : Bool) (hne : ws ≠ []) (hws : ∀ w ∈ ws, isWord w = true) :
    outputOperators b (ws ++ rest) = outputOperators false rest := by
  induction ws generalizing b with
  | nil => exact absurd rfl hne
  | cons w ws ih =>
      have hw := isWord_ne (hws w List.mem_cons_self) (c := '>') (by decide)
      rw [List.cons_append, outputOperators, if_neg hw]
      cases ws with
      | nil => rfl
      | cons u us =>
          exact ih false (List.cons_ne_nil _ _) fun v hv => hws v (List.mem_cons_of_mem w hv)

private theorem outputOperators_append (b : Bool) (seg : List CStr) (h : StartsWord rest) :
    outputOperators b (seg ++ rest) = outputOperators b seg + outputOperators false rest := by
  induction seg generalizing b with
  | nil =>
      cases rest with
      | nil => rfl
      | cons t rest =>
          have ht := isWord_ne (h t rfl) (c := '>') (by decide)
          show outputOperators b (t :: rest) = 0 + _
          rw [outputOperators, outputOperators, if_neg ht, if_neg ht, Nat.zero_add]
  | cons t seg ih =>
      rw [List.cons_append, outputOperators, outputOperators]
      split
      · rw [ih, Nat.add_assoc]
      · rw [ih]

private theorem spaced_gap (h : Spaced ts) :
    ts.takeWhile startsSeparator = [] ∨
    (∃ t, isOperator t = true ∧ ts.takeWhile startsSeparator = [t]) ∨
    ts.takeWhile startsSeparator = [['>'], ['>']] := by
  have hgap : ∀ us : List CStr, StartsWord us → us.takeWhile startsSeparator = [] := by
    intro us hus
    cases us with
    | nil => rfl
    | cons u us =>
        have := hus u rfl
        exact List.takeWhile_cons_of_neg (by simpa [isWord] using this)
  cases ts with
  | nil => exact .inl rfl
  | cons t ts =>
      obtain ⟨h, -⟩ := h
      rcases h with ht | ⟨ht, hnext | ⟨rfl, us, rfl, hus⟩⟩
      · left
        exact List.takeWhile_cons_of_neg (by simpa [isWord] using ht)
      · right
        left
        have hsep : startsSeparator t = true := by
          simp only [isOperator, Bool.or_eq_true, beq_iff_eq] at ht
          rcases ht with (((rfl | rfl) | rfl) | rfl) | rfl <;> rfl
        exact ⟨t, ht, by rw [List.takeWhile_cons_of_pos hsep, hgap ts hnext]⟩
      · right
        right
        rw [List.takeWhile_cons_of_pos rfl, List.takeWhile_cons_of_pos rfl, hgap us hus]

private theorem spaced_append {seg : List CStr} (h : Spaced (seg ++ rest)) : Spaced rest := by
  induction seg with
  | nil => exact h
  | cons t seg ih => exact ih h.2

/-- Where a command may have ended: behind its words or behind an operand. -/
def EndsAt (τ : Scan) (ts : List CStr) : Prop :=
  ClosesAt τ ts ∧ (τ = .word ∨ τ = .outputFile ∨ τ = .inputFile)

private theorem heeds_gap (ts : List CStr) :
    Scan.gap.heeds ts = Scan.gap.heeds (ts.dropWhile startsSeparator) := by
  induction ts with
  | nil => rfl
  | cons t ts ih =>
      by_cases hs : startsSeparator t = true
      · have hnext : Scan.gap.next t = some .gap := by simp [Scan.next, isWord, hs]
        rw [List.dropWhile_cons_of_pos hs, ← ih]
        simp [Scan.heeds, Scan.ignores, hnext]
      · rw [List.dropWhile_cons_of_neg hs]

private theorem heeds_endsAt {τ : Scan} (h : EndsAt τ ts) (hs : Spaced ts) :
    τ.heeds ts = true ↔
      Terminated ts ∧ Scan.gap.heeds (ts.dropWhile startsSeparator) = true := by
  cases ts with
  | nil => exact ⟨fun _ => ⟨(fun t ht => by cases ht), rfl⟩, fun _ => rfl⟩
  | cons t ts =>
      obtain ⟨hclose, hτ⟩ := h
      obtain ⟨hnext, hne⟩ := next_closesAt hclose
      have hterm : Terminated (t :: ts) ↔ t = [';'] ∨ t = ['&'] :=
        ⟨fun h => h t rfl, (fun h u hu => by cases hu; exact h)⟩
      rw [hterm]
      rcases hs.1 with hw | ⟨hop, -⟩
      · have hign : τ.ignores t = true := by
          rcases hτ with rfl | rfl | rfl
          · exact absurd rfl (hne hw)
          · simp [Scan.ignores, hw]
          · simp [Scan.ignores, hw]
        have hne' : ¬ (t = [';'] ∨ t = ['&']) := by
          rintro (ht | ht)
          · exact isWord_ne hw (by decide) ht
          · exact isWord_ne hw (by decide) ht
        simp [Scan.heeds, hign, hne']
      · have hsep : startsSeparator t = true := by
          simp only [isOperator, Bool.or_eq_true, beq_iff_eq] at hop
          rcases hop with (((rfl | rfl) | rfl) | rfl) | rfl <;> rfl
        have hw : isWord t = false := by simp [isWord, hsep]
        have hgap : Scan.gap.heeds ((t :: ts).dropWhile startsSeparator) = Scan.gap.heeds ts := by
          rw [List.dropWhile_cons_of_pos hsep, ← heeds_gap]
        have hheeds : τ.heeds (t :: ts) = (!τ.ignores t && Scan.gap.heeds ts) := by
          simp [Scan.heeds, hnext, hw]
        rw [hgap, hheeds, Bool.and_eq_true]
        simp only [isOperator, Bool.or_eq_true, beq_iff_eq] at hop
        rcases hop with (((rfl | rfl) | rfl) | rfl) | rfl
        · rcases hτ with rfl | rfl | rfl <;> simp [Scan.ignores, hw]
        · rcases hτ with rfl | rfl | rfl
          · exact absurd rfl (hclose _ rfl).2.1
          · simp [Scan.ignores]
          · simp [Scan.ignores]
        · rcases hτ with rfl | rfl | rfl <;> simp [Scan.ignores, hw]
        · rcases hτ with rfl | rfl | rfl
          · exact absurd rfl (hclose _ rfl).2.2.1
          · simp [Scan.ignores]
          · simp [Scan.ignores]
        · rcases hτ with rfl | rfl | rfl
          · exact absurd rfl (hclose _ rfl).2.2.2
          · exact absurd rfl hclose
          · simp [Scan.ignores]

/-- What the operators of a command and their operands count for. -/
structure Operands (ops : List CStr) (outputs inputs : Bool) : Prop where
  outputs : ∀ rest, outputOperators false (ops ++ rest) =
    outputs.toNat + outputOperators false rest
  inputs : ops.count ['<'] = inputs.toNat
  others : ∀ t ∈ ops, t ≠ [';'] ∧ t ≠ ['|'] ∧ t ≠ ['&']

theorem Operands.nil : Operands [] false false :=
  ⟨fun _ => (Nat.zero_add _).symm, rfl, fun t ht => by cases ht⟩

private theorem word_others (ht : isWord t = true) : t ≠ [';'] ∧ t ≠ ['|'] ∧ t ≠ ['&'] :=
  ⟨isWord_ne ht (by decide), isWord_ne ht (by decide), isWord_ne ht (by decide)⟩

private theorem operands_input {file : CStr} (hf : isWord file = true) :
    Operands [['<'], file] false true := by
  have hgt := isWord_ne hf (c := '>') (by decide)
  have hlt := isWord_ne hf (c := '<') (by decide)
  constructor
  · intro rest
    simp [outputOperators, hgt]
  · simp [hlt]
  · intro t ht
    simp only [List.mem_cons, List.not_mem_nil, or_false] at ht
    rcases ht with rfl | rfl
    · decide
    · exact word_others hf

private theorem operands_output {file : CStr} (hf : isWord file = true) :
    Operands [['>'], file] true false ∧ Operands [['>'], ['>'], file] true false := by
  have hgt := isWord_ne hf (c := '>') (by decide)
  have hlt := isWord_ne hf (c := '<') (by decide)
  constructor
  · refine ⟨fun rest => by simp [outputOperators, hgt], by simp [hlt], ?_⟩
    intro t ht
    simp only [List.mem_cons, List.not_mem_nil, or_false] at ht
    rcases ht with rfl | rfl
    · decide
    · exact word_others hf
  · refine ⟨fun rest => by simp [outputOperators, hgt], by simp [hlt], ?_⟩
    intro t ht
    simp only [List.mem_cons, List.not_mem_nil, or_false] at ht
    rcases ht with rfl | rfl | rfl
    · decide
    · decide
    · exact word_others hf

theorem Operands.append {ops ops' : List CStr} {outputs inputs : Bool}
    (h : Operands ops outputs false) (h' : Operands ops' false inputs) :
    Operands (ops ++ ops') outputs inputs := by
  constructor
  · intro rest
    rw [List.append_assoc, h.outputs, h'.outputs]
    simp
  · rw [List.count_append, h.inputs, h'.inputs]
    simp
  · intro t ht
    rcases List.mem_append.mp ht with ht | ht
    · exact h.others t ht
    · exact h'.others t ht

theorem Spaced.operand {op file : CStr} (h : Spaced (op :: file :: rest))
    (hop : startsSeparator op = true) (hne : op = ['>'] → file ≠ ['>']) : isWord file = true := by
  rcases h.1 with hw | ⟨-, hnext | ⟨ho, us, hus, -⟩⟩
  · simp [isWord, hop] at hw
  · exact hnext file rfl
  · exact absurd (List.cons.inj hus).1 (hne ho)

private theorem redirectInput_shape {σ : Scan} {c c' : Cmd} (hs : Spaced ts) (hσ : BeforeInput σ ts)
    (hc : c.redirectIn = false) (h : redirectInput c ts = some (c', rest)) :
    ∃ ops τ, ts = ops ++ rest ∧ c'.redirect = c.redirect ∧ c'.bg = c.bg ∧
      Operands ops false c'.redirectIn ∧ EndsAt τ rest ∧ σ.heeds ts = τ.heeds rest := by
  rcases redirectInput_cases c ts with
    ⟨hr, hlt⟩ | ⟨hr, -⟩ | ⟨file, rest', rfl, hr⟩
  · rw [hr] at h
    cases h
    refine ⟨[], σ, rfl, rfl, rfl, hc ▸ Operands.nil, ⟨hσ.closesAt hlt, ?_⟩, rfl⟩
    rcases hσ with ⟨rfl, -⟩ | rfl
    · exact .inl rfl
    · exact .inr (.inl rfl)
  · rw [hr] at h
    cases h
  · rw [hr] at h
    cases h
    have hf := hs.operand rfl fun h => by cases h
    refine ⟨[['<'], file], .inputFile, rfl, rfl, rfl, operands_input hf,
      ⟨trivial, .inr (.inr rfl)⟩, ?_⟩
    have hign : σ.ignores ['<'] = false := by
      rcases hσ with ⟨rfl, -⟩ | rfl <;> rfl
    rw [Scan.heeds_cons _ hσ.next hign, Scan.heeds_cons _ rfl rfl]

private theorem endRound_shape {c c' : Cmd} {marks : Bool} (hs : Spaced ts)
    (hhead : ∀ t, ts.head? = some t → isWord t = false ∧ t ≠ ['|'])
    (hc : c.redirect = false ∧ c.redirectIn = false ∧ c.bg = false)
    (h : endRound c ts = .next c' marks rest) :
    ∃ ops ts₂ τ, ts = ops ++ ts₂ ∧ rest = ts₂.dropWhile startsSeparator ∧
      c'.bg = decide (ts₂.head? = some ['&']) ∧ Operands ops c'.redirect c'.redirectIn ∧
      EndsAt τ ts₂ ∧ Scan.word.heeds ts = τ.heeds ts₂ := by
  obtain ⟨c₁, ts₁, c₂, ts₂, hout, hin, hmarks, hc', hrest⟩ := endRound_next h
  obtain ⟨ops, σ, hsplit, hsame, hops, hσ, hheeds⟩ : ∃ ops σ, ts = ops ++ ts₁ ∧
      (c₁.redirectIn = false ∧ c₁.bg = false) ∧ Operands ops c₁.redirect false ∧
      BeforeInput σ ts₁ ∧ Scan.word.heeds ts = σ.heeds ts₁ := by
    rcases redirectOutput_cases c ts with
      ⟨hr, hgt⟩ | ⟨hr, -⟩ | ⟨file, rest', hf, rfl, hr⟩ | ⟨file, rest', rfl, hr⟩
    · rw [hr] at hout
      cases hout
      refine ⟨[], .word, rfl, hc.2, hc.1 ▸ Operands.nil, .inl ⟨rfl, fun t ht => ?_⟩, rfl⟩
      exact ⟨(hhead t ht).1, (hhead t ht).2, fun ho => hgt (ho ▸ ht)⟩
    · rw [hr] at hout
      cases hout
    · rw [hr] at hout
      cases hout
      have hword := hs.operand rfl fun _ => hf
      refine ⟨[['>'], file], .outputFile, rfl, hc.2, (operands_output hword).1, .inr rfl, ?_⟩
      have hfile : Scan.output.next file = some .outputFile := if_neg hf
      rw [Scan.heeds_cons (τ := .output) _ rfl rfl, Scan.heeds_cons _ hfile rfl]
    · rw [hr] at hout
      cases hout
      have hword : isWord file = true := by
        rcases hs.1 with hw | ⟨-, hnext | ⟨-, us, hus, hstart⟩⟩
        · cases hw
        · cases hnext _ rfl
        · cases hus
          exact hstart file rfl
      refine ⟨[['>'], ['>'], file], .outputFile, rfl, hc.2, (operands_output hword).2, .inr rfl, ?_⟩
      rw [Scan.heeds_cons (τ := .output) _ rfl rfl, Scan.heeds_cons (τ := .append) _ rfl rfl,
        Scan.heeds_cons _ rfl rfl]
  have hs₁ : Spaced ts₁ := spaced_append (hsplit ▸ hs)
  obtain ⟨ops', τ, hsplit', hredirect, hbg, hops', hends, hheeds'⟩ :=
    redirectInput_shape hs₁ hσ hsame.1 hin
  refine ⟨ops ++ ops', ts₂, τ, ?_, hrest, ?_, ?_, hends, hheeds.trans hheeds'⟩
  · rw [hsplit, hsplit', List.append_assoc]
  · rw [hc', ← hmarks]
    cases marks with
    | true => rfl
    | false => exact hbg.trans hsame.2
  · have happend := (hredirect ▸ hops).append hops'
    rw [hc']
    cases marks with
    | true => exact happend
    | false => exact happend

private theorem segment_counts {ops : List CStr} (gap : List CStr) {outputs inputs : Bool}
    (hne : ws ≠ []) (hws : ∀ w ∈ ws, isWord w = true) (hops : Operands ops outputs inputs) :
    (ws ++ ops ++ gap).count ['|'] = gap.count ['|'] ∧
    outputOperators false (ws ++ ops ++ gap) = outputs.toNat + outputOperators false gap ∧
    (ws ++ ops ++ gap).count ['<'] = inputs.toNat + gap.count ['<'] ∧
    ∀ t, t = [';'] ∨ t = ['|'] ∨ t = ['&'] → (t ∈ ws ++ ops ++ gap ↔ t ∈ gap) := by
  have hpipe : ops.count ['|'] = 0 := by
    rw [List.count_eq_zero]
    exact fun hm => (hops.others _ hm).2.1 rfl
  refine ⟨?_, ?_, ?_, ?_⟩
  · rw [List.count_append, List.count_append, count_words (by decide) hws, hpipe]
    omega
  · rw [List.append_assoc, outputOperators_words false hne hws, hops.outputs]
  · rw [List.count_append, List.count_append, count_words (by decide) hws, hops.inputs]
    omega
  · intro t ht
    have hw : t ∉ ws := by
      intro hm
      rcases ht with rfl | rfl | rfl
      · exact isWord_ne (hws _ hm) (by decide) rfl
      · exact isWord_ne (hws _ hm) (by decide) rfl
      · exact isWord_ne (hws _ hm) (by decide) rfl
    have ho : t ∉ ops := by
      intro hm
      obtain ⟨h₁, h₂, h₃⟩ := hops.others t hm
      rcases ht with h | h | h
      · exact h₁ h
      · exact h₂ h
      · exact h₃ h
    simp [hw, ho]

private theorem heeded_noGap {ops : List CStr} {c : Cmd} (hne : ws ≠ [])
    (hws : ∀ w ∈ ws, isWord w = true)
    (hops : Operands ops c.redirect c.redirectIn) (hp : c.piped = false)
    (hgap : ts.takeWhile startsSeparator = []) :
    Heeded (ws ++ ops ++ []) c (ts.dropWhile startsSeparator = []) ↔ Terminated ts := by
  obtain ⟨hpipes, houts, hins, hmem⟩ := segment_counts [] hne hws hops
  have hsplit : ts.dropWhile startsSeparator = ts := by
    have h := List.takeWhile_append_dropWhile (p := startsSeparator) (l := ts)
    rwa [hgap, List.nil_append] at h
  constructor
  · intro h t ht
    have hrest : ¬ ts.dropWhile startsSeparator = [] := by
      intro hr
      rw [← hsplit, hr] at ht
      cases ht
    obtain ⟨u, hu, hop⟩ := h.separated hrest
    cases (hmem u hop).mp hu
  · intro h
    have hrest : ts.dropWhile startsSeparator = [] := by
      by_contra hne
      obtain ⟨t, us, ht⟩ := List.exists_cons_of_ne_nil hne
      have hword : startsSeparator t = false := by
        have := List.head?_dropWhile_not startsSeparator ts
        simpa [ht] using this
      rw [hsplit] at ht
      rcases h t (by rw [ht]; rfl) with rfl | rfl <;> cases hword
    exact ⟨by rw [hp, hpipes]; rfl, by rw [houts]; rfl, by rw [hins]; rfl,
      fun hne => absurd hrest hne⟩

private theorem heeded_operator {ops : List CStr} {c : Cmd} {t : CStr} (hne : ws ≠ [])
    (hws : ∀ w ∈ ws, isWord w = true) (hops : Operands ops c.redirect c.redirectIn)
    (hp : c.piped = false) (hop : isOperator t = true) (hhead : ts.head? = some t) (last : Prop) :
    Heeded (ws ++ ops ++ [t]) c last ↔ Terminated ts := by
  obtain ⟨hpipes, houts, hins, hmem⟩ := segment_counts [t] hne hws hops
  constructor
  · intro h u hu
    rw [hhead] at hu
    cases hu
    have hp' := h.pipes
    have ho' := h.outputs
    have hi' := h.inputs
    rw [hpipes, hp] at hp'
    rw [houts] at ho'
    rw [hins] at hi'
    simp only [isOperator, Bool.or_eq_true, beq_iff_eq] at hop
    rcases hop with (((rfl | rfl) | rfl) | rfl) | rfl
    · exact .inl rfl
    · cases hp'
    · exact .inr rfl
    · simp [outputOperators] at ho'
    · simp at hi'
  · intro h
    have ht := h t hhead
    have hnone : [t].count ['|'] = 0 ∧ outputOperators false [t] = 0 ∧ [t].count ['<'] = 0 := by
      rcases ht with rfl | rfl <;> decide
    refine ⟨by rw [hp, hpipes, hnone.1]; rfl, by rw [houts, hnone.2.1]; rfl,
      by rw [hins, hnone.2.2]; rfl, fun _ => ⟨t, ?_, ?_⟩⟩
    · exact (hmem t (by rcases ht with h | h <;> simp [h])).mpr (List.mem_singleton_self t)
    · rcases ht with h | h <;> simp [h]

private theorem heeded_gap {ops : List CStr} {c : Cmd} (hne : ws ≠ [])
    (hws : ∀ w ∈ ws, isWord w = true)
    (hops : Operands ops c.redirect c.redirectIn) (hs : Spaced ts) (hp : c.piped = false) :
    Heeded (ws ++ ops ++ ts.takeWhile startsSeparator) c (ts.dropWhile startsSeparator = []) ↔
      Terminated ts := by
  have hsplit : ts.takeWhile startsSeparator ++ ts.dropWhile startsSeparator = ts :=
    List.takeWhile_append_dropWhile
  rcases spaced_gap hs with hgap | ⟨t, hop, hgap⟩ | hgap
  · rw [hgap]
    exact heeded_noGap hne hws hops hp hgap
  · rw [hgap] at hsplit ⊢
    exact heeded_operator hne hws hops hp hop (by rw [← hsplit]; rfl) _
  · obtain ⟨-, houts, -, -⟩ := segment_counts [['>'], ['>']] hne hws hops
    rw [hgap] at hsplit ⊢
    constructor
    · intro h
      have ho := h.outputs
      rw [houts] at ho
      simp [outputOperators] at ho
    · intro h
      rcases h ['>'] (by rw [← hsplit]; rfl) with h | h <;> cases h

private theorem heeds_words (hws : ∀ w ∈ ws, isWord w = true) :
    Scan.word.heeds (ws ++ rest) = Scan.word.heeds rest := by
  induction ws with
  | nil => rfl
  | cons w ws ih =>
      have hnext : Scan.word.next w = some .word := if_pos (hws w List.mem_cons_self)
      rw [List.cons_append, Scan.heeds_cons _ hnext rfl]
      exact ih fun u hu => hws u (List.mem_cons_of_mem w hu)

private theorem heeds_start (ht : isWord t = true) :
    Scan.gap.heeds (t :: ts) = Scan.word.heeds ((t :: ts).dropWhile isWord) := by
  have hwords : Scan.word.heeds (ts.takeWhile isWord ++ ts.dropWhile isWord) =
      Scan.word.heeds (ts.dropWhile isWord) :=
    heeds_words (List.all_eq_true.mp List.all_takeWhile)
  rw [List.takeWhile_append_dropWhile] at hwords
  rw [List.dropWhile_cons_of_pos ht, ← hwords]
  exact Scan.heeds_cons _ (if_pos ht) rfl

private theorem words_start (hne : ws ≠ []) (hws : ∀ w ∈ ws, isWord w = true) (us : List CStr) :
    ∃ u us', ws ++ us = u :: us' ∧ isWord u = true := by
  obtain ⟨w, ws', rfl⟩ := List.exists_cons_of_ne_nil hne
  exact ⟨w, ws' ++ us, rfl, hws w List.mem_cons_self⟩

private theorem segment_last (pipeNext : Bool) (hne : ws ≠ []) (hws : ∀ w ∈ ws, isWord w = true) :
    Bounded ws (wordsCmd pipeNext ws) ∧
      Heeded ws (wordsCmd pipeNext ws) (([] : List CStr) = []) := by
  obtain ⟨hpipes, houts, hins, hmem⟩ := segment_counts [] hne hws Operands.nil
  have hstart := words_start hne hws []
  simp only [List.append_nil] at hpipes houts hins hmem hstart
  constructor
  · refine ⟨hstart, Nat.zero_le _, Nat.zero_le _, Nat.zero_le _, fun hm => ?_⟩
    cases (hmem _ (.inr (.inr rfl))).mp hm
  · exact ⟨hpipes.symm, houts.symm, hins.symm, fun h => absurd rfl h⟩

private theorem segment_pipe (pipeNext : Bool) (hne : ws ≠ []) (hws : ∀ w ∈ ws, isWord w = true)
    (last : Prop) :
    Bounded (ws ++ [['|']]) { wordsCmd pipeNext ws with out := 2, piped := true } ∧
      Heeded (ws ++ [['|']]) { wordsCmd pipeNext ws with out := 2, piped := true } last := by
  obtain ⟨hpipes, houts, hins, hmem⟩ := segment_counts [['|']] hne hws Operands.nil
  simp only [List.append_nil] at hpipes houts hins hmem
  constructor
  · refine ⟨words_start hne hws _, by rw [hpipes]; rfl, Nat.zero_le _, Nat.zero_le _, fun hm => ?_⟩
    have hamp := (hmem _ (.inr (.inr rfl))).mp hm
    rw [List.mem_singleton] at hamp
    cases hamp
  · refine ⟨?_, ?_, ?_, fun _ => ?_⟩
    · rw [hpipes]
      rfl
    · rw [houts]
      rfl
    · rw [hins]
      rfl
    · exact ⟨['|'], (hmem _ (.inr (.inl rfl))).mpr (List.mem_singleton_self _), .inr (.inl rfl)⟩

private theorem heeds_pipe {u : CStr} (hu : isWord u = true) (us : List CStr) :
    Scan.word.heeds (['|'] :: u :: us) = Scan.gap.heeds (u :: us) := by
  have hnext : Scan.pipe.next u = some .word := if_pos hu
  have hgap : Scan.gap.next u = some .word := if_pos hu
  rw [Scan.heeds_cons (τ := .pipe) _ rfl rfl, Scan.heeds_cons _ hnext rfl,
    Scan.heeds_cons _ hgap rfl]

private theorem segment_operands {pipeNext marks : Bool} {c : Cmd} (hne : ws ≠ [])
    (hws : ∀ w ∈ ws, isWord w = true) (hs : Spaced ts)
    (hhead : ∀ t, ts.head? = some t → isWord t = false ∧ t ≠ ['|'])
    (hr : endRound (wordsCmd pipeNext ws) ts = .next c marks rest) :
    ∃ seg, ws ++ ts = seg ++ rest ∧ Bounded seg c ∧
      (Scan.word.heeds ts = true ↔ Heeded seg c (rest = []) ∧ Scan.gap.heeds rest = true) := by
  obtain ⟨ops, ts₂, τ, hsplit, rfl, hbg, hops, hends, hheeds⟩ :=
    endRound_shape hs hhead ⟨rfl, rfl, rfl⟩ hr
  have hs₂ : Spaced ts₂ := spaced_append (hsplit ▸ hs)
  have hpiped : c.piped = false := (endRound_keeps hr).piped
  have hgap : ts₂.takeWhile startsSeparator ++ ts₂.dropWhile startsSeparator = ts₂ :=
    List.takeWhile_append_dropWhile
  obtain ⟨hpipes, houts, hins, hmem⟩ :=
    segment_counts (ts₂.takeWhile startsSeparator) hne hws hops
  refine ⟨ws ++ ops ++ ts₂.takeWhile startsSeparator, ?_, ⟨?_, ?_, ?_, ?_, ?_⟩, ?_⟩
  · rw [List.append_assoc, hgap, List.append_assoc, ← hsplit]
  · rw [List.append_assoc]
    exact words_start hne hws _
  · rw [hpiped]
    exact Nat.zero_le _
  · rw [houts]
    exact Nat.le_add_right _ _
  · rw [hins]
    exact Nat.le_add_right _ _
  · intro hm
    have hamp := (hmem _ (.inr (.inr rfl))).mp hm
    rw [hbg, decide_eq_true_eq]
    rcases spaced_gap hs₂ with h | ⟨t, -, h⟩ | h
    · rw [h] at hamp
      cases hamp
    · rw [h, List.mem_singleton] at hamp
      rw [h, ← hamp] at hgap
      rw [← hgap]
      rfl
    · rw [h] at hamp
      simp at hamp
  · rw [hheeds, heeds_endsAt hends hs₂, heeded_gap hne hws hops hs₂ hpiped]

private theorem round_segment {pipeNext marks : Bool} {c : Cmd} (hs : Spaced ts) (hne : ts ≠ [])
    (hword : StartsWord ts) (hr : round pipeNext ts = .next c marks rest) :
    ∃ seg, ts = seg ++ rest ∧ Bounded seg c ∧
      (Scan.gap.heeds ts = true ↔ Heeded seg c (rest = []) ∧ Scan.gap.heeds rest = true) := by
  obtain ⟨t, ts', rfl⟩ := List.exists_cons_of_ne_nil hne
  have ht := hword t rfl
  have hws : ∀ w ∈ (t :: ts').takeWhile isWord, isWord w = true :=
    List.all_eq_true.mp List.all_takeWhile
  have hsplit : (t :: ts').takeWhile isWord ++ (t :: ts').dropWhile isWord = t :: ts' :=
    List.takeWhile_append_dropWhile
  have hwne : (t :: ts').takeWhile isWord ≠ [] := by
    rw [List.takeWhile_cons_of_pos ht]
    exact List.cons_ne_nil _ _
  rw [heeds_start ht]
  have hcases := round_cases hr
  generalize (t :: ts').takeWhile isWord = ws at hws hsplit hwne hcases ⊢
  rcases hcases with ⟨hd, rfl, -, rfl⟩ | ⟨u, us, hd, hu, rfl, -, rfl⟩ | ⟨op, tail, hd, hp, hend⟩
  · rw [hd] at hsplit
    obtain ⟨hbounded, hheeded⟩ := segment_last pipeNext hwne hws
    rw [hd]
    exact ⟨ws, hsplit.symm, hbounded, fun _ => ⟨hheeded, rfl⟩, fun _ => rfl⟩
  · rw [hd] at hsplit
    obtain ⟨hbounded, hheeded⟩ := segment_pipe pipeNext hwne hws (u :: us = [])
    rw [hd, heeds_pipe hu]
    exact ⟨ws ++ [['|']], by rw [List.append_assoc, ← hsplit]; rfl, hbounded,
      fun h => ⟨hheeded, h⟩, fun h => h.2⟩
  · have hsep := startsSeparator_of_dropWhile hd
    rw [hd] at hsplit
    have hs' : Spaced (op :: tail) := spaced_append (hsplit ▸ hs)
    have hhead : ∀ t, (op :: tail).head? = some t → isWord t = false ∧ t ≠ ['|'] := by
      intro t ht
      cases ht
      exact ⟨by simp [isWord, hsep], hp⟩
    rw [hd, ← hsplit]
    exact segment_operands hwne hws hs' hhead hend

end

/-! ## The whole vector -/

/-- No part loses an operator. -/
def AllHeeded : List Part → Prop
  | [] => True
  | p :: parts => Heeded p.tokens p.cmd (parts = []) ∧ AllHeeded parts

private theorem parse_segments (pipeNext : Bool) {ts : List CStr} {parts : List Part}
    (hs : Spaced ts) (hword : StartsWord ts) (hp : parse pipeNext ts = (.accepted, parts)) :
    ts = (parts.map Part.tokens).flatten ∧ (∀ p ∈ parts, Bounded p.tokens p.cmd) ∧
      (parts = [] ↔ ts = []) ∧ (Scan.gap.heeds ts = true ↔ AllHeeded parts) := by
  induction hn : ts.length using Nat.strongRecOn generalizing pipeNext ts parts with
  | ind n ih =>
      by_cases hne : ts = []
      · subst hne
        rw [parse_nil] at hp
        cases hp
        exact ⟨rfl, fun p hp => (by cases hp), ⟨fun _ => rfl, fun _ => rfl⟩, fun _ => trivial,
          fun _ => rfl⟩
      · cases hr : round pipeNext ts with
        | next c marks rest =>
            rw [parse_next hne hr] at hp
            obtain ⟨hverdict, rfl⟩ := Prod.mk.inj hp
            obtain ⟨seg, rfl, hbounded, hheeds⟩ := round_segment hs hne hword hr
            have hlt : rest.length < n := hn ▸ round_rest hne hr
            obtain ⟨hflat, hall, hempty, hih⟩ := ih rest.length hlt c.piped (spaced_append hs)
              (round_rest_word hr) (Prod.ext hverdict rfl) rfl
            have htokens : (seg ++ rest).take ((seg ++ rest).length - rest.length) = seg := by
              rw [List.length_append, Nat.add_sub_cancel]
              exact List.take_left
            rw [htokens]
            refine ⟨?_, ?_, ?_, ?_⟩
            · rw [List.map_cons, List.flatten_cons, ← hflat]
            · intro p hp
              rcases List.mem_cons.mp hp with rfl | hp
              · exact hbounded
              · exact hall p hp
            · exact ⟨(fun h => by cases h), fun h => absurd h hne⟩
            · rw [hheeds, hih, AllHeeded, propext hempty]
        | dropped =>
            rw [parse_dropped hne hr] at hp
            cases hp
        | dangling =>
            rw [parse_dangling hne hr] at hp
            cases hp

private theorem segments_callsOf (ts : List CStr) (parts : List Part) (k : Nat)
    (h : ts.drop k = (parts.map Part.tokens).flatten) :
    segments ts ((callsOf k parts).map Prod.fst) = parts.map Part.tokens := by
  induction parts generalizing k with
  | nil => rfl
  | cons p parts ih =>
      cases parts with
      | nil =>
          show [ts.drop k] = [p.tokens]
          rw [h]
          simp
      | cons q parts =>
          have hdrop : ts.drop (k + p.tokens.length) =
              ((q :: parts).map Part.tokens).flatten := by
            rw [← List.drop_drop, h, List.map_cons, List.flatten_cons]
            exact List.drop_left
          have htake : (ts.drop k).take (k + p.tokens.length - k) = p.tokens := by
            rw [h, Nat.add_sub_cancel_left, List.map_cons, List.flatten_cons]
            exact List.take_left
          have hrest := ih (k + p.tokens.length) hdrop
          show (ts.drop k).take (k + p.tokens.length - k) ::
            segments ts ((callsOf (k + p.tokens.length) (q :: parts)).map Prod.fst) = _
          rw [htake, hrest]
          rfl

private theorem sum_map_le_eq {α : Type} {f g : α → Nat} {l : List α}
    (h : ∀ a ∈ l, f a ≤ g a) : (l.map f).sum ≤ (l.map g).sum ∧
      ((l.map f).sum = (l.map g).sum ↔ ∀ a ∈ l, f a = g a) := by
  induction l with
  | nil => simp
  | cons a l ih =>
      have ha := h a List.mem_cons_self
      obtain ⟨hle, hiff⟩ := ih fun b hb => h b (List.mem_cons_of_mem a hb)
      rw [List.map_cons, List.map_cons, List.sum_cons, List.sum_cons, List.forall_mem_cons, ← hiff]
      omega

private theorem settle_bg {parts : List Part} {j : Nat} {p : Part} {c : Cmd}
    (hp : parts[j]? = some p)
    (hc : (settle parts)[j]? = some c) (hbg : p.cmd.bg = true) : c.bg = true := by
  induction parts generalizing j with
  | nil => cases hp
  | cons q parts ih =>
      cases parts with
      | nil =>
          cases j with
          | zero =>
              cases hp
              cases hc
              exact hbg
          | succ j => cases hp
      | cons r parts =>
          cases j with
          | zero =>
              cases hp
              simp only [settle, List.getElem?_cons_zero, Option.some.injEq] at hc
              rw [← hc]
              split
              · rfl
              · exact hbg
          | succ j => exact ih hp hc

private theorem countP_settle (f : Cmd → Bool) (hf : ∀ c, f { c with bg := true } = f c)
    (parts : List Part) :
    (settle parts).countP f = (parts.map fun p => (f p.cmd).toNat).sum := by
  have hmap := settle_map f hf parts
  have hcount : ∀ cmds : List Cmd, cmds.countP f = ((cmds.map f).map Bool.toNat).sum := by
    intro cmds
    induction cmds with
    | nil => rfl
    | cons c cmds ih =>
        rw [List.countP_cons, ih, List.map_cons, List.map_cons, List.sum_cons]
        cases f c <;> simp [Nat.add_comm]
  rw [hcount, hmap, List.map_map]
  rfl

private theorem allHeeded_iff (parts : List Part) :
    AllHeeded parts ↔ ∀ (j : Nat) (p : Part), parts[j]? = some p →
      Heeded p.tokens p.cmd (j + 1 = parts.length) := by
  induction parts with
  | nil => exact ⟨fun _ j p hp => (by cases hp), fun _ => trivial⟩
  | cons q parts ih =>
      have hlast : (parts = []) = (0 + 1 = (q :: parts).length) := by
        rw [eq_iff_iff, List.length_cons, ← List.length_eq_zero_iff]
        omega
      rw [AllHeeded, ih, hlast]
      constructor
      · rintro ⟨hq, h⟩ j p hp
        cases j with
        | zero =>
            cases hp
            exact hq
        | succ j =>
            have hj : (j + 1 = parts.length) = (j + 1 + 1 = (q :: parts).length) := by
              rw [eq_iff_iff, List.length_cons]
              omega
            rw [← hj]
            exact h j p hp
      · intro h
        refine ⟨h 0 q rfl, fun j p hp => ?_⟩
        have hj : (j + 1 = parts.length) = (j + 1 + 1 = (q :: parts).length) := by
          rw [eq_iff_iff, List.length_cons]
          omega
        rw [hj]
        exact h (j + 1) p hp

private theorem outputOperators_flatten {parts : List Part}
    (h : ∀ p ∈ parts, Bounded p.tokens p.cmd) :
    outputOperators false (parts.map Part.tokens).flatten =
      (parts.map fun p => outputOperators false p.tokens).sum := by
  induction parts with
  | nil => rfl
  | cons p parts ih =>
      have hrest : ∀ q ∈ parts, Bounded q.tokens q.cmd :=
        fun q hq => h q (List.mem_cons_of_mem p hq)
      have hword : StartsWord (parts.map Part.tokens).flatten := by
        cases parts with
        | nil =>
            intro t ht
            cases ht
        | cons q parts =>
            obtain ⟨u, us, hu, hw⟩ := (hrest q List.mem_cons_self).starts
            intro t ht
            rw [List.map_cons, List.flatten_cons, hu] at ht
            cases ht
            exact hw
      rw [List.map_cons, List.flatten_cons, outputOperators_append false _ hword, ih hrest,
        List.map_cons, List.sum_cons]

private theorem nothingIgnored_iff {ts : List CStr} {parts : List Part}
    (hflat : ts = (parts.map Part.tokens).flatten)
    (hb : ∀ p ∈ parts, Bounded p.tokens p.cmd) :
    NothingIgnored ts ((callsOf 0 parts).map Prod.fst) (settle parts) ↔ AllHeeded parts := by
  have hseg := segments_callsOf ts parts 0 hflat
  have hcount : ∀ t : CStr, ts.count t = (parts.map fun p => p.tokens.count t).sum := by
    intro t
    rw [hflat, List.count_flatten, List.map_map]
    rfl
  have houts : outputOperators false ts =
      (parts.map fun p => outputOperators false p.tokens).sum := by
    rw [hflat]
    exact outputOperators_flatten hb
  have hpipes := (sum_map_le_eq fun p hp => (hb p hp).pipes).2
  have houtputs := (sum_map_le_eq fun p hp => (hb p hp).outputs).2
  have hinputs := (sum_map_le_eq fun p hp => (hb p hp).inputs).2
  rw [← countP_settle _ fun _ => rfl] at hpipes houtputs hinputs
  rw [← hcount] at hpipes hinputs
  rw [← houts] at houtputs
  have hslot : ∀ (j : Nat) (seg : List CStr),
      (segments ts ((callsOf 0 parts).map Prod.fst))[j]? = some seg ↔
        ∃ p, parts[j]? = some p ∧ p.tokens = seg := by
    intro j seg
    rw [hseg, List.getElem?_map, Option.map_eq_some_iff]
  rw [allHeeded_iff]
  constructor
  · intro h j p hp
    have hm := List.mem_of_getElem? hp
    refine ⟨hpipes.mp h.pipes p hm, houtputs.mp h.outputs p hm, hinputs.mp h.inputs p hm, ?_⟩
    intro hlast
    have hlt := (List.getElem?_eq_some_iff.mp hp).1
    exact h.separated j _ (by rw [settle_length]; omega) ((hslot j _).mpr ⟨p, hp, rfl⟩)
  · intro h
    have hall : ∀ p ∈ parts, ∃ j, parts[j]? = some p := fun p hp => List.getElem?_of_mem hp
    constructor
    · exact hpipes.mpr fun p hp => (h _ p (hall p hp).choose_spec).pipes
    · exact houtputs.mpr fun p hp => (h _ p (hall p hp).choose_spec).outputs
    · exact hinputs.mpr fun p hp => (h _ p (hall p hp).choose_spec).inputs
    · intro j seg c hj hc hamp
      obtain ⟨p, hp, rfl⟩ := (hslot j seg).mp hj
      exact settle_bg hp hc ((hb p (List.mem_of_getElem? hp)).marks hamp)
    · intro j seg hlt hj
      obtain ⟨p, hp, rfl⟩ := (hslot j seg).mp hj
      rw [settle_length] at hlt
      exact (h j p hp).separated (by omega)

/-- An accepted vector loses an operator exactly if a word, `|`, `>` or, behind an input operand,
`<` follows a redirection operand. -/
theorem nothing_ignored_iff (ts : List CStr) (heap : Heap Cmd) (commands : Nat → Ptr)
    (hword : StartsWord ts) (hs : Spaced ts) :
    (∀ t cmds, makeCmdv (ts.map some ++ [none]) heap (Function.update commands 0 none) =
        .ok (true, t) → Lists t cmds → NothingIgnored ts (t.calls.map Prod.fst) cmds) ↔
    ((Scan.gap.ending 0 ts).1 ≠ .accepted ∨ Scan.gap.heeds ts = true) := by
  have hending := ending_parse false ts 0 hword
  have hrun := makeCmdv_parse ts heap (Function.update commands 0 none) hword
    (Function.update_self ..)
  cases hp : parse false ts with
  | mk verdict parts =>
      rw [hp] at hrun hending
      rw [hending]
      cases verdict with
      | accepted =>
          obtain ⟨t, hok, hcalls, hc⟩ := hrun
          obtain ⟨hflat, hb, -, hheeds⟩ := parse_segments false hs hword hp
          have hlists := hc.lists (settle_length parts)
          have hiff := nothingIgnored_iff hflat hb
          rw [hok]
          constructor
          · intro h
            right
            rw [hheeds, ← hiff, ← hcalls]
            exact h t _ rfl hlists
          · intro h u cmds hu hcmds
            cases hu
            rw [hcmds.unique hlists, hcalls, hiff, ← hheeds]
            exact h.resolve_left fun hne => hne rfl
      | dropped =>
          obtain ⟨t, hok, -⟩ := hrun
          rw [hok]
          exact ⟨fun _ => .inl (fun h => by cases h), fun _ u cmds hu => (by cases hu)⟩
      | dangling =>
          obtain ⟨t, c, hok, -⟩ := hrun
          rw [hok]
          exact ⟨fun _ => .inl (fun h => by cases h), fun _ u cmds hu => (by cases hu)⟩

/-- The line `a > f | b` runs `a` and `b` without a pipe. -/
def lostPipe : List CStr := [['a'], ['>'], ['f'], ['|'], ['b']]

private theorem lostPipe_spaced : StartsWord lostPipe ∧ Spaced lostPipe := by
  constructor
  · intro t ht
    cases ht
    rfl
  · simp [lostPipe, Spaced, StartsWord, isWord, startsSeparator, isSeparator, isOperator]

theorem nothing_ignored_fails :
    ¬ ∀ (ts : List CStr) (heap : Heap Cmd) (commands : Nat → Ptr), StartsWord ts → Spaced ts →
      ∀ t cmds, makeCmdv (ts.map some ++ [none]) heap (Function.update commands 0 none) =
        .ok (true, t) → Lists t cmds → NothingIgnored ts (t.calls.map Prod.fst) cmds := by
  intro h
  have hrun := makeCmdv_parse lostPipe (Heap.empty fun _ => true)
    (Function.update (fun _ => none) 0 none) lostPipe_spaced.1 (Function.update_self ..)
  have hlast : parse false [['b']] = _ := parse_next (List.cons_ne_nil _ _) rfl
  rw [parse_nil] at hlast
  have hround : round false lostPipe = .next _ false [['b']] := rfl
  have hne : lostPipe ≠ [] := List.cons_ne_nil _ _
  have hfirst := parse_next hne hround
  have hpiped : ∀ c : Cmd, c.piped = false → parse c.piped [['b']] = parse false [['b']] := by
    intro c hc
    rw [hc]
  rw [hpiped _ rfl, hlast] at hfirst
  rw [hfirst] at hrun
  obtain ⟨t, hok, -, hc⟩ := hrun
  have hignored := h lostPipe _ _ lostPipe_spaced.1 lostPipe_spaced.2 t _ hok
    (hc.lists (settle_length _))
  have hpipes := hignored.pipes
  revert hpipes
  decide

theorem nothing_ignored_lostPipe :
    (∀ t cmds, makeCmdv (lostPipe.map some ++ [none]) (Heap.empty fun _ => true)
        (Function.update (fun _ => none) 0 none) = .ok (true, t) → Lists t cmds →
      NothingIgnored lostPipe (t.calls.map Prod.fst) cmds) ↔
    ((Scan.gap.ending 0 lostPipe).1 ≠ .accepted ∨ Scan.gap.heeds lostPipe = true) :=
  nothing_ignored_iff lostPipe (Heap.empty fun _ => true) (fun _ => none) lostPipe_spaced.1
    lostPipe_spaced.2

end SyssoftLabs.Lab4
