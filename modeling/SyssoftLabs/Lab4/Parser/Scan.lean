import SyssoftLabs.Lab4.Parser.Rounds

/-!
# Reading a vector from left to right

A small automaton over the tokens of a vector, without commands: where a command begins, where an
operand is expected, and where the vector is rejected. The rounds of the parser follow it.
-/

namespace SyssoftLabs.Lab4

/-- What the last token read was. -/
inductive Scan
  /-- A separator that ends a command, or nothing yet. -/
  | gap
  /-- A word of a command. -/
  | word
  | pipe
  /-- The operator `>`. -/
  | output
  /-- The operator `> >`. -/
  | append
  /-- The operand of `>` or `> >`. -/
  | outputFile
  /-- The operator `<`. -/
  | input
  /-- The operand of `<`. -/
  | inputFile
deriving DecidableEq, Repr

namespace Scan

/-- The next token; `none` where a pipe leads to nothing. -/
def next (σ : Scan) (t : CStr) : Option Scan :=
  match σ with
  | .word =>
      if isWord t then some .word
      else if t = ['|'] then some .pipe
      else if t = ['>'] then some .output
      else if t = ['<'] then some .input
      else some .gap
  | .pipe => if isWord t then some .word else none
  | .output => if t = ['>'] then some .append else some .outputFile
  | .append => some .outputFile
  | .input => some .inputFile
  | .outputFile =>
      if isWord t then some .word else if t = ['<'] then some .input else some .gap
  | .gap | .inputFile => if isWord t then some .word else some .gap

/-- How the vector ends, and how many commands have begun until then. -/
def ending (σ : Scan) (begun : Nat) : List CStr → Verdict × Nat
  | [] =>
      match σ with
      | .pipe => (.dropped, begun)
      | .output | .append | .input => (.dangling, begun)
      | .gap | .word | .outputFile | .inputFile => (.accepted, begun)
  | t :: ts =>
      match σ.next t with
      | none => (.dropped, begun)
      | some τ => ending τ (if τ = .word ∧ σ ≠ .word then begun + 1 else begun) ts

/-- An operator that the parser steps over, or a word behind an operand that starts a command. -/
def ignores (σ : Scan) (t : CStr) : Bool :=
  match σ with
  | .outputFile => isWord t || t == ['|'] || t == ['>']
  | .inputFile => isWord t || t == ['|'] || t == ['>'] || t == ['<']
  | _ => false

/-- Nothing is ignored until the vector ends or is rejected. -/
def heeds (σ : Scan) : List CStr → Bool
  | [] => true
  | t :: ts =>
      !σ.ignores t &&
        match σ.next t with
        | none => true
        | some τ => heeds τ ts

theorem heeds_cons {σ τ : Scan} {t : CStr} (ts : List CStr) (h : σ.next t = some τ)
    (hi : σ.ignores t = false) : σ.heeds (t :: ts) = τ.heeds ts := by
  simp only [heeds, h, hi, Bool.not_false, Bool.true_and]

private theorem ending_cons {σ τ : Scan} {t : CStr} (begun : Nat) (ts : List CStr)
    (h : σ.next t = some τ) (hτ : τ ≠ .word) : σ.ending begun (t :: ts) = τ.ending begun ts := by
  simp only [ending, h, hτ, false_and, if_false]

end Scan

theorem redirectOutput_cases (c : Cmd) (tokens : List CStr) :
    (redirectOutput c tokens = some (c, tokens) ∧ tokens.head? ≠ some ['>']) ∨
    (redirectOutput c tokens = none ∧ (tokens = [['>']] ∨ tokens = [['>'], ['>']])) ∨
    (∃ file rest, file ≠ ['>'] ∧ tokens = ['>'] :: file :: rest ∧
      redirectOutput c tokens = some ({ c with redirect := true, rfilename := some file }, rest)) ∨
    (∃ file rest, tokens = ['>'] :: ['>'] :: file :: rest ∧
      redirectOutput c tokens =
        some ({ c with rappend := true, redirect := true, rfilename := some file }, rest)) := by
  cases tokens with
  | nil => exact .inl ⟨rfl, by simp⟩
  | cons t ts =>
      by_cases ht : t = ['>']
      · subst ht
        right
        cases ts with
        | nil => exact .inl ⟨rfl, .inl rfl⟩
        | cons file rest =>
            by_cases hf : file = ['>']
            · subst hf
              cases rest with
              | nil => exact .inl ⟨rfl, .inr rfl⟩
              | cons file rest => exact .inr (.inr ⟨file, rest, rfl, rfl⟩)
            · refine .inr (.inl ⟨file, rest, hf, rfl, ?_⟩)
              show outputFile c (file :: rest) = _
              exact if_neg hf
      · exact .inl ⟨if_neg ht, by simpa using ht⟩

theorem redirectInput_cases (c : Cmd) (tokens : List CStr) :
    (redirectInput c tokens = some (c, tokens) ∧ tokens.head? ≠ some ['<']) ∨
    (redirectInput c tokens = none ∧ tokens = [['<']]) ∨
    (∃ file rest, tokens = ['<'] :: file :: rest ∧
      redirectInput c tokens =
        some ({ c with redirectIn := true, rifilename := some file }, rest)) := by
  cases tokens with
  | nil => exact .inl ⟨rfl, by simp⟩
  | cons t ts =>
      by_cases ht : t = ['<']
      · subst ht
        right
        cases ts with
        | nil => exact .inl ⟨rfl, rfl⟩
        | cons file rest => exact .inr ⟨file, rest, rfl, rfl⟩
      · exact .inl ⟨if_neg ht, by simpa using ht⟩

/-- Tokens that do not start with a word, and after `word` with no operator either. -/
def ClosesAt (σ : Scan) (ts : List CStr) : Prop :=
  match σ with
  | .word => ∀ t, ts.head? = some t →
      isWord t = false ∧ t ≠ ['|'] ∧ t ≠ ['>'] ∧ t ≠ ['<']
  | .outputFile => ts.head? ≠ some ['<']
  | .gap | .inputFile => True
  | .pipe | .output | .append | .input => False

/-- Behind a command the automaton skips separators, as the parser does. -/
theorem next_closesAt {σ : Scan} {t : CStr} {ts : List CStr} (h : ClosesAt σ (t :: ts)) :
    σ.next t = some (if isWord t then .word else .gap) ∧ (isWord t → σ ≠ .word) := by
  cases σ with
  | word =>
      obtain ⟨hw, hp, ho, hi⟩ := h t rfl
      simp [Scan.next, hw, hp, ho, hi]
  | outputFile =>
      have ht : t ≠ ['<'] := fun ht => h (by rw [ht]; rfl)
      cases hw : isWord t <;> simp [Scan.next, hw, ht]
  | gap => cases hw : isWord t <;> simp [Scan.next, hw]
  | inputFile => cases hw : isWord t <;> simp [Scan.next, hw]
  | pipe => cases h
  | output => cases h
  | append => cases h
  | input => cases h

private theorem ending_closesAt {σ : Scan} {ts : List CStr} (begun : Nat) (h : ClosesAt σ ts) :
    σ.ending begun ts = Scan.gap.ending begun (ts.dropWhile startsSeparator) := by
  induction ts generalizing σ with
  | nil =>
      cases σ with
      | gap | word | outputFile | inputFile => rfl
      | pipe | output | append | input => cases h
  | cons t ts ih =>
      obtain ⟨hnext, hne⟩ := next_closesAt h
      cases hw : isWord t with
      | true =>
          have hs : ¬ startsSeparator t = true := by simpa [isWord] using hw
          have hgap : Scan.gap.next t = some .word := by simp [Scan.next, hw]
          rw [List.dropWhile_cons_of_neg hs]
          simp [Scan.ending, hnext, hgap, hw, hne hw]
      | false =>
          have hs : startsSeparator t = true := by simpa [isWord] using hw
          rw [List.dropWhile_cons_of_pos hs, ← ih (σ := .gap) trivial]
          simp [Scan.ending, hnext, hw]

/-- Tokens that may stand where the parser looks for `<`. -/
def BeforeInput (σ : Scan) (ts : List CStr) : Prop :=
  (σ = .word ∧ ∀ t, ts.head? = some t → isWord t = false ∧ t ≠ ['|'] ∧ t ≠ ['>']) ∨
    σ = .outputFile

theorem BeforeInput.closesAt {σ : Scan} {ts : List CStr} (h : BeforeInput σ ts)
    (hlt : ts.head? ≠ some ['<']) : ClosesAt σ ts := by
  rcases h with ⟨rfl, h⟩ | rfl
  · intro t ht
    obtain ⟨hw, hp, ho⟩ := h t ht
    exact ⟨hw, hp, ho, fun hi => hlt (hi ▸ ht)⟩
  · exact hlt

theorem BeforeInput.next {σ : Scan} {ts : List CStr} (h : BeforeInput σ ts) :
    σ.next ['<'] = some .input := by
  rcases h with ⟨rfl, -⟩ | rfl <;> rfl

private theorem ending_redirectInput {σ : Scan} {c : Cmd} {ts : List CStr} (begun : Nat)
    (h : BeforeInput σ ts) :
    match redirectInput c ts with
    | none => σ.ending begun ts = (.dangling, begun)
    | some (_, rest) =>
        σ.ending begun ts = Scan.gap.ending begun (rest.dropWhile startsSeparator) := by
  rcases redirectInput_cases c ts with
    ⟨hr, hlt⟩ | ⟨hr, rfl⟩ | ⟨file, rest, rfl, hr⟩
  · rw [hr]
    exact ending_closesAt begun (h.closesAt hlt)
  · rw [hr]
    exact Scan.ending_cons begun [] h.next (by decide)
  · rw [hr]
    have hfile : Scan.inputFile.ending begun rest = _ := ending_closesAt begun trivial
    show σ.ending begun _ = _
    rw [← hfile, Scan.ending_cons begun _ h.next (by decide),
      Scan.ending_cons begun _ rfl (by decide)]

private theorem ending_endRound (c : Cmd) (ts : List CStr) (begun : Nat)
    (h : ∀ t, ts.head? = some t → isWord t = false ∧ t ≠ ['|']) :
    match endRound c ts with
    | .next _ _ rest => Scan.word.ending begun ts = Scan.gap.ending begun rest
    | .dropped => False
    | .dangling => Scan.word.ending begun ts = (.dangling, begun) := by
  have hinput : ∀ {σ : Scan} {c' : Cmd} {rest : List CStr}, BeforeInput σ rest →
      redirectOutput c ts = some (c', rest) →
      Scan.word.ending begun ts = σ.ending begun rest →
      match endRound c ts with
      | .next _ _ rest => Scan.word.ending begun ts = Scan.gap.ending begun rest
      | .dropped => False
      | .dangling => Scan.word.ending begun ts = (.dangling, begun) := by
    intro σ c' rest hσ hout hending
    have hin := ending_redirectInput (c := c') begun hσ
    rw [endRound, hout]
    cases hr : redirectInput c' rest with
    | none =>
        rw [hr] at hin
        simp only [hr]
        exact hending.trans hin
    | some result =>
        rw [hr] at hin
        simp only [hr]
        exact hending.trans hin
  rcases redirectOutput_cases c ts with
    ⟨hr, hgt⟩ | ⟨hr, rfl | rfl⟩ | ⟨file, rest, hf, rfl, hr⟩ | ⟨file, rest, rfl, hr⟩
  · refine hinput (σ := .word) (.inl ⟨rfl, fun t ht => ?_⟩) hr rfl
    exact ⟨(h t ht).1, (h t ht).2, fun ho => hgt (ho ▸ ht)⟩
  · rw [endRound, hr]
    rfl
  · rw [endRound, hr]
    rfl
  · refine hinput (σ := .outputFile) (.inr rfl) hr ?_
    have hfile : Scan.output.next file = some .outputFile := if_neg hf
    rw [Scan.ending_cons begun _ rfl (by decide : Scan.output ≠ .word),
      Scan.ending_cons begun _ hfile (by decide)]
  · refine hinput (σ := .outputFile) (.inr rfl) hr ?_
    rw [Scan.ending_cons begun _ rfl (by decide : Scan.output ≠ .word),
      Scan.ending_cons begun _ rfl (by decide : Scan.append ≠ .word),
      Scan.ending_cons begun _ rfl (by decide)]

private theorem ending_words {ws : List CStr} (rest : List CStr) (begun : Nat)
    (hws : ∀ t ∈ ws, isWord t = true) :
    Scan.word.ending begun (ws ++ rest) = Scan.word.ending begun rest := by
  induction ws with
  | nil => rfl
  | cons t ws ih =>
      have ht : Scan.word.next t = some .word := by simp [Scan.next, hws t List.mem_cons_self]
      rw [List.cons_append, Scan.ending, ht]
      simp only [ne_eq, not_true_eq_false, and_false, if_false]
      exact ih fun u hu => hws u (List.mem_cons_of_mem t hu)

private theorem ending_round (pipeNext : Bool) {ts : List CStr} (begun : Nat) (hne : ts ≠ [])
    (hword : ∀ t, ts.head? = some t → isWord t) :
    match round pipeNext ts with
    | .next _ _ rest => Scan.gap.ending begun ts = Scan.gap.ending (begun + 1) rest
    | .dropped => Scan.gap.ending begun ts = (.dropped, begun + 1)
    | .dangling => Scan.gap.ending begun ts = (.dangling, begun + 1) := by
  have hstart : Scan.gap.ending begun ts =
      Scan.word.ending (begun + 1) (ts.dropWhile isWord) := by
    obtain ⟨t, ts', rfl⟩ := List.exists_cons_of_ne_nil hne
    have ht := hword t rfl
    have hnext : Scan.gap.next t = some .word := by simp [Scan.next, ht]
    have hwords := ending_words (ts'.dropWhile isWord) (begun + 1)
      (List.all_eq_true.mp (List.all_takeWhile (p := isWord) (l := ts')))
    rw [List.takeWhile_append_dropWhile] at hwords
    rw [List.dropWhile_cons_of_pos ht, ← hwords, Scan.ending, hnext]
    simp
  rw [hstart, round]
  cases hd : ts.dropWhile isWord with
  | nil => rfl
  | cons t rest =>
      have hsep := startsSeparator_of_dropWhile hd
      have ht : isWord t = false := by simp [isWord, hsep]
      rw [closeRound]
      by_cases hp : t = ['|']
      · subst hp
        rw [if_pos rfl, Scan.ending_cons _ rest rfl (by decide : Scan.pipe ≠ .word)]
        cases rest with
        | nil => rfl
        | cons u rest =>
            rw [pipeRound]
            by_cases hu : startsSeparator u = true
            · have hnext : Scan.pipe.next u = none := by simp [Scan.next, isWord, hu]
              rw [if_pos hu]
              simp [Scan.ending, hnext]
            · have hw : isWord u = true := by simpa [isWord] using hu
              have hnext : Scan.pipe.next u = some .word := by simp [Scan.next, hw]
              have hgap : Scan.gap.next u = some .word := by simp [Scan.next, hw]
              rw [if_neg hu]
              simp [Scan.ending, hnext, hgap]
      · rw [if_neg hp]
        have hend := ending_endRound (wordsCmd pipeNext (ts.takeWhile isWord)) (t :: rest)
          (begun + 1) (by
            intro u hu
            cases hu
            exact ⟨ht, hp⟩)
        cases hr : endRound (wordsCmd pipeNext (ts.takeWhile isWord)) (t :: rest) with
        | next c marks rest => rw [hr] at hend; exact hend
        | dropped => rw [hr] at hend; exact hend.elim
        | dangling => rw [hr] at hend; exact hend

theorem round_rest_word {pipeNext marks : Bool} {ts rest : List CStr} {c : Cmd}
    (h : round pipeNext ts = .next c marks rest) : ∀ t, rest.head? = some t → isWord t := by
  have hdropped : ∀ ts : List CStr, ∀ t, (ts.dropWhile startsSeparator).head? = some t →
      isWord t := by
    intro ts t ht
    have := List.head?_dropWhile_not startsSeparator ts
    rw [ht] at this
    simpa [isWord] using this
  rcases round_cases h with ⟨-, -, -, rfl⟩ | ⟨u, us, -, hu, -, -, rfl⟩ | ⟨t, tail, -, -, hend⟩
  · exact fun t ht => by cases ht
  · rintro t ht
    cases ht
    exact hu
  · obtain ⟨-, -, -, ts₂, -, -, -, -, rfl⟩ := endRound_next hend
    exact hdropped ts₂

/-- The automaton ends as the parser does. -/
theorem ending_parse (pipeNext : Bool) (ts : List CStr) (begun : Nat)
    (hword : ∀ t, ts.head? = some t → isWord t) :
    Scan.gap.ending begun ts = ((parse pipeNext ts).1, begun + (parse pipeNext ts).2.length +
      if (parse pipeNext ts).1 = .accepted then 0 else 1) := by
  induction hn : ts.length using Nat.strongRecOn generalizing pipeNext ts begun with
  | ind n ih =>
      by_cases hne : ts = []
      · rw [hne, parse_nil]
        rfl
      · have hround := ending_round pipeNext begun hne hword
        cases hr : round pipeNext ts with
        | next c marks rest =>
            rw [hr] at hround
            have hrest := ih rest.length (hn ▸ round_rest hne hr) c.piped rest (begun + 1)
              (round_rest_word hr) rfl
            rw [hround, hrest, parse_next hne hr]
            dsimp only [List.length_cons]
            congr 1
            omega
        | dropped =>
            rw [hr] at hround
            rw [hround, parse_dropped hne hr]
            rfl
        | dangling =>
            rw [hr] at hround
            rw [hround, parse_dangling hne hr]
            rfl

end SyssoftLabs.Lab4
