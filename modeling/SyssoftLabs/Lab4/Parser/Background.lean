import SyssoftLabs.Lab4.Parser.Wiring

/-!
# Pipelines in the background

A `&` marks the command in front of it and, through a loop that runs in the wrong direction, the
command before that one if a pipe connects them. The earlier commands of a longer pipeline stay in
the foreground.
-/

namespace SyssoftLabs.Lab4

open SyssoftLabs.Framework

/-! ## Long pipelines in a vector -/

namespace Scan

/-- A command is complete, but for the separator behind it. -/
def ended (σ : Scan) : Bool :=
  match σ with
  | .word | .outputFile | .inputFile => true
  | .gap | .pipe | .output | .append | .input => false

/-- The pipes of the pipeline that is read, behind one more token. A word behind an operand starts
a command that is not connected. -/
def pipes (σ τ : Scan) (n : Nat) : Nat :=
  match τ with
  | .pipe => n + 1
  | .gap => 0
  | .word => if σ = .outputFile ∨ σ = .inputFile then 0 else n
  | .output | .append | .outputFile | .input | .inputFile => n

/-- A `&` ends a pipeline of three or more commands. -/
def longMark (σ : Scan) (n : Nat) : List CStr → Bool
  | [] => false
  | t :: ts =>
      (σ.ended && decide (t = ['&'] ∧ 2 ≤ n)) ||
        match σ.next t with
        | none => false
        | some τ => longMark τ (pipes σ τ n) ts

private theorem longMark_cons {σ τ : Scan} {t : CStr} {n : Nat} (ts : List CStr)
    (h : σ.next t = some τ)
    (ht : σ.ended = false ∨ t ≠ ['&']) : σ.longMark n (t :: ts) = τ.longMark (pipes σ τ n) ts := by
  rcases ht with ht | ht <;> simp [longMark, h, ht]

private theorem longMark_words {ws : List CStr} (n : Nat) (rest : List CStr)
    (hws : ∀ t ∈ ws, isWord t = true) :
    Scan.word.longMark n (ws ++ rest) = Scan.word.longMark n rest := by
  induction ws with
  | nil => rfl
  | cons t ws ih =>
      have hw := hws t List.mem_cons_self
      have ht : Scan.word.next t = some .word := by simp [Scan.next, hw]
      have hamp : t ≠ ['&'] := by
        rintro rfl
        cases hw
      rw [List.cons_append, longMark_cons _ ht (.inr hamp)]
      exact ih fun u hu => hws u (List.mem_cons_of_mem t hu)

private theorem longMark_gap (ts : List CStr) :
    Scan.gap.longMark 0 ts = Scan.gap.longMark 0 (ts.dropWhile startsSeparator) := by
  induction ts with
  | nil => rfl
  | cons t ts ih =>
      by_cases hs : startsSeparator t = true
      · have hnext : Scan.gap.next t = some .gap := by simp [Scan.next, isWord, hs]
        rw [List.dropWhile_cons_of_pos hs, ← ih]
        exact longMark_cons ts hnext (.inl rfl)
      · rw [List.dropWhile_cons_of_neg hs]

private theorem longMark_start {t : CStr} {n : Nat} (ts : List CStr) (ht : isWord t = true) :
    Scan.gap.longMark n (t :: ts) = Scan.word.longMark n ts := by
  have hnext : Scan.gap.next t = some .word := by simp [Scan.next, ht]
  exact longMark_cons ts hnext (.inl rfl)

private theorem longMark_closesAt {σ : Scan} {ts : List CStr} (n : Nat) (hσ : σ.ended = true)
    (h : ClosesAt σ ts) :
    σ.longMark n ts = (decide (ts.head? = some ['&'] ∧ 2 ≤ n) ||
      Scan.gap.longMark 0 (ts.dropWhile startsSeparator)) := by
  cases ts with
  | nil => simp [longMark]
  | cons t ts =>
      obtain ⟨hnext, hne⟩ := next_closesAt h
      rw [longMark, hnext, hσ, Bool.true_and]
      by_cases hw : isWord t = true
      · have hs : ¬ startsSeparator t = true := by simpa [isWord] using hw
        have hpipes : pipes σ .word n = 0 := by
          have := hne hw
          cases σ <;> simp_all [ended, pipes]
        rw [if_pos hw, List.dropWhile_cons_of_neg hs, longMark_start ts hw]
        simp only [hpipes, List.head?_cons, Option.some.injEq]
      · have hs : startsSeparator t = true := by simpa [isWord] using hw
        rw [if_neg hw, List.dropWhile_cons_of_pos hs, ← longMark_gap]
        simp only [pipes, List.head?_cons, Option.some.injEq]

end Scan

private theorem longMark_redirectInput {σ : Scan} {c c' : Cmd} {ts rest : List CStr} (n : Nat)
    (hσ : BeforeInput σ ts) (h : redirectInput c ts = some (c', rest)) :
    σ.longMark n ts = (decide (rest.head? = some ['&'] ∧ 2 ≤ n) ||
      Scan.gap.longMark 0 (rest.dropWhile startsSeparator)) := by
  have hended : σ.ended = true := by
    rcases hσ with ⟨rfl, -⟩ | rfl <;> rfl
  rcases redirectInput_cases c ts with ⟨hr, hlt⟩ | ⟨hr, -⟩ | ⟨file, rest', rfl, hr⟩
  · rw [hr] at h
    cases h
    exact Scan.longMark_closesAt n hended (hσ.closesAt hlt)
  · rw [hr] at h
    cases h
  · rw [hr] at h
    cases h
    rw [Scan.longMark_cons _ hσ.next (.inr (by decide)), Scan.longMark_cons _ rfl (.inl rfl)]
    exact Scan.longMark_closesAt (σ := .inputFile) n rfl trivial

private theorem longMark_endRound {c c' : Cmd} {ts rest : List CStr} {marks : Bool} (n : Nat)
    (hts : ∀ t, ts.head? = some t → isWord t = false ∧ t ≠ ['|'])
    (h : endRound c ts = .next c' marks rest) :
    Scan.word.longMark n ts = (marks && decide (2 ≤ n) || Scan.gap.longMark 0 rest) := by
  obtain ⟨c₁, ts₁, c₂, ts₂, hout, hin, rfl, -, rfl⟩ := endRound_next h
  rw [← Bool.decide_and]
  rcases redirectOutput_cases c ts with
    ⟨hr, hgt⟩ | ⟨hr, -⟩ | ⟨file, rest', hf, rfl, hr⟩ | ⟨file, rest', rfl, hr⟩
  · rw [hr] at hout
    cases hout
    refine longMark_redirectInput n (.inl ⟨rfl, fun t ht => ?_⟩) hin
    exact ⟨(hts t ht).1, (hts t ht).2, fun ho => hgt (ho ▸ ht)⟩
  · rw [hr] at hout
    cases hout
  · rw [hr] at hout
    cases hout
    have hfile : Scan.output.next file = some .outputFile := if_neg hf
    rw [Scan.longMark_cons (τ := .output) _ rfl (.inr (by decide)),
      Scan.longMark_cons _ hfile (.inl rfl)]
    exact longMark_redirectInput (σ := .outputFile) n (.inr rfl) hin
  · rw [hr] at hout
    cases hout
    rw [Scan.longMark_cons (τ := .output) _ rfl (.inr (by decide)),
      Scan.longMark_cons (τ := .append) _ rfl (.inl rfl),
      Scan.longMark_cons (τ := .outputFile) _ rfl (.inl rfl)]
    exact longMark_redirectInput (σ := .outputFile) n (.inr rfl) hin

private theorem longMark_round {pipeNext marks : Bool} {t : CStr} {ts rest : List CStr} {c : Cmd}
    (n : Nat) (ht : isWord t = true) (h : round pipeNext (t :: ts) = .next c marks rest) :
    Scan.gap.longMark n (t :: ts) = (marks && decide (2 ≤ n) ||
      Scan.gap.longMark (if c.piped then n + 1 else 0) rest) := by
  have hwords := Scan.longMark_words n (ts.dropWhile isWord)
    (List.all_eq_true.mp (List.all_takeWhile (p := isWord) (l := ts)))
  rw [List.takeWhile_append_dropWhile] at hwords
  rw [Scan.longMark_start ts ht, hwords]
  have hcases := round_cases h
  rw [List.dropWhile_cons_of_pos ht] at hcases
  rcases hcases with ⟨hd, rfl, rfl, rfl⟩ | ⟨v, tail, hd, hv, rfl, rfl, rfl⟩ |
    ⟨u, tail, hd, hp, hend⟩
  · rw [hd]
    rfl
  · have hnext : Scan.pipe.next v = some .word := by simp [Scan.next, hv]
    rw [hd, Scan.longMark_cons (τ := .pipe) _ rfl (.inr (by decide)),
      Scan.longMark_cons tail hnext (.inl rfl)]
    exact (Scan.longMark_start tail hv).symm
  · have hpiped : c.piped = false := (endRound_keeps hend).piped
    have hsep := startsSeparator_of_dropWhile hd
    rw [hd, hpiped]
    refine longMark_endRound n (fun v hv => ?_) hend
    cases hv
    exact ⟨by simp [isWord, hsep], hp⟩

/-! ## The marks of the commands -/

/-- A part as its round left it. -/
structure Part.Settled (p : Part) : Prop where
  bg : p.cmd.bg = p.marks
  piped : p.cmd.piped = true → p.marks = false
  out : p.cmd.out = if p.cmd.piped then 2 else 1

private theorem redirectOutput_bg {c c' : Cmd} {ts rest : List CStr}
    (h : redirectOutput c ts = some (c', rest)) : c'.bg = c.bg := by
  rcases redirectOutput_cases c ts with
    ⟨hr, -⟩ | ⟨hr, -⟩ | ⟨file, rest', -, -, hr⟩ | ⟨file, rest', -, hr⟩
  all_goals
    rw [hr] at h
    cases h
  all_goals rfl

private theorem redirectInput_bg {c c' : Cmd} {ts rest : List CStr}
    (h : redirectInput c ts = some (c', rest)) : c'.bg = c.bg := by
  rcases redirectInput_cases c ts with ⟨hr, -⟩ | ⟨hr, -⟩ | ⟨file, rest', -, hr⟩
  all_goals
    rw [hr] at h
    cases h
  all_goals rfl

private theorem round_settled {pipeNext marks : Bool} {ts rest tokens : List CStr} {c : Cmd}
    (h : round pipeNext ts = .next c marks rest) : Part.Settled ⟨c, marks, tokens⟩ := by
  obtain ⟨-, -, -, hout⟩ := round_words h
  have hmarks : c.bg = marks ∧ (c.piped = true → marks = false) := by
    rcases round_cases h with ⟨-, rfl, rfl, -⟩ | ⟨u, us, -, -, rfl, rfl, -⟩ | ⟨t, tail, -, -, hend⟩
    · exact ⟨rfl, fun _ => rfl⟩
    · exact ⟨rfl, fun _ => rfl⟩
    · have hpiped := (endRound_keeps hend).piped
      obtain ⟨c₁, ts₁, c₂, ts₂, hro, hri, -, rfl, -⟩ := endRound_next hend
      have hbg : c₂.bg = false := (redirectInput_bg hri).trans (redirectOutput_bg hro)
      refine ⟨?_, fun hp => ?_⟩
      · cases marks with
        | true => rfl
        | false => exact hbg
      · rw [hpiped] at hp
        cases hp
  exact ⟨hmarks.1, hmarks.2, hout⟩

private theorem Accepts.settled {pipeNext : Bool} {ts : List CStr} {parts : List Part}
    (h : Accepts pipeNext ts parts) : ∀ p ∈ parts, p.Settled := by
  induction h with
  | nil => exact fun p hp => absurd hp List.not_mem_nil
  | next word first others ih =>
      intro p hp
      rcases List.mem_cons.mp hp with rfl | hp
      · exact round_settled first
      · exact ih p hp

/-- No `&` ends a pipeline of three or more commands. -/
def Short : List Part → Prop
  | p :: q :: r :: parts =>
      (p.cmd.piped = true → q.cmd.piped = true → r.marks = false) ∧ Short (q :: r :: parts)
  | _ => True

/-- The same behind a pipeline of `n` pipes that the first part goes on with. -/
structure ShortBehind (n : Nat) (parts : List Part) : Prop where
  first : 2 ≤ n → ∀ p, parts[0]? = some p → p.marks = false
  second : 1 ≤ n → ∀ p q, parts[0]? = some p → parts[1]? = some q → p.cmd.piped = true →
    q.marks = false
  short : Short parts

private theorem short_cons {p : Part} {parts : List Part} :
    Short (p :: parts) ↔ (∀ q r, parts[0]? = some q → parts[1]? = some r →
      p.cmd.piped = true → q.cmd.piped = true → r.marks = false) ∧ Short parts := by
  match parts with
  | [] => simp [Short]
  | [q] => simp [Short]
  | q :: r :: parts => simp [Short]

private theorem shortBehind_cons {n : Nat} {p : Part} {parts : List Part} :
    ShortBehind n (p :: parts) ↔
      (2 ≤ n → p.marks = false) ∧ ShortBehind (if p.cmd.piped then n + 1 else 0) parts := by
  constructor
  · intro h
    obtain ⟨hthird, hshort⟩ := short_cons.mp h.short
    refine ⟨fun hn => h.first hn p rfl, ?_⟩
    by_cases hp : p.cmd.piped = true
    · rw [if_pos hp]
      exact ⟨fun hn q hq => h.second (by omega) p q rfl hq hp,
        fun _ q r hq hr hqp => hthird q r hq hr hp hqp, hshort⟩
    · rw [if_neg hp]
      exact ⟨fun hn => by omega, fun hn => by omega, hshort⟩
  · rintro ⟨hfirst, h⟩
    refine ⟨fun hn q hq => ?_, fun hn q r hq hr hqp => ?_, short_cons.mpr ⟨?_, h.short⟩⟩
    · cases hq
      exact hfirst hn
    · cases hq
      rw [if_pos hqp] at h
      exact h.first (by omega) r hr
    · intro q r hq hr hp hqp
      rw [if_pos hp] at h
      exact h.second (by omega) q r hq hr hqp

private theorem Accepts.longMark {pipeNext : Bool} {ts : List CStr} {parts : List Part}
    (h : Accepts pipeNext ts parts) (n : Nat) :
    Scan.gap.longMark n ts = false ↔ ShortBehind n parts := by
  induction h generalizing n with
  | nil =>
      refine ⟨fun _ => ⟨fun _ p hp => ?_, fun _ p q hp => ?_, trivial⟩, fun _ => rfl⟩
      · cases hp
      · cases hp
  | next word first others ih =>
      rw [longMark_round n word first, Bool.or_eq_false_iff, ih, shortBehind_cons,
        Bool.and_eq_false_imp]
      simp only [decide_eq_false_iff_not]
      exact and_congr_left' ⟨fun h hn => by_contra fun hm => h (by simpa using hm) hn,
        fun h hm hn => by simp [h hn] at hm⟩

theorem Accepts.unique {pipeNext : Bool} {ts : List CStr} {parts parts' : List Part}
    (h : Accepts pipeNext ts parts) (h' : Accepts pipeNext ts parts') : parts' = parts := by
  induction h generalizing parts' with
  | nil =>
      cases h'
      rfl
  | next word first others ih =>
      cases h' with
      | next word' first' others' =>
          rw [first] at first'
          cases first'
          rw [ih others']

/-! ## The marks that are left -/

/-- The pipeline that the first part goes on with ends with `&`. -/
def pipelineMarks : List Part → Bool
  | [] => false
  | p :: parts => if p.cmd.piped then pipelineMarks parts else p.marks

/-- A command that writes to a pipe is in the background if the next one is, and each one if its
pipeline ends with `&`. -/
structure Uniform (ts : List CStr) (cmds : List Cmd) : Prop where
  piped : ∀ j c, cmds[j]? = some c → c.piped = true →
    ∃ d, cmds[j + 1]? = some d ∧ c.bg = d.bg
  ended : ∀ parts, Accepts false ts parts →
    ∀ j c, cmds[j]? = some c → c.bg = pipelineMarks (parts.drop j)

private theorem settle_cons_cons (p q : Part) (parts : List Part) (hp : p.Settled) :
    settle (p :: q :: parts) =
      { p.cmd with bg := p.marks || (q.marks && p.cmd.piped) } :: settle (q :: parts) := by
  rw [settle, hp.out, ← hp.bg]
  cases q.marks <;> cases p.cmd.piped <;> simp

private theorem pipelineMarks_short {p q : Part} {parts : List Part} (h : Short (p :: q :: parts))
    (hp : p.cmd.piped = true) (hq : q.cmd.piped = true) : pipelineMarks parts = false := by
  induction parts generalizing p q with
  | nil => rfl
  | cons r parts ih =>
      obtain ⟨hr, hshort⟩ := h
      rw [pipelineMarks]
      by_cases hrp : r.cmd.piped = true
      · rw [if_pos hrp]
        exact ih hshort hq hrp
      · rw [if_neg hrp]
        exact hr hp hq

private theorem settle_ended {parts : List Part} (hparts : ∀ p ∈ parts, p.Settled)
    (h : Short parts) :
    ∀ j c, (settle parts)[j]? = some c → c.bg = pipelineMarks (parts.drop j) := by
  induction parts with
  | nil =>
      intro j c hc
      cases hc
  | cons p parts ih =>
      have hp := hparts p List.mem_cons_self
      have hrest := ih (fun q hq => hparts q (List.mem_cons_of_mem p hq)) (short_cons.mp h).2
      intro j c hc
      cases parts with
      | nil =>
          cases j with
          | zero =>
              cases hc
              rw [hp.bg, List.drop_zero, pipelineMarks]
              split
              · next hpiped => exact hp.piped hpiped
              · rfl
          | succ j => cases hc
      | cons q parts =>
          rw [settle_cons_cons p q parts hp] at hc
          cases j with
          | succ j => exact hrest j c hc
          | zero =>
              cases hc
              show (p.marks || (q.marks && p.cmd.piped)) = pipelineMarks (p :: q :: parts)
              rw [pipelineMarks]
              by_cases hpiped : p.cmd.piped = true
              · rw [if_pos hpiped, hp.piped hpiped, hpiped, Bool.and_true, Bool.false_or,
                  pipelineMarks]
                split
                · next hq =>
                    rw [pipelineMarks_short h hpiped hq]
                    exact (hparts q (by simp)).piped hq
                · rfl
              · rw [if_neg hpiped, Bool.not_eq_true] at *
                simp [hpiped]

private theorem settle_short {parts : List Part} (hparts : ∀ p ∈ parts, p.Settled)
    (h : ∀ j c, (settle parts)[j]? = some c → c.piped = true →
      ∃ d, (settle parts)[j + 1]? = some d ∧ c.bg = d.bg) : Short parts := by
  induction parts with
  | nil => trivial
  | cons p parts ih =>
      match parts with
      | [] => trivial
      | [q] => trivial
      | q :: r :: parts =>
          have hp := hparts p (by simp)
          have hq := hparts q (by simp)
          rw [settle_cons_cons p q _ hp] at h
          refine ⟨fun hpp hqp => ?_, ih (fun s hs => hparts s (List.mem_cons_of_mem p hs))
            fun j c hc => h (j + 1) c hc⟩
          obtain ⟨d, hd, hbg⟩ := h 0 _ rfl hpp
          rw [List.getElem?_cons_succ, settle_cons_cons q r parts hq] at hd
          cases hd
          simpa [hp.piped hpp, hq.piped hqp, hpp, hqp] using hbg.symm

private theorem settle_uniform {parts : List Part} (hparts : ∀ p ∈ parts, p.Settled)
    (hwired : Wired (settle parts)) (h : Short parts) :
    ∀ j c, (settle parts)[j]? = some c → c.piped = true →
      ∃ d, (settle parts)[j + 1]? = some d ∧ c.bg = d.bg := by
  intro j c hc hpiped
  obtain ⟨d, hd, -⟩ := (hwired.piped j c hc).mp hpiped
  refine ⟨d, hd, ?_⟩
  have hpart := congrArg (fun l => l[j]?) (settle_map Cmd.piped (fun _ => rfl) parts)
  simp only [List.getElem?_map, hc, Option.map_some] at hpart
  obtain ⟨p, hp, heq⟩ := Option.map_eq_some_iff.mp hpart.symm
  obtain ⟨hlt, hget⟩ := List.getElem?_eq_some_iff.mp hp
  rw [settle_ended hparts h j c hc, settle_ended hparts h (j + 1) d hd,
    List.drop_eq_getElem_cons hlt, hget, pipelineMarks, heq, if_pos hpiped]

/-- The commands of an accepted vector are uniform exactly when no `&` ends a pipeline of three or
more of them. A vector that starts with a separator is taken for one command. -/
theorem makeCmdv_uniform_iff {ts : List CStr} {heap : Heap Cmd} {commands : Nat → Ptr} {t : Parser}
    {cmds : List Cmd}
    (hok : makeCmdv (ts.map some ++ [none]) heap (Function.update commands 0 none) = .ok (true, t))
    (hcmds : Lists t cmds) :
    Uniform ts cmds ↔
      (∃ u, ts.head? = some u ∧ startsSeparator u = true) ∨ Scan.gap.longMark 0 ts = false := by
  rcases accepted_cases hok hcmds with ⟨parts, haccepts, rfl⟩ | ⟨u, hu, hsep, argv, rfl⟩
  · have hlong := haccepts.longMark 0
    have hparts := haccepts.settled
    have hshort : ShortBehind 0 parts ↔ Short parts :=
      ⟨fun h => h.short, fun h => ⟨fun hn => by omega, fun hn => by omega, h⟩⟩
    rw [hlong, hshort]
    constructor
    · exact fun h => .inr (settle_short hparts h.piped)
    · intro h
      have hs : Short parts := by
        rcases h with ⟨u, hu, hsep⟩ | h
        · cases haccepts with
          | nil => cases hu
          | next word first others =>
              cases hu
              rw [isWord, hsep] at word
              cases word
        · exact h
      refine ⟨settle_uniform hparts haccepts.settle_connected.wired hs, fun parts' h' => ?_⟩
      rw [haccepts.unique h']
      exact settle_ended hparts hs
  · refine ⟨fun _ => .inl ⟨u, hu, hsep⟩, fun _ => ⟨fun j c hc hpiped => ?_, fun parts h => ?_⟩⟩
    · cases j with
      | zero =>
          cases hc
          cases hpiped
      | succ j => cases hc
    · cases h with
      | nil => cases hu
      | next word first others =>
          cases hu
          rw [isWord, hsep] at word
          cases word

private theorem Accepts.parse_eq {pipeNext : Bool} {ts : List CStr} {parts : List Part}
    (h : Accepts pipeNext ts parts) : parse pipeNext ts = (.accepted, parts) := by
  induction h with
  | nil pipeNext => exact parse_nil pipeNext
  | next word first others ih => rw [parse_next (List.cons_ne_nil _ _) first, ih]

theorem Accepts.runs {ts : List CStr} {parts : List Part} (h : Accepts false ts parts)
    (heap : Heap Cmd) (commands : Nat → Ptr) :
    ∃ t, makeCmdv (ts.map some ++ [none]) heap (Function.update commands 0 none) = .ok (true, t) ∧
      Lists t (settle parts) := by
  have hword : ∀ u, ts.head? = some u → isWord u = true := by
    intro u hu
    cases h with
    | nil => cases hu
    | next word first others =>
        cases hu
        exact word
  have hrun := makeCmdv_parse ts heap (Function.update commands 0 none) hword
    (Function.update_self ..)
  rw [h.parse_eq] at hrun
  obtain ⟨t, hok, -, hc⟩ := hrun
  exact ⟨t, hok, hc.lists (settle_length parts)⟩

theorem makeCmdv_uniform_iff_twoStages :
    ∃ t cmds, makeCmdv ([['a'], ['|'], ['b'], ['&']].map some ++ [none]) (Heap.empty fun _ => true)
        (Function.update (fun _ => none) 0 none) = .ok (true, t) ∧ Lists t cmds ∧
      (Uniform [['a'], ['|'], ['b'], ['&']] cmds ↔
        (∃ u, [['a'], ['|'], ['b'], ['&']].head? = some u ∧ startsSeparator u = true) ∨
          Scan.gap.longMark 0 [['a'], ['|'], ['b'], ['&']] = false) := by
  obtain ⟨t, hok, hcmds⟩ := (Accepts.next rfl rfl (.next rfl rfl (.nil _)) :
    Accepts false [['a'], ['|'], ['b'], ['&']] _).runs (Heap.empty fun _ => true) fun _ => none
  exact ⟨t, _, hok, hcmds, makeCmdv_uniform_iff hok hcmds⟩

/-- The line `a|b|c&` runs `a` in the foreground. -/
theorem makeCmdv_uniform_fails :
    ¬ ∀ (ts : List CStr) (heap : Heap Cmd) (commands : Nat → Ptr) (t : Parser) (cmds : List Cmd),
      makeCmdv (ts.map some ++ [none]) heap (Function.update commands 0 none) =
        .ok (true, t) → Lists t cmds →
      ∀ j c, cmds[j]? = some c → c.piped = true → ∃ d, cmds[j + 1]? = some d ∧ c.bg = d.bg := by
  intro h
  obtain ⟨t, hok, hcmds⟩ := (Accepts.next rfl rfl (.next rfl rfl (.next rfl rfl (.nil _))) :
    Accepts false [['a'], ['|'], ['b'], ['|'], ['c'], ['&']] _).runs
      (Heap.empty fun _ => true) fun _ => none
  obtain ⟨d, hd, hbg⟩ := h _ _ _ t _ hok hcmds 0 _ rfl rfl
  cases hd
  cases hbg

end SyssoftLabs.Lab4
