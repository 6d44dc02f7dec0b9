import Mathlib.Data.List.Chain
import SyssoftLabs.Lab4.Parser.Layout
import SyssoftLabs.Lab4.Parser.Refinement

/-!
# Parsing undoes printing

A line as a list of pipelines, its tokens, and the commands it means. Cutting and parsing the
printed line gives these commands.
-/

namespace SyssoftLabs.Lab4

open SyssoftLabs.Framework

/-- The array holds these commands, each at an address of its own, and `NULL` behind them. -/
structure Lists (t : Parser) (cmds : List Cmd) : Prop where
  slot : ∀ j c, cmds[j]? = some c → ∃ a, t.commands j = some a ∧ t.heap.cell a = some c
  distinct : ∀ j k, j < cmds.length → k < cmds.length → t.commands j = t.commands k → j = k
  null : t.commands cmds.length = none

theorem Contents.lists {base n : Nat} {cell₀ : Nat → Option Cmd} {old : Nat → Ptr} {t : Parser}
    {cmds : List Cmd}
    (h : Contents base cell₀ (Function.update old n none) t.heap t.commands cmds)
    (hn : cmds.length = n) : Lists t cmds := by
  constructor
  · intro j c hj
    exact ⟨base + j, h.slot hj⟩
  · intro j k hj hk heq
    rw [h.commands, h.commands, if_pos hj, if_pos hk, Option.some.injEq] at heq
    omega
  · rw [h.commands, if_neg (Nat.lt_irrefl _), hn, Function.update_self]

theorem Lists.unique {t : Parser} {a b : List Cmd} (ha : Lists t a) (hb : Lists t b) : a = b := by
  have hle : ∀ {a b : List Cmd}, Lists t a → Lists t b → b.length ≤ a.length := by
    intro a b ha hb
    by_contra hlt
    obtain ⟨x, hx, -⟩ := hb.slot a.length _ (List.getElem?_eq_getElem (Nat.lt_of_not_le hlt))
    rw [ha.null] at hx
    cases hx
  have hlen := Nat.le_antisymm (hle hb ha) (hle ha hb)
  apply List.ext_getElem?
  intro j
  by_cases hj : j < a.length
  · have hja := List.getElem?_eq_getElem hj
    have hjb := List.getElem?_eq_getElem (hlen ▸ hj)
    obtain ⟨x, hx, hxa⟩ := ha.slot j _ hja
    obtain ⟨y, hy, hyb⟩ := hb.slot j _ hjb
    rw [hx, Option.some.injEq] at hy
    rw [← hy, hxa] at hyb
    rw [hja, hjb, hyb]
  · rw [List.getElem?_eq_none (by omega), List.getElem?_eq_none (by omega)]

/-! ## Lines -/

structure Word where
  chars : CStr
  nonempty : chars ≠ []
  plain : ∀ c ∈ chars, isWordChar c = true

def Word.ofChar (c : Char) (h : isWordChar c = true) : Word :=
  ⟨[c], List.cons_ne_nil _ _, by intro d hd; rw [List.mem_singleton] at hd; rw [hd, h]⟩

structure Simple where
  words : List Word
  nonempty : words ≠ []

/-- The redirections of the last stage: the output file with whether it is appended to, and the
input file. -/
structure Redirections where
  output : Option (Bool × Word)
  input : Option Word

structure Pipeline where
  /-- The stages in front of the last one. -/
  init : List Simple
  last : Simple
  redirections : Redirections
  background : Bool
  single : background = true → init = []

def Simple.tokens (s : Simple) : List CStr := s.words.map Word.chars

def outputTokens : Option (Bool × Word) → List CStr
  | none => []
  | some (false, file) => [['>'], file.chars]
  | some (true, file) => [['>'], ['>'], file.chars]

def inputTokens : Option Word → List CStr
  | none => []
  | some file => [['<'], file.chars]

def Redirections.tokens (r : Redirections) : List CStr :=
  outputTokens r.output ++ inputTokens r.input

/-- The tokens of a pipeline up to its terminator. -/
def Pipeline.tokens (p : Pipeline) : List CStr :=
  p.init.flatMap (fun s => s.tokens ++ [['|']]) ++ (p.last.tokens ++ p.redirections.tokens)

def Pipeline.terminator (p : Pipeline) : CStr := if p.background then ['&'] else [';']

/-- The tokens of a line; `bare` leaves out a final `;`. -/
def lineTokens (bare : Bool) : List Pipeline → List CStr
  | [] => []
  | [p] => p.tokens ++ if bare && !p.background then [] else [p.terminator]
  | p :: q :: ps => p.tokens ++ p.terminator :: lineTokens bare (q :: ps)

/-- The command of a stage: whether it is the first and the last one of its pipeline. -/
def stageCmd (first last : Bool) (s : Simple) (r : Redirections) (background : Bool) : Cmd where
  argc := s.words.length
  argv := s.tokens.map some ++ [none]
  input := if first then 0 else 2
  out := if last then 1 else 2
  piped := !last
  bg := background
  redirect := r.output.isSome
  rappend := r.output.any Prod.fst
  rfilename := r.output.map fun f => f.2.chars
  redirectIn := r.input.isSome
  rifilename := r.input.map Word.chars

def Redirections.none : Redirections := ⟨Option.none, Option.none⟩

/-- The stages of a pipeline from some stage on. -/
def stageCmds (first : Bool) (p : Pipeline) : List Simple → List Cmd
  | [] => [stageCmd first true p.last p.redirections p.background]
  | s :: stages => stageCmd first false s .none false :: stageCmds false p stages

theorem stageCmds_length (first : Bool) (p : Pipeline) (stages : List Simple) :
    (stageCmds first p stages).length = stages.length + 1 := by
  induction stages generalizing first with
  | nil => rfl
  | cons s stages ih => rw [stageCmds, List.length_cons, ih, List.length_cons]

def Pipeline.cmds (p : Pipeline) : List Cmd := stageCmds true p p.init

def lineCmds (ps : List Pipeline) : List Cmd := ps.flatMap Pipeline.cmds

/-! ## Tokens of a line -/

theorem Word.isWord (w : Word) : isWord w.chars = true := by
  obtain ⟨w, hne, hw⟩ := w
  cases w with
  | nil => exact absurd rfl hne
  | cons c w =>
      have hc := (isWordChar_iff.mp (hw c List.mem_cons_self)).2.2.1
      simp [Lab4.isWord, startsSeparator, hc]

private theorem Simple.tokens_isWord (s : Simple) : ∀ t ∈ s.tokens, isWord t = true := by
  intro t ht
  obtain ⟨w, -, rfl⟩ := List.mem_map.mp ht
  exact w.isWord

theorem Simple.tokens_cons (s : Simple) : ∃ t ts, s.tokens = t :: ts ∧ isWord t = true := by
  obtain ⟨w, ws, hw⟩ := List.exists_cons_of_ne_nil s.nonempty
  exact ⟨w.chars, ws.map Word.chars, by rw [tokens, hw]; rfl, w.isWord⟩

theorem Word.isToken (w : Word) : IsToken w.chars := .word w.nonempty w.plain

private theorem Redirections.tokens_isToken (r : Redirections) : ∀ t ∈ r.tokens, IsToken t := by
  have hout : IsToken ['>'] := .separator (by decide)
  have hin : IsToken ['<'] := .separator (by decide)
  obtain ⟨output, input⟩ := r
  intro t ht
  simp only [tokens, List.mem_append] at ht
  unfold outputTokens inputTokens at ht
  rcases ht with ht | ht
  · rcases output with _ | ⟨_ | _, file⟩
    · cases ht
    · simp only [List.mem_cons, List.not_mem_nil, or_false] at ht
      rcases ht with rfl | rfl
      · exact hout
      · exact file.isToken
    · simp only [List.mem_cons, List.not_mem_nil, or_false] at ht
      rcases ht with rfl | rfl | rfl
      · exact hout
      · exact hout
      · exact file.isToken
  · cases input with
    | none => cases ht
    | some file =>
        simp only [List.mem_cons, List.not_mem_nil, or_false] at ht
        rcases ht with rfl | rfl
        · exact hin
        · exact file.isToken

private theorem Simple.tokens_isToken (s : Simple) : ∀ t ∈ s.tokens, IsToken t := by
  intro t ht
  obtain ⟨w, -, rfl⟩ := List.mem_map.mp ht
  exact w.isToken

private theorem Pipeline.tokens_isToken (p : Pipeline) : ∀ t ∈ p.tokens, IsToken t := by
  intro t ht
  simp only [tokens, List.mem_append, List.mem_flatMap, List.mem_singleton] at ht
  rcases ht with ⟨s, -, ht | rfl⟩ | ht | ht
  · exact s.tokens_isToken t ht
  · exact .separator (by decide)
  · exact p.last.tokens_isToken t ht
  · exact p.redirections.tokens_isToken t ht

private theorem Pipeline.terminator_isToken (p : Pipeline) : IsToken p.terminator := by
  unfold terminator
  split <;> exact .separator (by decide)

theorem lineTokens_isToken (bare : Bool) (ps : List Pipeline) :
    ∀ t ∈ lineTokens bare ps, IsToken t := by
  induction ps with
  | nil => simp [lineTokens]
  | cons p ps ih =>
      intro t ht
      cases ps with
      | nil =>
          rw [lineTokens, List.mem_append] at ht
          rcases ht with ht | ht
          · exact p.tokens_isToken t ht
          · split at ht
            · cases ht
            · rw [List.mem_singleton] at ht
              exact ht ▸ p.terminator_isToken
      | cons q ps =>
          rw [lineTokens, List.mem_append, List.mem_cons] at ht
          rcases ht with ht | rfl | ht
          · exact p.tokens_isToken t ht
          · exact p.terminator_isToken
          · exact ih t ht

/-! ## Rounds of a line -/

private theorem takeWhile_words {ws : List CStr} (rest : List CStr)
    (hws : ∀ t ∈ ws, isWord t = true)
    (hrest : ∀ t, rest.head? = some t → startsSeparator t = true) :
    (ws ++ rest).takeWhile isWord = ws ∧ (ws ++ rest).dropWhile isWord = rest := by
  rw [List.takeWhile_append_of_pos hws, List.dropWhile_append_of_pos hws]
  cases rest with
  | nil => exact ⟨List.append_nil ws, rfl⟩
  | cons t rest =>
      have ht : ¬ isWord t = true := by simp [isWord, hrest t rfl]
      rw [List.takeWhile_cons_of_neg ht, List.dropWhile_cons_of_neg ht]
      exact ⟨List.append_nil ws, rfl⟩

private theorem wordsCmd_stage (pipeNext : Bool) (s : Simple) :
    wordsCmd pipeNext s.tokens = stageCmd (!pipeNext) true s .none false := by
  cases pipeNext <;> simp [wordsCmd, newCmd, stageCmd, Simple.tokens, Redirections.none]

private theorem round_stage (pipeNext : Bool) (s : Simple) {u : CStr} (rest : List CStr)
    (hu : isWord u = true) :
    round pipeNext (s.tokens ++ ['|'] :: u :: rest) =
      .next (stageCmd (!pipeNext) false s .none false) false (u :: rest) := by
  obtain ⟨htake, hdrop⟩ := takeWhile_words (['|'] :: u :: rest) s.tokens_isWord (by
    intro t ht
    cases ht
    decide)
  have hsep : ¬ startsSeparator u = true := by simpa [isWord] using hu
  rw [round, htake, hdrop, closeRound, if_pos rfl, pipeRound, if_neg hsep, wordsCmd_stage]
  rfl

/-- What may follow the last stage of a pipeline. -/
def Terminated (rest : List CStr) : Prop := ∀ t, rest.head? = some t → t = [';'] ∨ t = ['&']

private theorem Word.ne_separator (w : Word) {c : Char} (hc : isSeparator c = true) :
    w.chars ≠ [c] := by
  intro h
  have hw := w.isWord
  rw [h] at hw
  simp [Lab4.isWord, startsSeparator, hc] at hw

private theorem redirectOutput_tokens (c : Cmd) (output : Option (Bool × Word)) {rest : List CStr}
    (hc : c.redirect = false ∧ c.rappend = false ∧ c.rfilename = none)
    (hrest : rest.head? ≠ some ['>']) :
    redirectOutput c (outputTokens output ++ rest) =
      some ({ c with
        redirect := output.isSome
        rappend := output.any Prod.fst
        rfilename := output.map fun f => f.2.chars }, rest) := by
  rcases output with _ | ⟨_ | _, file⟩
  · have hsame : { c with redirect := false, rappend := false, rfilename := none } = c := by
      obtain ⟨h₁, h₂, h₃⟩ := hc
      cases c
      simp_all
    show redirectOutput c rest = some ({ c with
      redirect := false, rappend := false, rfilename := none }, rest)
    rw [hsame]
    cases rest with
    | nil => rfl
    | cons t ts => exact if_neg (by simpa using hrest)
  · have hfile := file.ne_separator (c := '>') (by decide)
    show outputFile c (file.chars :: rest) = _
    rw [outputFile, if_neg hfile, ← hc.2.1]
    rfl
  · show outputFile c (['>'] :: file.chars :: rest) = _
    rw [outputFile, if_pos rfl]
    rfl

private theorem redirectInput_tokens (c : Cmd) (input : Option Word) {rest : List CStr}
    (hc : c.redirectIn = false ∧ c.rifilename = none) (hrest : rest.head? ≠ some ['<']) :
    redirectInput c (inputTokens input ++ rest) =
      some ({ c with redirectIn := input.isSome, rifilename := input.map Word.chars }, rest) := by
  cases input with
  | none =>
      have hsame : { c with redirectIn := false, rifilename := none } = c := by
        obtain ⟨h₁, h₂⟩ := hc
        cases c
        simp_all
      show redirectInput c rest = some ({ c with redirectIn := false, rifilename := none }, rest)
      rw [hsame]
      cases rest with
      | nil => rfl
      | cons t ts => exact if_neg (by simpa using hrest)
  | some file => rfl

private theorem head_redirections {r : Redirections} {rest : List CStr} (hrest : Terminated rest) :
    ∀ t, (r.tokens ++ rest).head? = some t → startsSeparator t = true ∧ t ≠ ['|'] := by
  obtain ⟨output, input⟩ := r
  intro t ht
  rcases output with _ | ⟨_ | _, file⟩
  · rcases input with _ | file
    · rcases hrest t ht with rfl | rfl <;> decide
    · cases ht
      decide
  · cases ht
    decide
  · cases ht
    decide

private theorem round_last (pipeNext : Bool) (s : Simple) (r : Redirections) {rest : List CStr}
    (hrest : Terminated rest) :
    round pipeNext (s.tokens ++ (r.tokens ++ rest)) =
      .next (stageCmd (!pipeNext) true s r (rest.head? = some ['&'])) (rest.head? = some ['&'])
        (rest.dropWhile startsSeparator) := by
  have hhead := head_redirections (r := r) hrest
  obtain ⟨htake, hdrop⟩ := takeWhile_words (r.tokens ++ rest) s.tokens_isWord
    fun t ht => (hhead t ht).1
  have hgt : (inputTokens r.input ++ rest).head? ≠ some ['>'] := by
    cases r.input with
    | none =>
        intro h
        rcases hrest _ h with h | h <;> exact absurd h (by decide)
    | some file =>
        show some ['<'] ≠ some ['>']
        decide
  have hlt : rest.head? ≠ some ['<'] := by
    intro h
    rcases hrest _ h with h | h <;> exact absurd h (by decide)
  have hout := redirectOutput_tokens (wordsCmd pipeNext s.tokens) r.output ⟨rfl, rfl, rfl⟩ hgt
  have hin := redirectInput_tokens { wordsCmd pipeNext s.tokens with
    redirect := r.output.isSome
    rappend := r.output.any Prod.fst
    rfilename := r.output.map fun f => f.2.chars } r.input ⟨rfl, rfl⟩ hlt
  have hend : closeRound (wordsCmd pipeNext s.tokens) (r.tokens ++ rest) =
      endRound (wordsCmd pipeNext s.tokens) (r.tokens ++ rest) := by
    cases ht : r.tokens ++ rest with
    | nil => rfl
    | cons t ts =>
        rw [closeRound, if_neg (hhead t (by rw [ht]; rfl)).2]
  rw [round, htake, hdrop, hend, Redirections.tokens, List.append_assoc, endRound, hout]
  simp only [hin]
  by_cases hamp : rest.head? = some ['&'] <;> simp [hamp, wordsCmd_stage, stageCmd]

/-- No mark reaches an earlier command. -/
def MarksStay : List Part → Prop :=
  List.IsChain fun p q => q.marks = true → ¬ p.cmd.out > 1

private theorem settle_marksStay {parts : List Part} (h : MarksStay parts) :
    settle parts = parts.map Part.cmd := by
  induction parts with
  | nil => rfl
  | cons p parts ih =>
      cases parts with
      | nil => rfl
      | cons q parts =>
          obtain ⟨hpq, hq⟩ := List.isChain_cons_cons.mp h
          rw [settle, ih hq, if_neg fun hm => hpq hm.1 hm.2]
          rfl

/-- The tokens of a pipeline from some stage on. -/
def stageTokens (p : Pipeline) (stages : List Simple) : List CStr :=
  stages.flatMap (fun s => s.tokens ++ [['|']]) ++ (p.last.tokens ++ p.redirections.tokens)

private theorem stageTokens_cons (p : Pipeline) (stages : List Simple) :
    ∃ t ts, stageTokens p stages = t :: ts ∧ isWord t = true := by
  cases stages with
  | nil =>
      obtain ⟨t, ts, h, ht⟩ := p.last.tokens_cons
      exact ⟨t, ts ++ p.redirections.tokens, by simp [stageTokens, h], ht⟩
  | cons s stages =>
      obtain ⟨t, ts, h, ht⟩ := s.tokens_cons
      exact ⟨t, _, by simp only [stageTokens, List.flatMap_cons, h, List.cons_append]; rfl, ht⟩

private theorem parse_stages (p : Pipeline) (stages : List Simple) (pipeNext : Bool)
    {rest : List CStr}
    (hrest : Terminated rest) (hbg : decide (rest.head? = some ['&']) = p.background)
    (hsingle : p.background = true → stages = []) :
    ∃ q qs, parse pipeNext (stageTokens p stages ++ rest) =
        ((parse false (rest.dropWhile startsSeparator)).1,
          q :: qs ++ (parse false (rest.dropWhile startsSeparator)).2) ∧
      (q :: qs).map Part.cmd = stageCmds (!pipeNext) p stages ∧
      (q.marks = true → p.background = true) ∧
      ∀ more, MarksStay more → MarksStay (q :: qs ++ more) := by
  induction stages generalizing pipeNext with
  | nil =>
      have hround := round_last pipeNext p.last p.redirections hrest
      have htokens : stageTokens p [] ++ rest =
          p.last.tokens ++ (p.redirections.tokens ++ rest) := by
        simp [stageTokens]
      have hne : stageTokens p [] ++ rest ≠ [] := by
        obtain ⟨t, ts, h, -⟩ := stageTokens_cons p []
        rw [h]
        exact List.cons_ne_nil _ _
      rw [← htokens, hbg] at hround
      refine ⟨_, [], parse_next hne hround, rfl, fun h => h, ?_⟩
      intro more hmore
      cases more with
      | nil => exact List.isChain_singleton _
      | cons q more => exact List.isChain_cons_cons.mpr ⟨fun _ => Nat.lt_irrefl 1, hmore⟩
  | cons s stages ih =>
      have hbg' : p.background = false := by
        cases hb : p.background with
        | true => cases hsingle hb
        | false => rfl
      obtain ⟨q, qs, hparse, hcmds, hq, hstay⟩ := ih true fun hb => by rw [hbg'] at hb; cases hb
      obtain ⟨t, ts, htokens, ht⟩ := stageTokens_cons p stages
      have hround := round_stage pipeNext s (ts ++ rest) ht
      have hsplit : stageTokens p (s :: stages) ++ rest =
          s.tokens ++ ['|'] :: t :: (ts ++ rest) := by
        have h : stageTokens p (s :: stages) = s.tokens ++ ['|'] :: stageTokens p stages := by
          simp [stageTokens]
        rw [h, htokens, List.append_assoc]
        rfl
      have hne : stageTokens p (s :: stages) ++ rest ≠ [] := by
        rw [hsplit]
        exact List.append_ne_nil_of_right_ne_nil _ (List.cons_ne_nil _ _)
      rw [← hsplit] at hround
      have hnext := parse_next hne hround
      rw [← List.cons_append, ← htokens] at hnext
      have hpiped : (stageCmd (!pipeNext) false s .none false).piped = true := rfl
      rw [hpiped, hparse] at hnext
      refine ⟨_, q :: qs, hnext, ?_, (fun h => by cases h), ?_⟩
      · rw [List.map_cons, hcmds]
        rfl
      · intro more hmore
        refine List.isChain_cons_cons.mpr ⟨fun h => ?_, hstay more hmore⟩
        rw [hbg'] at hq
        exact absurd (hq h) Bool.false_ne_true

theorem lineTokens_cons (bare : Bool) (p : Pipeline) (ps : List Pipeline) :
    ∃ t ts, lineTokens bare (p :: ps) = t :: ts ∧ isWord t = true := by
  obtain ⟨t, ts, h, ht⟩ := stageTokens_cons p p.init
  have htokens : p.tokens = t :: ts := h
  cases ps with
  | nil => exact ⟨t, _, by rw [lineTokens, htokens, List.cons_append], ht⟩
  | cons q ps => exact ⟨t, _, by rw [lineTokens, htokens, List.cons_append], ht⟩

private theorem Pipeline.terminated (p : Pipeline) (rest : List CStr) :
    Terminated (p.terminator :: rest) ∧
      decide ((p.terminator :: rest).head? = some ['&']) = p.background ∧
      startsSeparator p.terminator = true := by
  cases hb : p.background with
  | true =>
      have ht : p.terminator = ['&'] := if_pos hb
      rw [ht]
      exact ⟨fun t h => .inr (Option.some.inj h).symm, rfl, rfl⟩
  | false =>
      have ht : p.terminator = [';'] := if_neg (by simp [hb])
      rw [ht]
      exact ⟨fun t h => .inl (Option.some.inj h).symm, by simp, rfl⟩

private theorem parse_lineTokens (bare : Bool) (ps : List Pipeline) :
    ∃ parts, parse false (lineTokens bare ps) = (.accepted, parts) ∧
      parts.map Part.cmd = lineCmds ps ∧ MarksStay parts := by
  induction ps with
  | nil => exact ⟨[], parse_nil false, rfl, List.isChain_nil⟩
  | cons p ps ih =>
      obtain ⟨rest, htokens, hrest, hbg, hdrop⟩ : ∃ rest,
          lineTokens bare (p :: ps) = stageTokens p p.init ++ rest ∧ Terminated rest ∧
          decide (rest.head? = some ['&']) = p.background ∧
          rest.dropWhile startsSeparator = lineTokens bare ps := by
        cases ps with
        | nil =>
            cases hb : bare && !p.background with
            | true =>
                refine ⟨[], ?_, (fun t h => by cases h), ?_, rfl⟩
                · rw [lineTokens, hb]
                  rfl
                · simp only [Bool.and_eq_true, Bool.not_eq_true'] at hb
                  rw [hb.2]
                  rfl
            | false =>
                obtain ⟨hrest, hbg, hsep⟩ := p.terminated []
                refine ⟨[p.terminator], ?_, hrest, hbg, List.dropWhile_cons_of_pos hsep⟩
                rw [lineTokens, hb]
                rfl
        | cons q ps =>
            obtain ⟨hrest, hbg, hsep⟩ := p.terminated (lineTokens bare (q :: ps))
            refine ⟨_, rfl, hrest, hbg, ?_⟩
            obtain ⟨t, ts, h, ht⟩ := lineTokens_cons bare q ps
            have hword : ¬ startsSeparator t = true := by simpa [isWord] using ht
            rw [List.dropWhile_cons_of_pos hsep, h, List.dropWhile_cons_of_neg hword]
      obtain ⟨q, qs, hparse, hcmds, -, hstay⟩ := parse_stages p p.init false hrest hbg p.single
      obtain ⟨parts, hih, hcmds', hchain⟩ := ih
      rw [hdrop, hih] at hparse
      refine ⟨q :: qs ++ parts, htokens ▸ hparse, ?_, hstay parts hchain⟩
      rw [List.map_append, hcmds, hcmds']
      rfl

/-- Parsing the tokens of a line gives its commands. -/
theorem makeCmdv_lineTokens (bare : Bool) (ps : List Pipeline) (heap : Heap Cmd)
    (commands : Nat → Ptr) :
    ∃ t, makeCmdv ((lineTokens bare ps).map some ++ [none]) heap
        (Function.update commands 0 none) = .ok (true, t) ∧ Lists t (lineCmds ps) := by
  obtain ⟨parts, hparse, hcmds, hstay⟩ := parse_lineTokens bare ps
  have hword : ∀ t, (lineTokens bare ps).head? = some t → isWord t := by
    intro t ht
    cases ps with
    | nil => cases ht
    | cons p ps =>
        obtain ⟨u, us, h, hu⟩ := lineTokens_cons bare p ps
        rw [h] at ht
        cases ht
        exact hu
  have hrun := makeCmdv_parse (lineTokens bare ps) heap (Function.update commands 0 none) hword
    (Function.update_self ..)
  rw [hparse] at hrun
  obtain ⟨t, hok, -, hcontents⟩ := hrun
  have hsettle := settle_marksStay hstay
  rw [hcmds] at hsettle
  rw [hsettle] at hcontents
  have hlength : (lineCmds ps).length = parts.length := by rw [← hcmds, List.length_map]
  exact ⟨t, hok, hcontents.lists hlength⟩

/-- Two pipelines: two stages with both redirections, and a background command. -/
def sampleLine : List Pipeline :=
  [⟨[⟨[.ofChar 'x' rfl, .ofChar 'y' rfl], List.cons_ne_nil _ _⟩],
      ⟨[.ofChar 'c' rfl], List.cons_ne_nil _ _⟩,
      ⟨some (true, .ofChar 'f' rfl), some (.ofChar 'g' rfl)⟩, false, fun h => by cases h⟩,
    ⟨[], ⟨[.ofChar 'd' rfl], List.cons_ne_nil _ _⟩, .none, true, fun _ => rfl⟩]

example : layout (fun _ => (⟨' ', rfl⟩, [])) (lineTokens true sampleLine) =
    ['x', ' ', 'y', '|', 'c', '>', '>', 'f', '<', 'g', ';', 'd', '&'] := by decide

end SyssoftLabs.Lab4
