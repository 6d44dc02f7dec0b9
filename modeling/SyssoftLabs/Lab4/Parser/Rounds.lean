import SyssoftLabs.Lab4.Parser.Commands

/-!
# The parser round by round

What `make_cmdv` does without its index and its memory: from the tokens that are left, one round
takes the words up to a separator, then at most one output and one input redirection and a
background mark, and drops the separators behind them. The loop over the vector computes this.
-/

namespace SyssoftLabs.Lab4

open SyssoftLabs.Framework

def isWord (token : CStr) : Bool := !startsSeparator token

/-- The command of the words in front of a separator, before the separator is looked at. -/
def wordsCmd (pipeNext : Bool) (words : List CStr) : Cmd :=
  { newCmd (words.map some) with input := if pipeNext then 2 else 0 }

/-- The operand of `> >`; `none` if it is missing. -/
def appendFile (c : Cmd) : List CStr → Option (Cmd × List CStr)
  | [] => none
  | file :: ts => some ({ c with rappend := true, redirect := true, rfilename := some file }, ts)

/-- The operand of an output redirection, which may be one more `>`. -/
def outputFile (c : Cmd) : List CStr → Option (Cmd × List CStr)
  | [] => none
  | file :: ts =>
      if file = ['>'] then appendFile c ts
      else some ({ c with redirect := true, rfilename := some file }, ts)

/-- The output redirection at the start of the tokens. -/
def redirectOutput (c : Cmd) : List CStr → Option (Cmd × List CStr)
  | [] => some (c, [])
  | t :: ts => if t = ['>'] then outputFile c ts else some (c, t :: ts)

/-- The operand of an input redirection. -/
def inputFile (c : Cmd) : List CStr → Option (Cmd × List CStr)
  | [] => none
  | file :: ts => some ({ c with redirectIn := true, rifilename := some file }, ts)

/-- The input redirection at the start of the tokens. -/
def redirectInput (c : Cmd) : List CStr → Option (Cmd × List CStr)
  | [] => some (c, [])
  | t :: ts => if t = ['<'] then inputFile c ts else some (c, t :: ts)

inductive Round
  /-- A command, whether `&` follows it, and the tokens from the next word on. -/
  | next (c : Cmd) (marks : Bool) (rest : List CStr)
  /-- A pipe into nothing: the command is freed again. -/
  | dropped
  /-- A redirection without its operand. -/
  | dangling

/-- The tokens behind the words of a command, which do not start with a pipe. -/
def endRound (c : Cmd) (tokens : List CStr) : Round :=
  match redirectOutput c tokens with
  | none => .dangling
  | some (c, tokens) =>
      match redirectInput c tokens with
      | none => .dangling
      | some (c, tokens) =>
          let marks := tokens.head? = some ['&']
          .next (if marks then { c with bg := true } else c) marks
            (tokens.dropWhile startsSeparator)

/-- The tokens behind a pipe. -/
def pipeRound (c : Cmd) : List CStr → Round
  | [] => .dropped
  | u :: rest =>
      if startsSeparator u then .dropped
      else .next { c with out := 2, piped := true } false (u :: rest)

/-- The tokens behind the words of a command. -/
def closeRound (c : Cmd) : List CStr → Round
  | [] => .next c false []
  | t :: rest => if t = ['|'] then pipeRound c rest else endRound c (t :: rest)

/-- One round from tokens that start with a word. -/
def round (pipeNext : Bool) (tokens : List CStr) : Round :=
  closeRound (wordsCmd pipeNext (tokens.takeWhile isWord)) (tokens.dropWhile isWord)

private theorem outputFile_length {c c' : Cmd} {tokens rest : List CStr}
    (h : outputFile c tokens = some (c', rest)) : rest.length < tokens.length := by
  unfold outputFile appendFile at h
  grind

private theorem redirectOutput_length {c c' : Cmd} {tokens rest : List CStr}
    (h : redirectOutput c tokens = some (c', rest)) :
    (c' = c ∧ rest = tokens) ∨ rest.length < tokens.length := by
  cases tokens with
  | nil => cases h; exact .inl ⟨rfl, rfl⟩
  | cons t ts =>
      rw [redirectOutput] at h
      split at h
      · have := outputFile_length h
        exact .inr (Nat.lt_succ_of_lt this)
      · cases h
        exact .inl ⟨rfl, rfl⟩

private theorem redirectInput_length {c c' : Cmd} {tokens rest : List CStr}
    (h : redirectInput c tokens = some (c', rest)) :
    (c' = c ∧ rest = tokens) ∨ rest.length < tokens.length := by
  cases tokens with
  | nil => cases h; exact .inl ⟨rfl, rfl⟩
  | cons t ts =>
      rw [redirectInput] at h
      split at h
      · cases ts with
        | nil => cases h
        | cons file ts =>
            cases h
            exact .inr (Nat.lt_succ_of_lt (Nat.lt_succ_self _))
      · cases h
        exact .inl ⟨rfl, rfl⟩

theorem endRound_next {c c' : Cmd} {tokens rest : List CStr} {marks : Bool}
    (h : endRound c tokens = .next c' marks rest) :
    ∃ c₁ ts₁ c₂ ts₂, redirectOutput c tokens = some (c₁, ts₁) ∧
      redirectInput c₁ ts₁ = some (c₂, ts₂) ∧ marks = decide (ts₂.head? = some ['&']) ∧
      c' = (if marks then { c₂ with bg := true } else c₂) ∧
      rest = ts₂.dropWhile startsSeparator := by
  unfold endRound at h
  grind

private theorem endRound_rest {c c' : Cmd} {t : CStr} {ts rest : List CStr} {marks : Bool}
    (ht : startsSeparator t = true) (h : endRound c (t :: ts) = .next c' marks rest) :
    rest.length ≤ ts.length := by
  obtain ⟨c₁, ts₁, c₂, ts₂, hout, hin, -, -, rfl⟩ := endRound_next h
  have hdrop := (List.dropWhile_sublist startsSeparator (l := ts₂)).length_le
  rcases redirectOutput_length hout with ⟨-, h₁⟩ | h₁ <;>
    rcases redirectInput_length hin with ⟨-, h₂⟩ | h₂
  · rw [h₂, h₁, List.dropWhile_cons_of_pos ht]
    exact (List.dropWhile_sublist startsSeparator).length_le
  · rw [h₁, List.length_cons] at h₂
    omega
  · rw [List.length_cons] at h₁
    rw [h₂] at hdrop ⊢
    omega
  · rw [List.length_cons] at h₁
    omega

/-- The words and the connections of a command, which the end of a round does not change. -/
structure Keeps (c c' : Cmd) : Prop where
  argc : c'.argc = c.argc
  argv : c'.argv = c.argv
  input : c'.input = c.input
  out : c'.out = c.out
  piped : c'.piped = c.piped

theorem Keeps.refl (c : Cmd) : Keeps c c := ⟨rfl, rfl, rfl, rfl, rfl⟩

theorem Keeps.trans {c d e : Cmd} (h : Keeps c d) (h' : Keeps d e) : Keeps c e :=
  ⟨h'.argc.trans h.argc, h'.argv.trans h.argv, h'.input.trans h.input, h'.out.trans h.out,
    h'.piped.trans h.piped⟩

theorem redirectOutput_keeps {c c' : Cmd} {tokens rest : List CStr}
    (h : redirectOutput c tokens = some (c', rest)) : Keeps c c' := by
  unfold redirectOutput outputFile appendFile at h
  split at h
  · cases h
    exact .refl c
  · split at h
    · split at h
      · cases h
      · split at h
        · split at h
          · cases h
          · cases h
            exact ⟨rfl, rfl, rfl, rfl, rfl⟩
        · cases h
          exact ⟨rfl, rfl, rfl, rfl, rfl⟩
    · cases h
      exact .refl c

theorem redirectInput_keeps {c c' : Cmd} {tokens rest : List CStr}
    (h : redirectInput c tokens = some (c', rest)) : Keeps c c' := by
  unfold redirectInput inputFile at h
  split at h
  · cases h
    exact .refl c
  · split at h
    · split at h
      · cases h
      · cases h
        exact ⟨rfl, rfl, rfl, rfl, rfl⟩
    · cases h
      exact .refl c

theorem endRound_keeps {c c' : Cmd} {tokens rest : List CStr} {marks : Bool}
    (h : endRound c tokens = .next c' marks rest) : Keeps c c' := by
  obtain ⟨c₁, ts₁, c₂, ts₂, hout, hin, -, rfl, -⟩ := endRound_next h
  have hkeeps := (redirectOutput_keeps hout).trans (redirectInput_keeps hin)
  cases marks with
  | false => exact hkeeps
  | true => exact hkeeps.trans ⟨rfl, rfl, rfl, rfl, rfl⟩

theorem startsSeparator_of_dropWhile {tokens rest : List CStr} {t : CStr}
    (h : tokens.dropWhile isWord = t :: rest) : startsSeparator t = true := by
  have := List.head?_dropWhile_not isWord tokens
  simpa [h, isWord] using this

theorem closeRound_rest {c c' : Cmd} {t : CStr} {ts rest : List CStr} {marks : Bool}
    (ht : startsSeparator t = true) (h : closeRound c (t :: ts) = .next c' marks rest) :
    rest.length ≤ ts.length := by
  rw [closeRound] at h
  by_cases hp : t = ['|']
  · rw [if_pos hp] at h
    cases ts with
    | nil => cases h
    | cons u us =>
        rw [pipeRound] at h
        split at h
        · cases h
        · cases h
          exact Nat.le_refl _
  · rw [if_neg hp] at h
    exact endRound_rest ht h

theorem round_rest {pipeNext marks : Bool} {tokens rest : List CStr} {c : Cmd}
    (hne : tokens ≠ []) (h : round pipeNext tokens = .next c marks rest) :
    rest.length < tokens.length := by
  have hlen := (List.dropWhile_sublist isWord (l := tokens)).length_le
  rw [round] at h
  cases hd : tokens.dropWhile isWord with
  | nil =>
      rw [hd] at h
      cases h
      exact List.length_pos_iff.mpr hne
  | cons t ts =>
      rw [hd] at h
      have := closeRound_rest (startsSeparator_of_dropWhile hd) h
      rw [hd, List.length_cons] at hlen
      omega

/-- A round whose command is kept ends at the end of the tokens, at a pipe, or behind
redirections. -/
theorem round_cases {pipeNext marks : Bool} {tokens rest : List CStr} {c : Cmd}
    (h : round pipeNext tokens = .next c marks rest) :
    (tokens.dropWhile isWord = [] ∧ c = wordsCmd pipeNext (tokens.takeWhile isWord) ∧
        marks = false ∧ rest = []) ∨
      (∃ u us, tokens.dropWhile isWord = ['|'] :: u :: us ∧ isWord u = true ∧
        c = { wordsCmd pipeNext (tokens.takeWhile isWord) with out := 2, piped := true } ∧
        marks = false ∧ rest = u :: us) ∨
      ∃ t ts, tokens.dropWhile isWord = t :: ts ∧ t ≠ ['|'] ∧
        endRound (wordsCmd pipeNext (tokens.takeWhile isWord)) (t :: ts) = .next c marks rest := by
  rw [round] at h
  cases hd : tokens.dropWhile isWord with
  | nil =>
      rw [hd] at h
      cases h
      exact .inl ⟨rfl, rfl, rfl, rfl⟩
  | cons t ts =>
      rw [hd, closeRound] at h
      by_cases hp : t = ['|']
      · rw [if_pos hp] at h
        cases ts with
        | nil => cases h
        | cons u us =>
            rw [pipeRound] at h
            split at h
            · cases h
            · next hu =>
                cases h
                exact .inr (.inl ⟨u, us, by rw [hp], by simpa [isWord] using hu, rfl, rfl, rfl⟩)
      · rw [if_neg hp] at h
        exact .inr (.inr ⟨t, ts, rfl, hp, h⟩)

theorem round_words {pipeNext marks : Bool} {tokens rest : List CStr} {c : Cmd}
    (h : round pipeNext tokens = .next c marks rest) :
    c.argc = (tokens.takeWhile isWord).length ∧
      c.argv = (tokens.takeWhile isWord).map some ++ [none] ∧
      c.input = (if pipeNext then 2 else 0) ∧ c.out = (if c.piped then 2 else 1) := by
  have hargc : (wordsCmd pipeNext (tokens.takeWhile isWord)).argc =
      (tokens.takeWhile isWord).length := List.length_map some
  rcases round_cases h with ⟨-, rfl, -⟩ | ⟨u, us, -, -, rfl, -⟩ | ⟨t, ts, -, -, hend⟩
  · exact ⟨hargc, rfl, rfl, rfl⟩
  · exact ⟨hargc, rfl, rfl, rfl⟩
  · have hk := endRound_keeps hend
    refine ⟨hk.argc.trans hargc, hk.argv, hk.input, ?_⟩
    rw [hk.piped, hk.out]
    rfl

/-! ## The whole vector -/

/-- A command, whether `&` follows it, and its tokens up to the next command. -/
structure Part where
  cmd : Cmd
  marks : Bool
  tokens : List CStr

inductive Verdict
  | accepted
  | dropped
  | dangling
deriving DecidableEq, Repr

/-- The ranges `make_cmd` is called with for parts that begin at `start`. -/
def callsOf (start : Nat) : List Part → List (Nat × Nat)
  | [] => []
  | p :: parts => (start, start + p.cmd.argc - 1) :: callsOf (start + p.tokens.length) parts

/-- All rounds, and how they end. -/
def parse (pipeNext : Bool) (tokens : List CStr) : Verdict × List Part :=
  if _ : tokens = [] then (.accepted, [])
  else
    match _ : round pipeNext tokens with
    | .dropped => (.dropped, [])
    | .dangling => (.dangling, [])
    | .next c marks rest =>
        let (verdict, parts) := parse c.piped rest
        (verdict, ⟨c, marks, tokens.take (tokens.length - rest.length)⟩ :: parts)
termination_by tokens.length
decreasing_by exact round_rest (by assumption) (by assumption)

/-- `&` marks the command it follows and, if that is connected to it, the one before. -/
def settle : List Part → List Cmd
  | [] => []
  | [p] => [p.cmd]
  | p :: q :: parts =>
      (if q.marks ∧ p.cmd.out > 1 then { p.cmd with bg := true } else p.cmd) :: settle (q :: parts)

/-- The effect of `&` on the commands before the one it follows. -/
def markPrevious (cmds : List Cmd) : List Cmd :=
  match cmds.getLast? with
  | none => cmds
  | some c => cmds.dropLast ++ [if c.out > 1 then { c with bg := true } else c]

theorem markPrevious_concat (cmds : List Cmd) (c : Cmd) :
    markPrevious (cmds ++ [c]) = cmds ++ [if c.out > 1 then { c with bg := true } else c] := by
  simp [markPrevious]

theorem parse_nil (pipeNext : Bool) : parse pipeNext [] = (.accepted, []) := by
  rw [parse]
  exact dif_pos rfl

theorem parse_dropped {pipeNext : Bool} {tokens : List CStr} (hne : tokens ≠ [])
    (h : round pipeNext tokens = .dropped) : parse pipeNext tokens = (.dropped, []) := by
  rw [parse, dif_neg hne]
  grind

theorem parse_dangling {pipeNext : Bool} {tokens : List CStr} (hne : tokens ≠ [])
    (h : round pipeNext tokens = .dangling) : parse pipeNext tokens = (.dangling, []) := by
  rw [parse, dif_neg hne]
  grind

theorem parse_next {pipeNext marks : Bool} {tokens rest : List CStr} {c : Cmd}
    (hne : tokens ≠ []) (h : round pipeNext tokens = .next c marks rest) :
    parse pipeNext tokens = ((parse c.piped rest).1,
      ⟨c, marks, tokens.take (tokens.length - rest.length)⟩ :: (parse c.piped rest).2) := by
  rw [parse, dif_neg hne]
  grind

theorem settle_concat (parts : List Part) (p : Part) :
    settle (parts ++ [p]) =
      (if p.marks then markPrevious (settle parts) else settle parts) ++ [p.cmd] := by
  induction parts with
  | nil => cases p.marks <;> rfl
  | cons q parts ih =>
      cases parts with
      | nil =>
          cases hp : p.marks <;> by_cases hq : q.cmd.out > 1 <;>
            simp [settle, markPrevious, hp, hq]
      | cons r parts =>
          have hcons : ∀ c cs,
              markPrevious (c :: settle (r :: cs)) = c :: markPrevious (settle (r :: cs)) := by
            intro c cs
            have hne : settle (r :: cs) ≠ [] := by
              cases cs <;> simp [settle]
            obtain ⟨init, last, hl⟩ := List.eq_nil_or_concat _ |>.resolve_left hne
            rw [hl, List.concat_eq_append, ← List.cons_append, markPrevious_concat,
              markPrevious_concat, List.cons_append]
          show _ :: settle ((r :: parts) ++ [p]) = _
          rw [ih]
          cases hp : p.marks with
          | false => rfl
          | true =>
              rw [if_pos rfl, if_pos rfl, settle, hcons]
              rfl

theorem settle_length (parts : List Part) : (settle parts).length = parts.length := by
  induction parts with
  | nil => rfl
  | cons p parts ih =>
      cases parts with
      | nil => rfl
      | cons q parts => simpa [settle] using ih

theorem settle_map {β : Type} (f : Cmd → β) (hf : ∀ c, f { c with bg := true } = f c)
    (parts : List Part) : (settle parts).map f = parts.map fun p => f p.cmd := by
  induction parts with
  | nil => rfl
  | cons p parts ih =>
      cases parts with
      | nil => rfl
      | cons q parts =>
          rw [settle, List.map_cons, ih, List.map_cons]
          congr 1
          split
          · exact hf p.cmd
          · rfl

end SyssoftLabs.Lab4
