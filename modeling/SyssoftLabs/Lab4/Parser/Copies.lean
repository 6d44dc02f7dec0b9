import SyssoftLabs.Lab4.Parser.Cutting
import SyssoftLabs.Lab4.Parser.Ranges
import SyssoftLabs.Lab4.Parser.Rescanning

/-!
# Strings and the arrays that are allocated for them

Every string the parser makes is copied into an array of its own. The size it asks for is computed
anew each time; the indices written are recorded here beside it.
-/

namespace SyssoftLabs.Lab4

open SyssoftLabs.Framework

/-- An array of `size` characters and the indices that are written to. -/
structure Copy where
  size : Nat
  writes : List Nat

def Copy.InBounds (c : Copy) : Prop := ∀ i ∈ c.writes, i < c.size

/-- The indices that `strcpy` writes, that of the terminator included. -/
def strcpyWrites (src : CStr) : List Nat := List.range (src.length + 1)

/-! ## The copies of `get_splitted` -/

/-- `arg` in `get_arg`: `malloc(p)`, `strncpy(arg, line, p)` and `arg[p] = '\0'`. -/
def getArgCopy (line : CStr) : Copy :=
  let p := (getArg line).length
  ⟨p, List.range p ++ [p]⟩

/-- `vec[i]` in `put`. -/
def putCopy (item : CStr) : Copy :=
  ⟨item.length + 1, strcpyWrites item ++ [item.length]⟩

/-- The copy that `put` makes, unless the vector is full. -/
def putCopies (vec : List (Option CStr)) (item : CStr) : List Copy :=
  let i := vec.findIdx Option.isNone
  if i + 1 > argsSize then [] else [putCopy item]

/-- The copies of one round of cutting. -/
def splitCopies : CStr × List (Option CStr) → List Copy
  | (line, args) =>
      if line = [] then []
      else
        let line := skipSpaces line
        if line = [] then [] else getArgCopy line :: putCopies args (getArg line)

/-- The indices of `subs` that one of the loops of `unfold_variable` writes, from the index `i`
down. -/
def namesWrites (lookup : CStr → Option CStr) (line : List Char) : Nat → List Char → List Nat
  | i, subs =>
      let written := List.range i ++ [i + 1]
      let subs := (strncpy subs (cString (line.drop 1)) i).set (i + 1) nul
      match lookup (cString subs), i with
      | some _, _ => written
      | none, 0 => written
      | none, i + 1 => written ++ namesWrites lookup line i subs

/-- `subs` in `unfold_variable`. -/
def unfoldCopies (σ : Scope) (line : List Char) : List Copy :=
  if line.headD nul ≠ '$' then []
  else
    let len := (cString line).length
    let scratch := List.replicate (len + 2) nul
    let vars := namesWrites σ.getVar line len scratch
    match unfoldNames σ.getVar line len scratch with
    | (some _, _) => [⟨len + 1, vars⟩]
    | (none, subs) => [⟨len + 1, vars ++ namesWrites σ.getenv line len subs⟩]

private theorem getArgCopy_overrun (line : CStr) : ¬ (getArgCopy line).InBounds := by
  intro h
  exact Nat.lt_irrefl _ (h (getArg line).length (by simp [getArgCopy]))

theorem putCopy_inBounds (item : CStr) : (putCopy item).InBounds := by
  intro i hi
  rcases List.mem_append.mp hi with h | h
  · exact List.mem_range.mp h
  · rw [List.mem_singleton.mp h]
    exact Nat.lt_succ_self _

private theorem mem_namesWrites (lookup : CStr → Option CStr) (line : List Char) (i : Nat)
    (subs : List Char) : i + 1 ∈ namesWrites lookup line i subs := by
  rw [namesWrites.eq_def]
  dsimp only
  split <;> simp

private theorem unfoldCopies_overrun (σ : Scope) {line : List Char} (hd : line.headD nul = '$') :
    ∃ c ∈ unfoldCopies σ line, ¬ c.InBounds := by
  have hwritten := mem_namesWrites σ.getVar line (cString line).length
    (List.replicate ((cString line).length + 2) nul)
  rw [unfoldCopies, if_neg (not_not_intro hd)]
  dsimp only
  split
  · exact ⟨_, List.mem_singleton_self _, fun h => Nat.lt_irrefl _ (h _ hwritten)⟩
  · exact ⟨_, List.mem_singleton_self _,
      fun h => Nat.lt_irrefl _ (h _ (List.mem_append_left _ hwritten))⟩

/-- A line is expanded and cut within the arrays. -/
structure SplittedFits (mem : Arena nul) (σ : Scope) (line : List Char) : Prop where
  unfolds : ∀ n s, roundAt (expandStep σ) n ([], line) = some s →
    ∀ c ∈ unfoldCopies σ s.2, c.InBounds
  cuts : ∀ fuel out, expand σ fuel line = .ok out →
    ∀ n s, roundAt (splitStep mem) n (cString out, [none]) = some s →
      ∀ c ∈ splitCopies s, c.InBounds

section

variable {mem : Arena nul} {σ : Scope} {text behind : List Char}

private theorem roundAt_expandStep {before : List Char} (σ : Scope) {front rest : List Char}
    (hfront : ∀ c ∈ front, isPlain c = true) :
    roundAt (expandStep σ) front.length (before, front ++ rest) = some (before ++ front, rest) := by
  induction front generalizing before with
  | nil => rw [List.append_nil]; rfl
  | cons c front ih =>
      have hc := isPlain_iff.mp (hfront c List.mem_cons_self)
      rw [List.length_cons, List.cons_append, roundAt_next (expandStep_plain σ before _ hc.1 hc.2),
        ih fun d hd => hfront d (List.mem_cons_of_mem c hd), List.append_assoc]
      rfl

private theorem plain_of_blank {text : CStr} (h : ∀ c ∈ text, isSpace c = true) :
    ∀ c ∈ text, isPlain c = true := by
  intro c hc
  have hspace := h c hc
  rw [isSpace, Bool.or_eq_true, beq_iff_eq, beq_iff_eq] at hspace
  rcases hspace with rfl | rfl <;> decide

/-- What is left of a line without variables. -/
def PlainRest (behind : List Char) (s : List Char × List Char) : Prop :=
  ∃ left, (∀ c ∈ left, isPlain c = true) ∧ s.2 = left ++ nul :: behind

theorem PlainRest.next {s t : List Char × List Char} (h : PlainRest behind s)
    (ht : expandStep σ s = .ok (.inl t)) : PlainRest behind t := by
  obtain ⟨left, hleft, hline⟩ := h
  obtain ⟨hd, hrest⟩ := expandStep_inl ht
  rw [hline] at hd hrest
  cases left with
  | nil => exact absurd rfl hd
  | cons c left =>
      have hc := isPlain_iff.mp (hleft c List.mem_cons_self)
      rw [List.cons_append, unfoldVariable_plain σ _ hc.2] at hrest
      exact ⟨left, fun d hd => hleft d (List.mem_cons_of_mem c hd), hrest⟩

theorem PlainRest.head {s : List Char × List Char} (h : PlainRest behind s) :
    s.2.headD nul ≠ '$' := by
  obtain ⟨left, hleft, hline⟩ := h
  rw [hline]
  cases left with
  | nil => exact (by decide : nul ≠ '$')
  | cons c left => exact (isPlain_iff.mp (hleft c List.mem_cons_self)).2

private theorem splittedFits_blank (h : ∀ c ∈ text, isSpace c = true) :
    SplittedFits mem σ (text ++ nul :: behind) := by
  have hplain := plain_of_blank h
  constructor
  · intro n s hs c hc
    have hstart : PlainRest behind ([], text ++ nul :: behind) := ⟨text, hplain, rfl⟩
    have hrest := roundAt_invariant (fun s t => PlainRest.next) hstart hs
    rw [unfoldCopies, if_pos hrest.head] at hc
    cases hc
  · intro fuel out hout n s hs
    have hsame : out = text ++ nul :: behind :=
      loop_unique hout (expand_plain σ hplain (Nat.lt_succ_self _))
    have hskip : skipSpaces (cString out) = [] := by
      rw [hsame, cString_plain _ hplain]
      exact List.dropWhile_eq_nil_iff.mpr h
    cases n with
    | zero =>
        cases hs
        intro c hc
        rw [splitCopies] at hc
        split at hc
        · cases hc
        · dsimp only at hc
          rw [if_pos hskip] at hc
          cases hc
    | succ n =>
        rw [roundAt, splitStep_nil hskip] at hs
        cases hs

private theorem splittedFits_iff (hnul : nul ∉ text) :
    SplittedFits mem σ (text ++ nul :: behind) ↔ ∀ c ∈ text, isSpace c = true := by
  refine ⟨fun h => ?_, splittedFits_blank⟩
  by_cases hdollar : '$' ∈ text
  · obtain ⟨front, rest, htext, hfront⟩ := List.eq_append_cons_of_mem hdollar
    have hplain := plain_of_notMem (fun h => hnul (htext ▸ List.mem_append_left _ h)) hfront
    have hround : roundAt (expandStep σ) front.length
        ([], front ++ ('$' :: rest ++ nul :: behind)) =
          some ([] ++ front, '$' :: rest ++ nul :: behind) := roundAt_expandStep σ hplain
    have hscratch : ∃ c ∈ unfoldCopies σ ('$' :: rest ++ nul :: behind), ¬ c.InBounds :=
      unfoldCopies_overrun σ rfl
    obtain ⟨c, hc, hover⟩ := hscratch
    rw [← List.append_assoc, ← htext] at hround
    exact absurd (h.unfolds _ _ hround c hc) hover
  · have hplain := plain_of_notMem hnul hdollar
    have hcuts := h.cuts _ _ (expand_plain σ hplain (Nat.lt_succ_self _)) 0 _ rfl
    rw [cString_plain _ hplain, splitCopies] at hcuts
    have hskip : skipSpaces text = [] := by
      by_contra hne
      have hline : text ≠ [] := by
        rintro rfl
        exact hne rfl
      rw [if_neg hline] at hcuts
      dsimp only at hcuts
      rw [if_neg hne] at hcuts
      exact getArgCopy_overrun _ (hcuts _ List.mem_cons_self)
    exact List.dropWhile_eq_nil_iff.mp hskip

end

/-! ## The copies of `make_cmdv` -/

/-- `rfilename` and `rifilename`: `malloc(strlen(file + 1))` and `strcpy`. Behind the terminator of
an empty token there is nothing to count. -/
def fileCopy (file : CStr) : Copy :=
  ⟨(cString (file.drop 1)).length, strcpyWrites file⟩

/-- The copy of `args[i]`, if it is there. -/
def operandCopies (s : Parser) (i : Nat) : List Copy :=
  match s.args[i]? with
  | some (some file) => [fileCopy file]
  | _ => []

/-- The copy at the `>` at `i`, which may be followed by one more. -/
def outputOperandCopies (s : Parser) : List Copy :=
  if s.args[s.i + 1]? = some (some ['>']) then operandCopies s (s.i + 2)
  else operandCopies s (s.i + 1)

def outputCopies (s : Parser) : List Copy :=
  match s.args[s.i]?, s.command s.length with
  | some (some ['>']), .ok c => if c.piped then [] else outputOperandCopies s
  | _, _ => []

def inputCopies (s : Parser) : List Copy :=
  match s.args[s.i]?, s.command s.length with
  | some (some ['<']), .ok c => if c.piped then [] else operandCopies s (s.i + 1)
  | _, _ => []

/-- The copies of the two redirections. -/
def redirectionCopies (s : Parser) : List Copy :=
  outputCopies s ++
    match outputRedirection s with
    | .error _ => []
    | .ok s => inputCopies s

/-- The copies behind the words of a command. -/
def endCopies (s : Parser) (token : CStr) : List Copy :=
  match addCommand s token >>= pipes with
  | .error _ => []
  | .ok s => redirectionCopies s

/-- The copies of one round. -/
def makeCmdvCopies (s : Parser) : List Copy :=
  match s.args[s.i]? with
  | some (some token) =>
      if startsSeparator token ∨ s.args[s.i + 1]? = some none then endCopies s token else []
  | _ => []

/-- A redirection and its operand. -/
def FileAt (args : List (Option CStr)) (i : Nat) : Prop :=
  args[i]? = some (some ['<']) ∧ (∃ file, args[i + 1]? = some (some file)) ∨
    args[i]? = some (some ['>']) ∧ ∃ file, args[i + 1]? = some (some file) ∧
      (file = ['>'] → ∃ file, args[i + 2]? = some (some file))

/-- The index is at a redirection that has its operand and a word before it. -/
def AtFile (s : Parser) : Prop := s.first < s.i ∧ FileAt s.args s.i

section

variable {s t u : Parser} {token : CStr} {c : Cmd}

private theorem fileCopy_overrun (file : CStr) : ¬ (fileCopy file).InBounds := by
  intro h
  have hwritten := h file.length (List.mem_range.mpr (Nat.lt_succ_self _))
  have hstring := (cString_isPrefix (file.drop 1)).length_le
  rw [List.length_drop] at hstring
  exact absurd hwritten (Nat.not_lt.mpr (hstring.trans (Nat.sub_le _ _)))

private theorem arg_ok_iff {i : Nat} {a : Option CStr} : s.arg i = .ok a ↔ s.args[i]? = some a := by
  rw [Parser.arg]
  cases s.args[i]? with
  | none => simp
  | some b => simp

private theorem assign_ok {j : Nat} (f : Cmd → Cmd) (hc : s.command j = .ok c) :
    ∃ t, s.assign j f = .ok t ∧ t.command j = .ok (f c) ∧ t.args = s.args ∧ t.i = s.i ∧
      t.length = s.length := by
  unfold Parser.command at hc
  unfold Parser.assign
  cases hj : s.commands j with
  | none =>
      rw [hj] at hc
      cases hc
  | some a =>
      rw [hj] at hc
      dsimp only at hc ⊢
      split at hc
      · cases hc
      · next d hd =>
          cases hc
          split
          · next hnone =>
              rw [hd] at hnone
              cases hnone
          · next d' hd' =>
              rw [hd] at hd'
              cases hd'
              refine ⟨_, rfl, ?_, rfl, rfl, rfl⟩
              simp [Parser.command, hj, Heap.set_cell]

private theorem connectInput_ok (hc : s.command s.length = .ok c) :
    ∃ t c', connectInput s = .ok t ∧ t.command t.length = .ok c' ∧ c'.piped = c.piped ∧
      t.args = s.args ∧ t.i = s.i := by
  rw [connectInput]
  split
  · obtain ⟨t, hok, hc', hargs, hi, hl⟩ := assign_ok (fun c => { c with input := 2 }) hc
    exact ⟨t, { c with input := 2 }, hok, hl ▸ hc', rfl, hargs, hi⟩
  · exact ⟨s, c, rfl, hc, rfl, rfl, rfl⟩

private theorem dropCommand_error (s : Parser) : ∃ e, dropCommand s = .error e := by
  rw [dropCommand]
  cases s.freeCmd s.length with
  | error e => exact ⟨e, rfl⟩
  | ok t => exact ⟨_, rfl⟩

private theorem pipes_bar (hc : s.command s.length = .ok c) (ha : s.args[s.i]? = some (some ['|']))
    (hu : pipes s = .ok u) : u.args[u.i]? = some (some ['|']) := by
  obtain ⟨t, c', hconnect, hc', -, hargs, hi⟩ := connectInput_ok hc
  have harg : t.arg t.i = .ok (some ['|']) := arg_ok_iff.mpr (by rw [hargs, hi, ha])
  obtain ⟨v, hassign, -, hargs', hi', -⟩ :=
    assign_ok (fun c => { c with out := 2, piped := true }) hc'
  rw [pipes, bind_of_ok hconnect, bind_of_ok harg, if_pos rfl, bind_of_ok hassign, pipeTarget] at hu
  cases hnext : ({ v with pipeNext := true } : Parser).arg (v.i + 1) with
  | error e =>
      rw [bind_of_error hnext] at hu
      cases hu
  | ok next =>
      rw [bind_of_ok hnext] at hu
      have hkept : u = { v with pipeNext := true } := by
        obtain ⟨e, he⟩ := dropCommand_error { v with pipeNext := true }
        cases next with
        | none =>
            dsimp only at hu
            rw [he] at hu
            cases hu
        | some token =>
            dsimp only at hu
            split at hu
            · rw [he] at hu
              cases hu
            · cases hu
              rfl
      subst hkept
      show v.args[v.i]? = _
      rw [hargs', hi', hargs, hi, ha]

private theorem pipes_other {a : Option CStr} (hc : s.command s.length = .ok c)
    (hp : c.piped = false) (ha : s.args[s.i]? = some a) (hbar : a ≠ some ['|']) :
    ∃ u c', pipes s = .ok u ∧ u.command u.length = .ok c' ∧ c'.piped = false ∧ u.args = s.args ∧
      u.i = s.i := by
  obtain ⟨t, c', hconnect, hc', hp', hargs, hi⟩ := connectInput_ok hc
  have harg : t.arg t.i = .ok a := arg_ok_iff.mpr (by rw [hargs, hi, ha])
  refine ⟨{ t with pipeNext := false }, c', ?_, hc', hp'.trans hp, hargs, hi⟩
  rw [pipes, bind_of_ok hconnect, bind_of_ok harg, if_neg hbar]
  rfl

/-- The words become the command, and their slots are cleared. -/
theorem addCommand_cases (s : Parser) (token : CStr) :
    let last := if startsSeparator token then sizePred s.i else s.i
    (¬ (s.first ≤ last ∧ last < s.args.length) ∧ ∃ e, addCommand s token = .error e) ∨
    (s.first ≤ last ∧ last < s.args.length ∧ ∃ t c, addCommand s token = .ok t ∧
      t.command t.length = .ok c ∧ c.piped = false ∧ t.i = s.i ∧
      (∀ k, s.first ≤ k → k ≤ last → t.args[k]? = some none) ∧
      ∀ k, last < k → t.args[k]? = s.args[k]?) := by
  intro last
  by_cases hvalid : s.first ≤ last ∧ last < s.args.length
  · obtain ⟨hfirst, hlast⟩ := hvalid
    have hmake : makeCmd s.args s.first last = .ok
        (newCmd ((s.args.drop s.first).take (last + 1 - s.first)),
          s.args.take s.first ++ List.replicate (last + 1 - s.first) none ++
            s.args.drop (last + 1)) := if_neg (by omega)
    have hcleared : (s.args.take s.first).length = s.first := by
      rw [List.length_take]
      omega
    refine .inr ⟨hfirst, hlast, _, newCmd ((s.args.drop s.first).take (last + 1 - s.first)),
      bind_of_ok hmake, ?_, rfl, rfl, fun k hk hkl => ?_, fun k hk => ?_⟩
    · simp [Parser.command, Heap.push_cell]
    · show (s.args.take s.first ++ List.replicate (last + 1 - s.first) none ++
        s.args.drop (last + 1))[k]? = _
      rw [List.getElem?_append_left (by simp [hcleared]; omega),
        List.getElem?_append_right (by omega), hcleared, List.getElem?_replicate,
        if_pos (by omega)]
    · show (s.args.take s.first ++ List.replicate (last + 1 - s.first) none ++
        s.args.drop (last + 1))[k]? = _
      rw [List.getElem?_append_right (by simp [hcleared]; omega), List.getElem?_drop]
      congr 1
      simp [hcleared]
      omega
  · have hmake : makeCmd s.args s.first last = .error (.stuck .fault) := if_pos (by omega)
    exact .inl ⟨hvalid, _, bind_of_error hmake⟩

private theorem operandCopies_nil {i : Nat} (h : ¬ ∃ file, s.args[i]? = some (some file)) :
    operandCopies s i = [] := by
  rw [operandCopies]
  split
  · exact absurd ⟨_, ‹_›⟩ h
  · rfl

private theorem mem_operandCopies {i : Nat} {file : CStr} (h : s.args[i]? = some (some file)) :
    fileCopy file ∈ operandCopies s i := by
  rw [operandCopies, h]
  exact List.mem_singleton_self _

private theorem fileAt_congr {args args' : List (Option CStr)} {i : Nat}
    (h : ∀ k, i ≤ k → args[k]? = args'[k]?) : FileAt args i ↔ FileAt args' i := by
  rw [FileAt, FileAt, h i (Nat.le_refl _), h (i + 1) (by omega), h (i + 2) (by omega)]

private theorem outputRedirection_error (ha : s.args[s.i]? = some (some ['>']))
    (hfile : ¬ FileAt s.args s.i) : ∃ e, outputRedirection s = .error e := by
  rw [outputRedirection, bind_of_ok (arg_ok_iff.mpr ha), if_pos rfl]
  cases hc : s.command s.length with
  | error e => exact ⟨e, rfl⟩
  | ok c =>
      rw [bind_of_ok rfl]
      split
      · exact ⟨_, rfl⟩
      · rw [outputOperand]
        cases hfirst : s.arg (s.i + 1) with
        | error e => exact ⟨e, rfl⟩
        | ok first =>
            rw [bind_of_ok rfl]
            cases first with
            | none => exact ⟨_, rfl⟩
            | some file =>
                dsimp only
                have hoperand := arg_ok_iff.mp hfirst
                have hgt : file = ['>'] := by
                  by_contra hf
                  exact hfile (.inr ⟨ha, file, hoperand, fun h => absurd h hf⟩)
                rw [if_pos hgt, appendOperand]
                cases hsecond : ({ s with i := s.i + 1 } : Parser).arg (s.i + 1 + 1) with
                | error e => exact ⟨e, rfl⟩
                | ok second =>
                    rw [bind_of_ok rfl]
                    cases second with
                    | none => exact ⟨_, rfl⟩
                    | some file' =>
                        exact absurd (.inr ⟨ha, file, hoperand, fun _ =>
                          ⟨file', arg_ok_iff.mp hsecond⟩⟩) hfile

private theorem not_fileAt {a : Option CStr} (ha : s.args[s.i]? = some a) (hin : a ≠ some ['<'])
    (hout : a ≠ some ['>']) : ¬ FileAt s.args s.i := by
  rintro (⟨h, -⟩ | ⟨h, -⟩)
  · rw [ha] at h
    exact hin (Option.some.inj h)
  · rw [ha] at h
    exact hout (Option.some.inj h)

private theorem pipes_away {a : Option CStr} (hc : s.command s.length = .ok c)
    (hp : c.piped = false)
    (ha : s.args[s.i]? = some a) (hfile : ¬ FileAt s.args s.i) (hu : pipes s = .ok u) :
    (∃ a, u.args[u.i]? = some a) ∧ ¬ FileAt u.args u.i := by
  by_cases hbar : a = some ['|']
  · have hsame := pipes_bar hc (hbar ▸ ha) hu
    exact ⟨⟨_, hsame⟩, not_fileAt hsame (by decide) (by decide)⟩
  · obtain ⟨v, c', hv, -, -, hargs, hi⟩ := pipes_other hc hp ha hbar
    rw [hu] at hv
    cases hv
    rw [hargs, hi]
    exact ⟨⟨a, ha⟩, hfile⟩

private theorem redirectionCopies_nil {a : Option CStr} (ha : u.args[u.i]? = some a)
    (hfile : ¬ FileAt u.args u.i) : redirectionCopies u = [] := by
  have hout : outputCopies u = [] := by
    rw [outputCopies]
    split
    · next hi hc =>
        split
        · rfl
        · rw [outputOperandCopies]
          split
          · next happend =>
              exact operandCopies_nil fun h => hfile (.inr ⟨hi, _, happend, fun _ => h⟩)
          · next happend =>
              apply operandCopies_nil
              rintro ⟨file, h⟩
              refine hfile (.inr ⟨hi, file, h, fun hf => ?_⟩)
              rw [hf] at h
              exact absurd h happend
    · rfl
  rw [redirectionCopies, hout, List.nil_append]
  by_cases hgt : a = some ['>']
  · subst hgt
    obtain ⟨e, he⟩ := outputRedirection_error ha hfile
    rw [he]
  · have hsame : outputRedirection u = .ok u := by
      rw [outputRedirection, bind_of_ok (arg_ok_iff.mpr ha), if_neg hgt]
      rfl
    rw [hsame]
    show inputCopies u = []
    rw [inputCopies]
    split
    · next hi hc =>
        split
        · rfl
        · exact operandCopies_nil fun h => hfile (.inl ⟨hi, h⟩)
    · rfl

private theorem redirectionCopies_file (hc : u.command u.length = .ok c) (hp : c.piped = false)
    (hfile : FileAt u.args u.i) : ∃ file, fileCopy file ∈ redirectionCopies u := by
  rw [redirectionCopies]
  rcases hfile with ⟨hi, file, hoperand⟩ | ⟨hi, file, hoperand, happend⟩
  · have hsame : outputRedirection u = .ok u := by
      rw [outputRedirection, bind_of_ok (arg_ok_iff.mpr hi), if_neg (by decide)]
      rfl
    refine ⟨file, List.mem_append_right _ ?_⟩
    rw [hsame]
    show fileCopy file ∈ inputCopies u
    simp only [inputCopies, hi, hc, hp]
    exact mem_operandCopies hoperand
  · have hout : outputCopies u = outputOperandCopies u := by
      simp only [outputCopies, hi, hc, hp]
      rfl
    rw [hout, outputOperandCopies]
    by_cases hf : file = ['>']
    · obtain ⟨file', hoperand'⟩ := happend hf
      rw [if_pos (hf ▸ hoperand)]
      exact ⟨file', List.mem_append_left _ (mem_operandCopies hoperand')⟩
    · rw [if_neg (by rw [hoperand]; simpa using hf)]
      exact ⟨file, List.mem_append_left _ (mem_operandCopies hoperand)⟩

private theorem sizePred_valid {n : Nat} (hn : n < sizeMax) (hi : s.i < n + 1) :
    s.first ≤ sizePred s.i ∧ sizePred s.i < n + 1 ↔ s.first < s.i := by
  rw [sizePred]
  split <;> omega

private theorem addCommand_away {n : Nat} (h : InRange n s) (hn : n < sizeMax)
    (htoken : s.args[s.i]? = some (some token)) (hfile : ¬ AtFile s)
    (ht : addCommand s token = .ok t) :
    ∃ c a, t.command t.length = .ok c ∧ c.piped = false ∧ t.args[t.i]? = some a ∧
      ¬ FileAt t.args t.i := by
  have hi := (List.getElem?_eq_some_iff.mp htoken).1
  rw [h.length] at hi
  have hcases := addCommand_cases s token
  obtain ⟨-, e, he⟩ | ⟨hfirst, hlast, v, c, hv, hc, hp, hti, hcleared, hkept⟩ := hcases
  · rw [ht] at he
    cases he
  · rw [ht] at hv
    cases hv
    rw [h.length] at hlast
    cases hsep : startsSeparator token with
    | true =>
        rw [hsep, if_pos rfl] at hfirst hlast hkept
        have hword := (sizePred_valid hn hi).mp ⟨hfirst, hlast⟩
        have hpred : sizePred s.i < s.i := by
          rw [sizePred, if_neg (by omega)]
          omega
        have hsame : ∀ k, s.i ≤ k → t.args[k]? = s.args[k]? := fun k hk => hkept k (by omega)
        refine ⟨c, some token, hc, hp, by rw [hti, hsame _ (Nat.le_refl _), htoken], fun hat => ?_⟩
        rw [hti, fileAt_congr hsame] at hat
        exact hfile ⟨hword, hat⟩
    | false =>
        rw [hsep, if_neg Bool.false_ne_true] at hfirst hcleared
        have hnull : t.args[t.i]? = some none := hti ▸ hcleared s.i hfirst (Nat.le_refl _)
        exact ⟨c, none, hc, hp, hnull, not_fileAt hnull (by simp) (by simp)⟩

private theorem makeCmdvCopies_nil {n : Nat} (h : InRange n s) (hn : n < sizeMax)
    (hfile : ¬ AtFile s) :
    makeCmdvCopies s = [] := by
  rw [makeCmdvCopies]
  split
  · next token htoken =>
      split
      · rw [endCopies]
        cases ht : addCommand s token with
        | error e => rw [bind_of_error rfl]
        | ok t =>
            rw [bind_of_ok rfl]
            obtain ⟨c, a, hc, hp, ha, haway⟩ := addCommand_away h hn htoken hfile ht
            cases hu : pipes t with
            | error e => rfl
            | ok u =>
                obtain ⟨⟨b, hb⟩, haway'⟩ := pipes_away hc hp ha haway hu
                exact redirectionCopies_nil hb haway'
      · rfl
  · rfl

private theorem makeCmdvCopies_file {n : Nat} (h : InRange n s) (hn : n < sizeMax)
    (hfile : AtFile s) :
    ∃ file, fileCopy file ∈ makeCmdvCopies s := by
  obtain ⟨hfirst, hat⟩ := hfile
  obtain ⟨token, htoken, hsep, hbar⟩ : ∃ token, s.args[s.i]? = some (some token) ∧
      startsSeparator token = true ∧ some token ≠ some ['|'] := by
    rcases hat with ⟨hi, -⟩ | ⟨hi, -⟩
    · exact ⟨_, hi, rfl, by decide⟩
    · exact ⟨_, hi, rfl, by decide⟩
  have hi := (List.getElem?_eq_some_iff.mp htoken).1
  rw [h.length] at hi
  have hvalid := (sizePred_valid hn hi).mpr hfirst
  have hlast := addCommand_cases s token
  rw [hsep, if_pos rfl, h.length] at hlast
  obtain ⟨hinvalid, -⟩ | ⟨-, -, t, c, ht, hc, hp, hti, -, hkept⟩ := hlast
  · exact absurd hvalid hinvalid
  · have hpred : sizePred s.i < s.i := by
      rw [sizePred, if_neg (by omega)]
      omega
    have hsame : ∀ k, s.i ≤ k → t.args[k]? = s.args[k]? := fun k hk => hkept k (by omega)
    obtain ⟨u, c', hu, hc', hp', hargs, hui⟩ :=
      pipes_other hc hp (by rw [hti, hsame _ (Nat.le_refl _), htoken]) hbar
    have hfile : FileAt u.args u.i := by
      rw [hargs, hui, hti]
      exact (fileAt_congr hsame).mpr hat
    obtain ⟨file, hmem⟩ := redirectionCopies_file hc' hp' hfile
    refine ⟨file, ?_⟩
    simp only [makeCmdvCopies, htoken, hsep, true_or, if_true, endCopies, bind_of_ok ht, hu]
    exact hmem

end

/-- `make_cmdv` before its first round. -/
def Parser.start (ts : List CStr) (heap : Heap Cmd) (commands : Nat → Ptr) : Parser :=
  ⟨ts.map some ++ [none], heap, commands, 0, 0, 0, false, []⟩

/-- The commands are made within the arrays. -/
def CommandsFit (ts : List CStr) (heap : Heap Cmd) (commands : Nat → Ptr) : Prop :=
  ∀ n s, roundAt makeCmdvStep n (.start ts heap commands) = some s →
    ∀ c ∈ makeCmdvCopies s, c.InBounds

private theorem commandsFit_iff {ts : List CStr} (hts : ts.length < sizeMax) (heap : Heap Cmd)
    (commands : Nat → Ptr) :
    CommandsFit ts heap commands ↔
      ∀ n s, roundAt makeCmdvStep n (.start ts heap commands) = some s → ¬ AtFile s := by
  refine rounds_iff (fun s hs => ?_) (fun s t hs _ ht => ?_) (InRange.start ts heap commands)
  · constructor
    · intro h hfile
      obtain ⟨file, hmem⟩ := makeCmdvCopies_file hs hts hfile
      exact fileCopy_overrun file (h _ hmem)
    · intro hfile c hc
      rw [makeCmdvCopies_nil hs hts hfile] at hc
      cases hc
  · have hstep := hs.step hts
    rw [ht] at hstep
    exact hstep

/-- The copies of the parser fit their arrays exactly if a line has nothing but blanks, and no round
over a vector is at a file name. -/
theorem copies_fit_iff (mem : Arena nul) (σ : Scope) (text behind : List Char) (hnul : nul ∉ text)
    (ts : List CStr) (hts : ts.length < sizeMax) (heap : Heap Cmd) (commands : Nat → Ptr) :
    (SplittedFits mem σ (text ++ nul :: behind) ∧ CommandsFit ts heap commands) ↔
      (∀ c ∈ text, isSpace c = true) ∧
        ∀ n s, roundAt makeCmdvStep n (.start ts heap commands) = some s → ¬ AtFile s :=
  and_congr (splittedFits_iff hnul) (commandsFit_iff hts heap commands)

/-- A line with a word and the name of a file, and its tokens. -/
theorem copies_fit_iff_file :
    ¬ (SplittedFits lengthBehind homeScope (['a', '>', ' ', 'b'] ++ nul :: []) ∧
      CommandsFit [['a'], ['>'], ['b']] (Heap.empty fun _ => true) fun _ => none) := by
  rw [copies_fit_iff lengthBehind homeScope ['a', '>', ' ', 'b'] [] (by decide)
    [['a'], ['>'], ['b']] (by decide)]
  exact fun h => absurd (h.1 'a' List.mem_cons_self) (by decide)

/-- The line `a`, and the tokens of `a > b`. -/
theorem copies_fit_fails :
    ¬ SplittedFits lengthBehind homeScope (['a'] ++ nul :: []) ∧
      ¬ CommandsFit [['a'], ['>'], ['b']] (Heap.empty fun _ => true) fun _ => none := by
  constructor
  · rw [splittedFits_iff (by decide)]
    simp [isSpace]
  · rw [commandsFit_iff (by decide)]
    intro h
    exact h 1 _ rfl ⟨Nat.zero_lt_one, .inr ⟨rfl, ['b'], rfl, fun hf => absurd hf (by decide)⟩⟩

end SyssoftLabs.Lab4
