import SyssoftLabs.Lab4.Parser.Wiring

/-!
# The ranges of the commands

`make_cmd` copies a range of the vector. In a vector that starts with a word every range lies
between two separators; a separator in front makes the first range end before the vector begins.
-/

namespace SyssoftLabs.Lab4

open SyssoftLabs.Framework

/-- The state of a phase that rejects the line. -/
def Rejects (R : Parser → Prop) : Halt → Prop
  | .returnFalse t => R t
  | .stuck _ => True

/-- The state of a phase, whether it goes on or rejects the line. -/
def Leaves (R : Parser → Prop) (phase : Except Halt Parser) : Prop :=
  Returns phase R (Rejects R)

section

variable {R : Parser → Prop} {α : Type} {k : Parser → Except Halt Parser} {s : Parser}

theorem Leaves.pure (h : R s) : Leaves R (Pure.pure s) := h

theorem Leaves.throw (h : R s) : Leaves R (MonadExcept.throw (Halt.returnFalse s)) := h

theorem Leaves.bind {phase : Except Halt Parser} (hphase : Leaves R phase)
    (hk : ∀ t, R t → Leaves R (k t)) : Leaves R (phase >>= k) :=
  Returns.bind hphase hk

theorem Leaves.read {x : Except Halt α} {k : α → Except Halt Parser}
    (hx : ∀ e, x = .error e → ∃ f, e = .stuck f) (hk : ∀ a, x = .ok a → Leaves R (k a)) :
    Leaves R (x >>= k) := by
  cases x with
  | ok a => exact hk a rfl
  | error e =>
      obtain ⟨f, rfl⟩ := hx e rfl
      trivial

private theorem arg_error {i : Nat} {e : Halt} (h : s.arg i = .error e) : ∃ f, e = .stuck f := by
  unfold Parser.arg at h
  split at h <;> cases h
  exact ⟨_, rfl⟩

private theorem command_error {j : Nat} {e : Halt} (h : s.command j = .error e) :
    ∃ f, e = .stuck f := by
  unfold Parser.command at h
  split at h
  · cases h
    exact ⟨_, rfl⟩
  · split at h <;> cases h
    exact ⟨_, rfl⟩

end

/-! ## The phases that only fill in the command -/

/-- A state with this vector and these calls. -/
def Fixed (args : List (Option CStr)) (calls : List (Nat × Nat)) (s : Parser) : Prop :=
  s.args = args ∧ s.calls = calls

section

variable {args : List (Option CStr)} {calls : List (Nat × Nat)} {s : Parser}

theorem Fixed.assign (h : Fixed args calls s) (j : Nat) (f : Cmd → Cmd) :
    Leaves (Fixed args calls) (s.assign j f) := by
  unfold Parser.assign
  split
  · trivial
  · split
    · trivial
    · exact h

theorem Fixed.connectInput (h : Fixed args calls s) :
    Leaves (Fixed args calls) (connectInput s) := by
  unfold Lab4.connectInput
  split
  · exact h.assign _ _
  · exact h

theorem Fixed.dropCommand (h : Fixed args calls s) : Leaves (Fixed args calls) (dropCommand s) := by
  unfold Lab4.dropCommand
  refine Leaves.bind (R := Fixed args calls) ?_ fun t ht => Leaves.throw ht
  unfold Parser.freeCmd
  split
  · trivial
  · split
    · trivial
    · exact h

theorem Fixed.pipeTarget (h : Fixed args calls s) : Leaves (Fixed args calls) (pipeTarget s) := by
  unfold Lab4.pipeTarget
  refine Leaves.read (fun e => arg_error) fun token _ => ?_
  split
  · exact h.dropCommand
  · split
    · exact h.dropCommand
    · exact Leaves.pure h

theorem Fixed.pipes (h : Fixed args calls s) : Leaves (Fixed args calls) (pipes s) := by
  unfold Lab4.pipes
  refine Leaves.bind h.connectInput fun t ht => Leaves.read (fun e => arg_error) fun token _ => ?_
  split
  · refine Leaves.bind (ht.assign _ _) fun u hu => ?_
    exact Fixed.pipeTarget (s := { u with pipeNext := true }) hu
  · exact Leaves.pure ht

theorem Fixed.operand (h : Fixed args calls s) (i : Nat) (f : CStr → Cmd → Cmd) :
    Leaves (Fixed args calls) (do
      match ← s.arg (i + 1) with
      | none => throw (.returnFalse s)
      | some file =>
          let s ← s.assign s.length (f file)
          return { s with i := s.i + 2 }) := by
  refine Leaves.read (fun e => arg_error) fun token _ => ?_
  split
  · exact Leaves.throw h
  · exact Leaves.bind (h.assign _ _) fun t ht => Leaves.pure ht

theorem Fixed.outputRedirection (h : Fixed args calls s) :
    Leaves (Fixed args calls) (outputRedirection s) := by
  unfold Lab4.outputRedirection
  refine Leaves.read (fun e => arg_error) fun token _ => ?_
  split
  · refine Leaves.read (fun e => command_error) fun c _ => ?_
    split
    · exact Leaves.throw h
    · unfold outputOperand
      refine Leaves.read (fun e => arg_error) fun token _ => ?_
      split
      · exact Leaves.throw h
      · split
        · exact Fixed.operand (s := { s with i := s.i + 1 }) h _ _
        · exact Leaves.bind (h.assign _ _) fun t ht => Leaves.pure ht
  · exact Leaves.pure h

theorem Fixed.inputRedirection (h : Fixed args calls s) :
    Leaves (Fixed args calls) (inputRedirection s) := by
  unfold Lab4.inputRedirection
  refine Leaves.read (fun e => arg_error) fun token _ => ?_
  split
  · refine Leaves.read (fun e => command_error) fun c _ => ?_
    split
    · exact Leaves.throw h
    · exact h.operand _ _
  · exact Leaves.pure h

theorem Fixed.background (h : Fixed args calls s) : Leaves (Fixed args calls) (background s) := by
  unfold Lab4.background
  refine Leaves.read (fun e => arg_error) fun token _ => ?_
  split
  · refine Leaves.bind (h.assign _ _) fun t ht => ?_
    split
    · exact Leaves.pure ht
    · refine Returns.loop (fun p : Parser × Nat => Fixed args calls p.1) ?_ ?_ ht
      · trivial
      · rintro ⟨u, j⟩ hu
        refine Returns.bind (x := u.command j) (Q := fun _ => True) ?_ fun c _ => ?_
        · cases hc : u.command j with
          | error e =>
              obtain ⟨f, rfl⟩ := command_error hc
              trivial
          | ok c => trivial
        · split
          · exact Returns.bind (Fixed.assign hu j _) fun v hv => hv
          · exact hu
  · exact Leaves.pure h

theorem Fixed.skipSeparators (h : Fixed args calls s) :
    Leaves (Fixed args calls) (skipSeparators s) := by
  unfold Lab4.skipSeparators
  refine Leaves.read (fun e he => ?_) fun found _ => Leaves.pure h
  generalize s.args.drop s.i = rest at he
  induction rest with
  | nil =>
      cases he
      exact ⟨_, rfl⟩
  | cons token rest ih =>
      cases token with
      | none => cases he
      | some token =>
          rw [nextWord] at he
          split at he
          · cases hn : nextWord rest with
            | error e' =>
                rw [bind_of_error hn] at he
                cases he
                exact ih hn
            | ok found =>
                rw [bind_of_ok hn] at he
                cases he
          · cases he

theorem Fixed.finishCommand (h : Fixed args calls s) :
    Leaves (Fixed args calls) (finishCommand s) := by
  unfold Lab4.finishCommand
  exact h.outputRedirection.bind fun t ht => ht.inputRedirection.bind fun u hu =>
    hu.background.bind fun v hv => Fixed.skipSeparators hv

end

/-! ## The ranges -/

/-- The vector still has its `NULL` behind its `n` slots, and all ranges lay inside it. -/
structure InRange (n : Nat) (s : Parser) : Prop where
  length : s.args.length = n + 1
  null : s.args[n]? = some none
  calls : ∀ r ∈ s.calls, r.1 ≤ r.2 ∧ r.2 < n

private theorem InRange.of_fixed {n : Nat} {s t : Parser} (h : InRange n s)
    (ht : Fixed s.args s.calls t) : InRange n t := by
  obtain ⟨hargs, hcalls⟩ := ht
  exact ⟨hargs ▸ h.length, hargs ▸ h.null, hcalls ▸ h.calls⟩

theorem InRange.addCommand {n : Nat} {s : Parser} {token : CStr} (h : InRange n s)
    (hn : n < sizeMax) (htoken : s.args[s.i]? = some (some token)) :
    Leaves (InRange n) (addCommand s token) := by
  have hlen := h.length
  have hi : s.i < n := by
    have hlt := (List.getElem?_eq_some_iff.mp htoken).1
    have hne : s.i ≠ n := by
      intro he
      rw [he, h.null] at htoken
      cases htoken
    omega
  have hlast : ∀ last, last = (if startsSeparator token then sizePred s.i else s.i) →
      ¬ s.args.length ≤ last → last < n := by
    intro last hl hle
    split at hl
    · unfold sizePred at hl
      split at hl <;> omega
    · omega
  unfold Lab4.addCommand
  generalize hl : (if startsSeparator token then sizePred s.i else s.i) = last
  refine Returns.bind (Q := fun r => s.first ≤ last ∧ last < n ∧ r.2.length = n + 1 ∧
    r.2[n]? = some none) ?_ fun r hr => ?_
  · unfold makeCmd
    split
    · trivial
    · next hvalid =>
        rw [not_or] at hvalid
        have hlt := hlast last hl.symm hvalid.2
        refine ⟨by omega, hlt, ?_, ?_⟩
        · simp
          omega
        · rw [List.getElem?_append_right (by simp; omega), List.getElem?_drop]
          have hidx : last + 1 + (n - (s.args.take s.first ++
              List.replicate (last + 1 - s.first) none).length) = n := by
            simp
            omega
          rw [hidx, h.null]
  · obtain ⟨hle, hlt, hlength, hnull⟩ := hr
    refine ⟨hlength, hnull, fun q hq => ?_⟩
    rcases List.mem_append.mp hq with hq | hq
    · exact h.calls q hq
    · cases List.mem_singleton.mp hq
      exact ⟨hle, hlt⟩

theorem InRange.endCommand {n : Nat} {s : Parser} {token : CStr} (h : InRange n s)
    (hn : n < sizeMax) (htoken : s.args[s.i]? = some (some token)) :
    Leaves (InRange n) (endCommand s token) := by
  have hfixed : ∀ {t : Parser} {phase : Except Halt Parser}, InRange n t →
      Leaves (Fixed t.args t.calls) phase → Leaves (InRange n) phase := by
    intro t phase ht hphase
    cases phase with
    | ok u => exact ht.of_fixed hphase
    | error e =>
        cases e with
        | returnFalse u => exact ht.of_fixed hphase
        | stuck f => trivial
  unfold Lab4.endCommand
  refine (h.addCommand hn htoken).bind fun t ht => ?_
  refine (hfixed ht (Fixed.pipes ⟨rfl, rfl⟩)).bind fun u hu => ?_
  exact hfixed hu (Fixed.finishCommand ⟨rfl, rfl⟩)

theorem InRange.step {n : Nat} {s : Parser} (h : InRange n s) (hn : n < sizeMax) :
    Returns (makeCmdvStep s) (Sum.elim (InRange n) (InRange n)) (Rejects (InRange n)) := by
  have harg : ∀ i, Returns (s.arg i) (fun a => s.args[i]? = some a) (Rejects (InRange n)) := by
    intro i
    unfold Parser.arg
    cases hi : s.args[i]? with
    | none => trivial
    | some a => rfl
  unfold makeCmdvStep
  refine Returns.bind (harg s.i) fun token htoken => ?_
  cases token with
  | none => exact h
  | some token =>
      have hend : Returns (Lab4.endCommand s token >>= fun t => Pure.pure (Sum.inl t))
          (Sum.elim (InRange n) (InRange n)) (Rejects (InRange n)) :=
        Returns.bind (h.endCommand hn htoken) fun t ht => ht
      dsimp only
      split
      · exact hend
      · have hnext := harg (s.i + 1)
        cases ha : s.arg (s.i + 1) with
        | error e =>
            rw [ha] at hnext
            exact hnext
        | ok next =>
            cases next with
            | none => exact hend
            | some token => exact ⟨h.length, h.null, h.calls⟩

theorem InRange.start (ts : List CStr) (heap : Heap Cmd) (commands : Nat → Ptr) :
    InRange ts.length ⟨ts.map some ++ [none], heap, commands, 0, 0, 0, false, []⟩ := by
  refine ⟨by simp, ?_, fun r hr => absurd hr List.not_mem_nil⟩
  rw [List.getElem?_append_right (by simp)]
  simp

private theorem makeCmdv_inRange {ts : List CStr} {heap : Heap Cmd} {commands : Nat → Ptr}
    {b : Bool} {t : Parser} (hn : ts.length < sizeMax)
    (h : makeCmdv (ts.map some ++ [none]) heap commands = .ok (b, t)) :
    ∀ r ∈ t.calls, r.1 ≤ r.2 ∧ r.2 < ts.length := by
  have hrun : Leaves (InRange ts.length) (loop makeCmdvStep (.stuck .unfinished) (ts.length + 2)
      ⟨ts.map some ++ [none], heap, commands, 0, 0, 0, false, []⟩) :=
    Returns.loop (InRange ts.length) trivial (fun s hs => hs.step hn) (.start ts heap commands)
  rw [makeCmdv, List.length_append, List.length_map, List.length_singleton] at h
  split at h
  · next s hs =>
      cases h
      rw [hs] at hrun
      exact hrun.calls
  · next s hs =>
      cases h
      rw [hs] at hrun
      exact hrun.calls
  · cases h

/-! ## The vectors of `get_splitted` -/

private theorem put_ok {mem : Arena nul} {vec : List CStr} {item : CStr} {out : List (Option CStr)}
    (h : put mem (vec.map some ++ [none]) item = .ok out) :
    vec.length < argsSize ∧ out = (vec ++ [copied mem item]).map some ++ [none] := by
  by_cases hroom : vec.length < argsSize
  · rw [put_room mem item hroom] at h
    cases h
    exact ⟨hroom, rfl⟩
  · have hi : vec.length ≤ (vec.map some ++ [none]).findIdx Option.isNone := by
      apply List.le_findIdx_of_not (by simp)
      intro j hj
      rw [List.getElem_append_left (by simpa using hj)]
      simp
    rw [put, if_pos (by omega)] at h
    cases h

/-- A vector with room for its `NULL`. -/
def TokenVector (args : List (Option CStr)) : Prop :=
  ∃ ts : List CStr, args = ts.map some ++ [none] ∧ ts.length ≤ argsSize

theorem TokenVector.splitStep {mem : Arena nul} {line : CStr} {args : List (Option CStr)}
    (h : TokenVector args) :
    Returns (splitStep mem (line, args)) (Sum.elim (fun s => TokenVector s.2) TokenVector)
      fun _ => True := by
  obtain ⟨ts, rfl, hts⟩ := h
  have hstep : Lab4.splitStep mem (line, ts.map some ++ [none]) =
      if line = [] ∨ skipSpaces line = [] then .ok (.inr (ts.map some ++ [none]))
      else put mem (ts.map some ++ [none]) (getArg (skipSpaces line)) >>= fun args =>
        pure (.inl ((skipSpaces line).drop (getArg (skipSpaces line)).length, args)) := by
    by_cases hline : line = []
    · simp [Lab4.splitStep, hline]
    · by_cases hskip : skipSpaces line = []
      · simp [Lab4.splitStep, hline, hskip]
      · simp [Lab4.splitStep, hline, hskip]
  rw [hstep]
  by_cases hend : line = [] ∨ skipSpaces line = []
  · rw [if_pos hend]
    exact ⟨ts, rfl, hts⟩
  · rw [if_neg hend]
    refine Returns.bind (Q := TokenVector) ?_ fun args hargs => hargs
    cases hp : put mem (ts.map some ++ [none]) (getArg (skipSpaces line)) with
    | error e => trivial
    | ok out =>
        obtain ⟨hroom, rfl⟩ := put_ok hp
        refine ⟨_, rfl, ?_⟩
        rw [List.length_append]
        exact hroom

private theorem getSplitted_vector {mem : Arena nul} {σ : Scope} {fuel : Nat} {line : List Char}
    {args : List (Option CStr)} (h : getSplitted mem σ fuel line = .ok args) :
    TokenVector args := by
  unfold getSplitted at h
  cases he : expand σ fuel line with
  | error e =>
      rw [bind_of_error he] at h
      cases h
  | ok out =>
      rw [bind_of_ok he] at h
      have hrun : Returns (loop (Lab4.splitStep mem) .unfinished (out.length + 1)
          (cString out, [none])) TokenVector fun _ => True :=
        Returns.loop (fun s => TokenVector s.2) trivial (fun s hs => hs.splitStep)
          ⟨[], rfl, by decide⟩
      rw [h] at hrun
      exact hrun

private theorem makeCmdv_returns (ts : List CStr) (heap : Heap Cmd) (commands : Nat → Ptr)
    (hword : ∀ u, ts.head? = some u → isWord u = true) :
    ∃ b t, makeCmdv (ts.map some ++ [none]) heap (Function.update commands 0 none) =
      .ok (b, t) := by
  have hrun := makeCmdv_parse ts heap (Function.update commands 0 none) hword
    (Function.update_self ..)
  cases hp : parse false ts with
  | mk verdict parts =>
      rw [hp] at hrun
      cases verdict with
      | accepted => exact ⟨true, hrun.choose, hrun.choose_spec.1⟩
      | dropped => exact ⟨false, hrun.choose, hrun.choose_spec.1⟩
      | dangling => exact ⟨false, hrun.choose, hrun.choose_spec.choose_spec.1⟩

/-- `make_cmdv` comes to an end, and every range it copied lies in front of the `NULL`. -/
def RangesValid (args : List (Option CStr)) (heap : Heap Cmd) (commands : Nat → Ptr) : Prop :=
  ∃ b t, makeCmdv args heap commands = .ok (b, t) ∧
    ∀ r ∈ t.calls, r.1 ≤ r.2 ∧ r.2 + 1 < args.length

private theorem makeCmdv_separator (ts : List CStr) (token : CStr) (heap : Heap Cmd)
    (commands : Nat → Ptr) (hsep : startsSeparator token = true) (hn : ts.length + 1 < sizeMax) :
    makeCmdv ((token :: ts).map some ++ [none]) heap commands = .error .fault := by
  let s : Parser := ⟨(token :: ts).map some ++ [none], heap, commands, 0, 0, 0, false, []⟩
  have hmake : makeCmd s.args 0 sizeMax = .error (.stuck .fault) := by
    unfold makeCmd
    rw [if_pos]
    right
    simp [s]
    omega
  have hadd : addCommand s token = .error (.stuck .fault) := by
    unfold addCommand
    rw [if_pos hsep]
    exact bind_of_error hmake
  have hstep : makeCmdvStep s = .error (.stuck .fault) := by
    have hend : endCommand s token = .error (.stuck .fault) := bind_of_error hadd
    rw [makeCmdvStep_separator (show s.arg s.i = .ok (some token) from rfl) hsep, hend]
    rfl
  have hloop : loop makeCmdvStep (.stuck .unfinished)
      (((token :: ts).map some ++ [none]).length + 1) s = .error (.stuck .fault) :=
    loop_fail hstep
  rw [makeCmdv, hloop]

/-- On the tokens of a line the ranges are valid exactly when the first token is no separator. -/
theorem ranges_valid_iff {mem : Arena nul} {σ : Scope} {fuel : Nat} {line : List Char}
    {args : List (Option CStr)} (h : getSplitted mem σ fuel line = .ok args)
    (heap : Heap Cmd) (commands : Nat → Ptr) :
    RangesValid args heap (Function.update commands 0 none) ↔
      ∀ token, args.head? = some (some token) → startsSeparator token = false := by
  obtain ⟨ts, rfl, hts⟩ := getSplitted_vector h
  have hn : ts.length < sizeMax := Nat.lt_of_le_of_lt hts (by decide)
  constructor
  · rintro ⟨b, t, hok, -⟩ token htoken
    by_contra hsep
    cases ts with
    | nil => cases htoken
    | cons u ts =>
        cases htoken
        rw [makeCmdv_separator ts token heap _ (by simpa using hsep) hn] at hok
        cases hok
  · intro hword
    have hstarts : ∀ u, ts.head? = some u → isWord u = true := by
      intro u hu
      have := hword u (by
        cases ts with
        | nil => cases hu
        | cons v ts =>
            cases hu
            rfl)
      simp [isWord, this]
    obtain ⟨b, t, hok⟩ := makeCmdv_returns ts heap commands hstarts
    refine ⟨b, t, hok, fun r hr => ?_⟩
    have hrange := makeCmdv_inRange hn hok r hr
    rw [List.length_append, List.length_map, List.length_singleton]
    omega

/-- A scope without variables. -/
def emptyScope : Scope := ⟨[], fun _ => none⟩

theorem ranges_valid_iff_twoStages :
    RangesValid [some ['a'], some ['|'], some ['b'], none] (Heap.empty fun _ => true)
        (Function.update (fun _ => none) 0 none) ↔
      ∀ token, [some ['a'], some ['|'], some ['b'], none].head? = some (some token) →
        startsSeparator token = false :=
  ranges_valid_iff (show getSplitted lengthBehind emptyScope 4 ['a', '|', 'b', nul] = _ from rfl)
    (Heap.empty fun _ => true) fun _ => none

/-- The line `;`. -/
theorem ranges_valid_fails :
    ¬ ∀ (mem : Arena nul) (σ : Scope) (fuel : Nat) (line : List Char)
        (args : List (Option CStr)), getSplitted mem σ fuel line = .ok args →
      ∀ (heap : Heap Cmd) (commands : Nat → Ptr),
        RangesValid args heap (Function.update commands 0 none) := by
  intro h
  obtain ⟨b, t, hok, -⟩ := h lengthBehind emptyScope 2 [';', nul] [some [';'], none] rfl
    (Heap.empty fun _ => true) fun _ => none
  have hstuck := makeCmdv_separator [] [';'] (Heap.empty fun _ => true)
    (Function.update (fun _ => none) 0 none) rfl (by decide)
  rw [List.map_singleton, List.singleton_append, hok] at hstuck
  cases hstuck

end SyssoftLabs.Lab4
