import SyssoftLabs.Lab4.Parser.Rounds

/-!
# The loop computes the rounds

The commands array of `make_cmdv` against the parts of the vector: in every round the array holds
the commands so far at consecutive fresh addresses, and behind them what it held before.
-/

namespace SyssoftLabs.Lab4

open SyssoftLabs.Framework

section

variable {base : Nat} {cell₀ : Nat → Option Cmd} {old : Nat → Ptr}

/-- The array holds `cmds` at the addresses from `base` on, and `old` behind them. -/
structure Contents (base : Nat) (cell₀ : Nat → Option Cmd) (old : Nat → Ptr) (heap : Heap Cmd)
    (commands : Nat → Ptr) (cmds : List Cmd) : Prop where
  commands : ∀ j, commands j = if j < cmds.length then some (base + j) else old j
  cell : ∀ a, heap.cell a = if a < base then cell₀ a else cmds[a - base]?

/-- The next command goes behind the others. -/
structure Memory (base : Nat) (cell₀ : Nat → Option Cmd) (old : Nat → Ptr) (heap : Heap Cmd)
    (commands : Nat → Ptr) (cmds : List Cmd) : Prop
    extends Contents base cell₀ old heap commands cmds where
  fresh : heap.fresh = base + cmds.length

theorem Contents.slot {heap : Heap Cmd} {commands : Nat → Ptr} {cmds : List Cmd} {j : Nat} {c : Cmd}
    (hm : Contents base cell₀ old heap commands cmds) (hj : cmds[j]? = some c) :
    commands j = some (base + j) ∧ heap.cell (base + j) = some c := by
  obtain ⟨hlt, rfl⟩ := List.getElem?_eq_some_iff.mp hj
  constructor
  · rw [hm.commands, if_pos hlt]
  · rw [hm.cell, if_neg (by omega), Nat.add_sub_cancel_left, hj]

theorem Memory.set {heap : Heap Cmd} {commands : Nat → Ptr} {cmds : List Cmd} {j : Nat} {c : Cmd}
    (hm : Memory base cell₀ old heap commands cmds) (hj : j < cmds.length)
    (ha : heap.cell (base + j) ≠ none) :
    Memory base cell₀ old (heap.set (base + j) c ha) commands (cmds.set j c) := by
  refine ⟨⟨?_, ?_⟩, ?_⟩
  · intro k
    rw [hm.commands, List.length_set]
  · intro a
    rw [Heap.set_cell, hm.cell]
    by_cases hlt : a < base
    · rw [if_neg (by omega), if_pos hlt, if_pos hlt]
    · rw [if_neg hlt, if_neg hlt, List.getElem?_set]
      by_cases he : a = base + j
      · rw [if_pos he, if_pos (by omega), if_pos hj]
      · rw [if_neg he, if_neg (by omega)]
  · rw [Heap.set_fresh, hm.fresh, List.length_set]

theorem Memory.push {heap : Heap Cmd} {commands : Nat → Ptr} {cmds : List Cmd} {n : Nat} (c : Cmd)
    (hm : Memory base cell₀ old heap commands cmds) (hn : n = cmds.length) :
    Memory base cell₀ old (heap.push c) (Function.update commands n (some heap.fresh))
      (cmds ++ [c]) := by
  subst hn
  refine ⟨⟨?_, ?_⟩, ?_⟩
  · intro k
    rw [Function.update_apply, hm.commands, List.length_append, List.length_singleton, hm.fresh]
    grind
  · intro a
    rw [Heap.push_cell, hm.cell, hm.fresh]
    by_cases he : a = base + cmds.length
    · subst he
      rw [if_pos rfl, if_neg (by omega), Nat.add_sub_cancel_left, List.getElem?_concat_length]
    · rw [if_neg he]
      by_cases hlt : a < base
      · rw [if_pos hlt, if_pos hlt]
      · rw [if_neg hlt, if_neg hlt]
        grind
  · simp only [Heap.push, hm.fresh, List.length_append, List.length_singleton]
    omega

theorem Memory.congr {heap : Heap Cmd} {commands : Nat → Ptr} {cmds : List Cmd}
    {old' : Nat → Ptr} (hm : Memory base cell₀ old heap commands cmds)
    (ho : ∀ j, cmds.length ≤ j → old j = old' j) : Memory base cell₀ old' heap commands cmds := by
  refine ⟨⟨?_, hm.cell⟩, hm.fresh⟩
  intro j
  rw [hm.commands]
  by_cases hj : j < cmds.length
  · rw [if_pos hj, if_pos hj]
  · rw [if_neg hj, if_neg hj, ho j (by omega)]

private theorem command_memory {s : Parser} {cmds : List Cmd} {j : Nat} {c : Cmd}
    (hm : Memory base cell₀ old s.heap s.commands cmds) (hj : cmds[j]? = some c) :
    s.command j = .ok c := by
  obtain ⟨hp, hc⟩ := hm.slot hj
  simp only [Parser.command, hp, hc]

private theorem assign_memory {s : Parser} {cmds : List Cmd} {j : Nat} {c : Cmd} (f : Cmd → Cmd)
    (hm : Memory base cell₀ old s.heap s.commands cmds) (hj : cmds[j]? = some c) :
    ∃ heap, s.assign j f = .ok { s with heap := heap } ∧
      Memory base cell₀ old heap s.commands (cmds.set j (f c)) := by
  obtain ⟨hp, hc⟩ := hm.slot hj
  have hlt := (List.getElem?_eq_some_iff.mp hj).1
  refine ⟨s.heap.set (base + j) (f c) (by simp [hc]), ?_, hm.set hlt _⟩
  simp only [Parser.assign, hp]
  split
  · next hn => rw [hc] at hn; cases hn
  · next c' hc' =>
      rw [hc] at hc'
      cases hc'
      rfl

private theorem arg_drop {s : Parser} {i : Nat} {a : Option CStr} {tail : List (Option CStr)}
    (h : s.args.drop i = a :: tail) : s.arg i = .ok a := by
  have : s.args[i]? = some a := by
    rw [← Nat.add_zero i, ← List.getElem?_drop, h]
    rfl
  simp only [Parser.arg, this]

/-- In the middle of a round: `c` is under construction behind `done`, and the tokens `cur` of the
`total` ones are left. -/
structure Working (base : Nat) (cell₀ : Nat → Option Cmd) (old : Nat → Ptr) (total : Nat)
    (s : Parser) (done : List Cmd) (c : Cmd) (cur : List CStr) : Prop where
  memory : Memory base cell₀ old s.heap s.commands (done ++ [c])
  length : s.length = done.length
  args : ∃ tail, s.args.drop s.i = cur.map some ++ none :: tail
  total : cur ≠ [] → s.i + cur.length = total

/-- What a phase of the round does not touch. -/
def SameRound (s t : Parser) : Prop := t.args = s.args ∧ t.calls = s.calls

variable {total : Nat} {s : Parser} {done : List Cmd} {c : Cmd} {cur : List CStr}

theorem Working.current (hs : Working base cell₀ old total s done c cur) :
    (done ++ [c])[s.length]? = some c := by
  rw [hs.length, List.getElem?_concat_length]

theorem Working.assign (hs : Working base cell₀ old total s done c cur) (f : Cmd → Cmd) :
    ∃ t, s.assign s.length f = .ok t ∧ t.i = s.i ∧ t.pipeNext = s.pipeNext ∧ SameRound s t ∧
      Working base cell₀ old total t done (f c) cur := by
  obtain ⟨heap, hassign, hm⟩ := assign_memory f hs.memory hs.current
  refine ⟨_, hassign, rfl, rfl, ⟨rfl, rfl⟩, ?_, hs.length, hs.args, hs.total⟩
  rw [hs.length, List.set_append_right _ _ (Nat.le_refl _), Nat.sub_self] at hm
  exact hm

theorem Working.arg (hs : Working base cell₀ old total s done c cur) {k : Nat}
    (hk : k ≤ cur.length) : s.arg (s.i + k) = .ok cur[k]? := by
  obtain ⟨tail, htail⟩ := hs.args
  have h : s.args.drop (s.i + k) = (cur.drop k).map some ++ none :: tail := by
    rw [← List.drop_drop, htail, List.drop_append_of_le_length (by simpa using hk), List.map_drop]
  cases hc : cur.drop k with
  | nil =>
      rw [hc] at h
      rw [arg_drop h, List.getElem?_eq_none (List.drop_eq_nil_iff.mp hc)]
  | cons t ts =>
      rw [hc] at h
      rw [arg_drop h, ← List.head?_drop, hc, List.head?_cons]

private theorem Working.arg_here (hs : Working base cell₀ old total s done c cur) :
    s.arg s.i = .ok cur.head? := by
  have h := hs.arg (Nat.zero_le _)
  rwa [Nat.add_zero, ← List.head?_eq_getElem?] at h

theorem Working.advance {t : Parser} {k : Nat} (hs : Working base cell₀ old total s done c cur)
    (hk : k ≤ cur.length) (hi : t = { s with i := s.i + k }) :
    Working base cell₀ old total t done c (cur.drop k) := by
  subst hi
  obtain ⟨tail, htail⟩ := hs.args
  refine ⟨hs.memory, hs.length, ⟨tail, ?_⟩, ?_⟩
  · rw [← List.drop_drop, htail, List.drop_append_of_le_length (by simpa using hk), List.map_drop]
  · intro hne
    have hcur : cur ≠ [] := by
      intro h
      exact hne (by rw [h, List.drop_nil])
    rw [← hs.total hcur, List.length_drop]
    show s.i + k + (cur.length - k) = _
    omega

/-- A phase of the round that goes on with the command `c'` and the tokens `cur'`, or returns false
with some command in the slot. -/
def Computes (base : Nat) (cell₀ : Nat → Option Cmd) (old : Nat → Ptr) (total : Nat) (s : Parser)
    (done : List Cmd) (phase : Except Halt Parser) : Option (Cmd × List CStr) → Prop
  | none => ∃ t c, phase = .error (.returnFalse t) ∧ SameRound s t ∧
      Memory base cell₀ old t.heap t.commands (done ++ [c])
  | some (c, cur) => ∃ t, phase = .ok t ∧ SameRound s t ∧ t.pipeNext = s.pipeNext ∧
      Working base cell₀ old total t done c cur

private theorem appendOperand_working (hs : Working base cell₀ old total s done c (['>'] :: cur)) :
    Computes base cell₀ old total s done (appendOperand s)
      (appendFile c cur) := by
  have harg := hs.arg (k := 1) (by simp)
  cases cur with
  | nil =>
      refine ⟨s, c, ?_, ⟨rfl, rfl⟩, hs.memory⟩
      rw [appendOperand, bind_of_ok harg]
      rfl
  | cons file cur =>
      obtain ⟨t, hassign, hi, hn, hsame, ht⟩ := hs.assign fun c =>
        { c with rappend := true, redirect := true, rfilename := some file }
      refine ⟨{ t with i := t.i + 2 }, ?_, hsame, hn,
        ht.advance (k := 2) (by simp) rfl⟩
      rw [appendOperand, bind_of_ok harg]
      show (s.assign s.length _ >>= _) = _
      rw [bind_of_ok hassign]
      rfl

private theorem outputOperand_working (hs : Working base cell₀ old total s done c (['>'] :: cur)) :
    Computes base cell₀ old total s done (outputOperand s) (outputFile c cur) := by
  have harg := hs.arg (k := 1) (by simp)
  cases cur with
  | nil =>
      refine ⟨s, c, ?_, ⟨rfl, rfl⟩, hs.memory⟩
      rw [outputOperand, bind_of_ok harg]
      rfl
  | cons file cur =>
      rw [outputOperand, bind_of_ok harg]
      by_cases hf : file = ['>']
      · subst hf
        rw [outputFile, if_pos rfl]
        show Computes base cell₀ old total s done (if ['>'] = ['>'] then appendOperand _ else _) _
        rw [if_pos rfl]
        exact appendOperand_working (hs.advance (k := 1) (by simp) rfl)
      · obtain ⟨t, hassign, hi, hn, hsame, ht⟩ := hs.assign fun c =>
          { c with redirect := true, rfilename := some file }
        simp only [outputFile, if_neg hf]
        refine ⟨{ t with i := t.i + 2 }, ?_, hsame, hn,
          ht.advance (k := 2) (by simp) rfl⟩
        show (if file = ['>'] then _ else s.assign s.length _ >>= _) = _
        rw [if_neg hf, bind_of_ok hassign]
        rfl

private theorem outputRedirection_working (hs : Working base cell₀ old total s done c cur)
    (hp : cur.head? = some ['>'] → c.piped = false) :
    Computes base cell₀ old total s done (outputRedirection s) (redirectOutput c cur) := by
  have hcmd := command_memory hs.memory hs.current
  rw [outputRedirection, bind_of_ok hs.arg_here]
  cases cur with
  | nil => exact ⟨s, rfl, ⟨rfl, rfl⟩, rfl, hs⟩
  | cons t ts =>
      by_cases ht : t = ['>']
      · subst ht
        rw [List.head?_cons, if_pos rfl, bind_of_ok hcmd, hp rfl]
        exact outputOperand_working hs
      · rw [redirectOutput, if_neg ht, if_neg (by simpa using ht)]
        exact ⟨s, rfl, ⟨rfl, rfl⟩, rfl, hs⟩

private theorem inputOperand_working (hs : Working base cell₀ old total s done c (['<'] :: cur)) :
    Computes base cell₀ old total s done (inputOperand s) (inputFile c cur) := by
  have harg := hs.arg (k := 1) (by simp)
  rw [inputOperand, bind_of_ok harg]
  cases cur with
  | nil => exact ⟨s, c, rfl, ⟨rfl, rfl⟩, hs.memory⟩
  | cons file cur =>
      obtain ⟨t, hassign, hi, hn, hsame, ht⟩ := hs.assign fun c =>
        { c with redirectIn := true, rifilename := some file }
      refine ⟨{ t with i := t.i + 2 }, ?_, hsame, hn,
        ht.advance (k := 2) (by simp) rfl⟩
      show (s.assign s.length _ >>= _) = _
      rw [bind_of_ok hassign]
      rfl

private theorem inputRedirection_working (hs : Working base cell₀ old total s done c cur)
    (hp : cur.head? = some ['<'] → c.piped = false) :
    Computes base cell₀ old total s done (inputRedirection s) (redirectInput c cur) := by
  have hcmd := command_memory hs.memory hs.current
  rw [inputRedirection, bind_of_ok hs.arg_here]
  cases cur with
  | nil => exact ⟨s, rfl, ⟨rfl, rfl⟩, rfl, hs⟩
  | cons t ts =>
      by_cases ht : t = ['<']
      · subst ht
        rw [List.head?_cons, if_pos rfl, bind_of_ok hcmd, hp rfl]
        exact inputOperand_working hs
      · rw [redirectInput, if_neg ht, if_neg (by simpa using ht)]
        exact ⟨s, rfl, ⟨rfl, rfl⟩, rfl, hs⟩

private theorem background_working (hs : Working base cell₀ old total s done c cur)
    (hout : cur.head? = some ['&'] → c.out = 1) :
    ∃ t, background s = .ok t ∧ SameRound s t ∧ t.pipeNext = s.pipeNext ∧
      Working base cell₀ old total t
        (if cur.head? = some ['&'] then markPrevious done else done)
        (if cur.head? = some ['&'] then { c with bg := true } else c) cur := by
  rw [background, bind_of_ok hs.arg_here]
  by_cases hamp : cur.head? = some ['&']
  · simp only [hamp, if_true]
    obtain ⟨t, hassign, hi, hn, hsame, ht⟩ := hs.assign fun c => { c with bg := true }
    rw [bind_of_ok hassign]
    rcases List.eq_nil_or_concat done with hd | ⟨init, last, hd⟩
    · have hlen : t.length = 0 := by rw [ht.length, hd, List.length_nil]
      rw [if_pos hlen]
      refine ⟨t, rfl, hsame, hn, ?_⟩
      rw [hd] at ht ⊢
      exact ht
    · rw [List.concat_eq_append] at hd
      subst hd
      have hlen : t.length = init.length + 1 := by rw [ht.length, List.length_append]; rfl
      rw [hlen, if_neg (Nat.succ_ne_zero _), Nat.add_sub_cancel, markPrevious_concat]
      obtain ⟨n, hfuel⟩ : ∃ n, t.args.length = n + 2 := by
        obtain ⟨tail, htail⟩ := ht.args
        have hl := congrArg List.length htail
        have hpos : 0 < cur.length := by
          cases cur with
          | nil => cases hamp
          | cons _ _ => exact Nat.succ_pos _
        simp only [List.length_drop, List.length_append, List.length_map, List.length_cons] at hl
        exact ⟨t.args.length - 2, by omega⟩
      rw [hfuel]
      have hlast : (init ++ [last] ++ [{ c with bg := true }])[init.length]? = some last := by simp
      by_cases hl : last.out > 1
      · rw [if_pos hl]
        obtain ⟨heap, hmark, hm⟩ := assign_memory (fun c => { c with bg := true }) ht.memory hlast
        have hset : (init ++ [last] ++ [{ c with bg := true }]).set init.length
            { last with bg := true } =
            init ++ [{ last with bg := true }] ++ [{ c with bg := true }] := by simp
        rw [hset] at hm
        have hnext : backgroundStep (t, init.length) =
            .ok (.inl ({ t with heap := heap }, init.length + 1)) := by
          rw [backgroundStep, bind_of_ok (command_memory ht.memory hlast), if_pos hl,
            bind_of_ok hmark]
          rfl
        have hstop : backgroundStep ({ t with heap := heap }, init.length + 1) =
            .ok (.inr { t with heap := heap }) := by
          have hc : (init ++ [{ last with bg := true }] ++ [{ c with bg := true }])[init.length +
              1]? = some { c with bg := true } := by simp
          rw [backgroundStep, bind_of_ok (command_memory hm hc), if_neg (by simp [hout hamp])]
          rfl
        rw [loop_next hnext, loop_done hstop]
        exact ⟨_, rfl, hsame, hn, hm, by rw [ht.length]; simp, ht.args, ht.total⟩
      · rw [if_neg hl]
        have hstop : backgroundStep (t, init.length) = .ok (.inr t) := by
          rw [backgroundStep, bind_of_ok (command_memory ht.memory hlast), if_neg hl]
          rfl
        rw [loop_done hstop]
        exact ⟨t, rfl, hsame, hn, ht⟩
  · simp only [hamp, if_false]
    exact ⟨s, rfl, ⟨rfl, rfl⟩, rfl, hs⟩

private theorem makeCmd_words {args rest : List (Option CStr)} {ws : List CStr} {first : Nat}
    (h : args.drop first = ws.map some ++ rest) (hne : ws ≠ []) :
    ∃ args', makeCmd args first (first + ws.length - 1) = .ok (newCmd (ws.map some), args') ∧
      args'.drop (first + ws.length) = rest ∧
      args'.drop (first + ws.length - 1) = none :: rest := by
  have hpos := List.length_pos_iff.mpr hne
  have hl := congrArg List.length h
  simp only [List.length_drop, List.length_append, List.length_map] at hl
  have hlast : first + ws.length - 1 + 1 = first + ws.length := by omega
  have hrange : ¬ (first + ws.length - 1 < first ∨ args.length ≤ first + ws.length - 1) := by omega
  have hwords : (args.drop first).take ws.length = ws.map some := by
    rw [h, List.take_append_of_le_length (by simp), List.take_of_length_le (by simp)]
  have hrest : args.drop (first + ws.length) = rest := by
    rw [← List.drop_drop, h, List.drop_append_of_le_length (by simp),
      List.drop_of_length_le (by simp), List.nil_append]
  have htake : (args.take first).length = first := by
    rw [List.length_take]
    omega
  refine ⟨args.take first ++ List.replicate ws.length none ++ rest, ?_, ?_, ?_⟩
  · simp only [makeCmd, if_neg hrange, hlast, Nat.add_sub_cancel_left, hwords, hrest]
  · rw [List.drop_append_of_le_length (by simp [htake]), List.drop_of_length_le (by simp [htake]),
      List.nil_append]
  · have hsplit : List.replicate ws.length (none : Option CStr) =
        List.replicate (ws.length - 1) none ++ [none] := by
      rw [← List.replicate_succ', Nat.sub_add_cancel hpos]
    rw [hsplit, List.append_assoc, List.append_assoc, ← List.append_assoc,
      List.drop_append_of_le_length (by simp [htake]; omega),
      List.drop_of_length_le (by simp [htake]; omega)]
    rfl

/-- Before a round: the array holds the commands so far and a `NULL`, and the index is at the next
word. -/
structure Between (base : Nat) (cell₀ : Nat → Option Cmd) (old : Nat → Ptr) (total : Nat)
    (s : Parser) (cmds : List Cmd) (ts : List CStr) : Prop where
  memory : Memory base cell₀ (Function.update old cmds.length none) s.heap s.commands cmds
  length : s.length = cmds.length
  args : ∃ tail, s.args.drop s.i = ts.map some ++ none :: tail
  first : ts ≠ [] → s.first = s.i
  total : ts ≠ [] → s.i + ts.length = total
  word : ∀ t, ts.head? = some t → isWord t

variable {cmds : List Cmd} {ts : List CStr} {late : Halt}

private theorem loop_words {ws rest : List CStr} {tail : List (Option CStr)} (fuel : Nat)
    (h : s.args.drop s.i = (ws ++ rest).map some ++ none :: tail)
    (hws : ∀ w ∈ ws, isWord w = true) (hrest : rest ≠ []) :
    loop makeCmdvStep late (fuel + ws.length) s =
      loop makeCmdvStep late fuel { s with i := s.i + ws.length } := by
  induction ws generalizing s with
  | nil => rfl
  | cons w ws ih =>
      have hdrop : s.args.drop (s.i + 1) = (ws ++ rest).map some ++ none :: tail := by
        rw [← List.drop_drop, h]
        rfl
      obtain ⟨next, nexts, hnext⟩ : ∃ u us, ws ++ rest = u :: us :=
        List.exists_cons_of_ne_nil (by simp [hrest])
      have hfirst : s.arg s.i = .ok (some w) := arg_drop h
      have hsecond : s.arg (s.i + 1) = .ok (some next) := by
        rw [hnext] at hdrop
        exact arg_drop hdrop
      have hw : startsSeparator w = false := by
        have := hws w List.mem_cons_self
        simpa [isWord] using this
      have hstep : makeCmdvStep s = .ok (.inl { s with i := s.i + 1 }) := by
        rw [makeCmdvStep, bind_of_ok hfirst]
        simp only [hw, Bool.false_eq_true, if_false, hsecond]
        rfl
      rw [List.length_cons, ← Nat.add_assoc, loop_next hstep,
        ih (s := { s with i := s.i + 1 }) hdrop fun u hu => hws u (List.mem_cons_of_mem w hu)]
      rw [Nat.add_assoc, Nat.add_comm 1]

private theorem addCommand_working {ws : List CStr} {tail : List (Option CStr)} {token : CStr}
    (hm : Memory base cell₀ (Function.update old cmds.length none) s.heap s.commands cmds)
    (hl : s.length = cmds.length) (hne : ws ≠ [])
    (ha : s.args.drop s.first = (ws ++ cur).map some ++ none :: tail)
    (hi : s.i = if startsSeparator token then s.first + ws.length else s.first + ws.length - 1)
    (hlast : startsSeparator token = false → cur = [])
    (ht : cur ≠ [] → s.i + cur.length = total) :
    ∃ t, addCommand s token = .ok t ∧ t.pipeNext = s.pipeNext ∧
      t.calls = s.calls ++ [(s.first, s.first + ws.length - 1)] ∧
      Working base cell₀ old total t cmds (newCmd (ws.map some)) cur := by
  have hpos := List.length_pos_iff.mpr hne
  rw [List.map_append, List.append_assoc] at ha
  obtain ⟨args, hmake, hsep, hend⟩ := makeCmd_words ha hne
  have hrange : (if startsSeparator token then sizePred s.i else s.i) =
      s.first + ws.length - 1 := by
    cases hs : startsSeparator token with
    | true =>
        rw [hs, if_pos rfl] at hi
        rw [if_pos rfl, sizePred, hi, if_neg (by omega)]
    | false => simpa [hs] using hi
  refine ⟨{ s with
    args := args
    heap := s.heap.push (newCmd (ws.map some))
    commands := Function.update s.commands s.length (some s.heap.fresh)
    calls := s.calls ++ [(s.first, s.first + ws.length - 1)] }, ?_, rfl, rfl, ?_, hl, ?_, ht⟩
  · rw [addCommand]
    simp only [hrange]
    rw [bind_of_ok hmake]
    rfl
  · refine (hm.push _ hl).congr ?_
    intro j hj
    rw [List.length_append, List.length_singleton] at hj
    exact Function.update_of_ne (by omega) _ _
  · cases hs : startsSeparator token with
    | true =>
        rw [hs, if_pos rfl] at hi
        exact ⟨tail, by rw [hi]; exact hsep⟩
    | false =>
        rw [hs] at hi
        rw [hlast hs] at hend ⊢
        exact ⟨none :: tail, by rw [hi]; exact hend⟩

private theorem connectInput_working {ws : List CStr}
    (hs : Working base cell₀ old total s done (newCmd (ws.map some)) cur) :
    ∃ t, connectInput s = .ok t ∧ SameRound s t ∧
      Working base cell₀ old total t done (wordsCmd s.pipeNext ws) cur := by
  rw [connectInput]
  cases hp : s.pipeNext with
  | true =>
      obtain ⟨t, hassign, -, -, hsame, ht⟩ := hs.assign fun c => { c with input := 2 }
      exact ⟨t, hassign, hsame, ht⟩
  | false => exact ⟨s, rfl, ⟨rfl, rfl⟩, hs⟩

private theorem dropCommand_working (hs : Working base cell₀ old total s done c cur) :
    ∃ t, dropCommand s = .error (.returnFalse t) ∧ SameRound s t ∧
      Contents base cell₀ (Function.update old done.length none) t.heap t.commands done := by
  obtain ⟨hslot, hcell⟩ := hs.memory.slot hs.current
  have hfree : s.freeCmd s.length = .ok { s with heap := s.heap.erase (base + s.length) } := by
    simp only [Parser.freeCmd, hslot, hcell]
  refine ⟨{ s with
    heap := s.heap.erase (base + s.length)
    commands := Function.update s.commands s.length none }, ?_, ⟨rfl, rfl⟩, ?_, ?_⟩
  · rw [dropCommand, bind_of_ok hfree]
    rfl
  · intro j
    show Function.update s.commands s.length none j = _
    rw [Function.update_apply, Function.update_apply, hs.memory.commands, hs.length,
      List.length_append, List.length_singleton]
    grind
  · intro a
    show (s.heap.erase (base + s.length)).cell a = _
    rw [Heap.erase_cell, hs.memory.cell, hs.length]
    by_cases hlt : a < base
    · rw [if_neg (by omega), if_pos hlt, if_pos hlt]
    · rw [if_neg hlt, if_neg hlt]
      by_cases he : a = base + done.length
      · rw [if_pos he, he, Nat.add_sub_cancel_left, List.getElem?_eq_none (Nat.le_refl _)]
      · rw [if_neg he]
        grind

private theorem pipes_plain {ws : List CStr}
    (hs : Working base cell₀ old total s done (newCmd (ws.map some)) cur)
    (hcur : cur.head? ≠ some ['|']) :
    ∃ t, pipes s = .ok t ∧ SameRound s t ∧ t.pipeNext = false ∧
      Working base cell₀ old total t done (wordsCmd s.pipeNext ws) cur := by
  obtain ⟨t, hconnect, hsame, ht⟩ := connectInput_working hs
  refine ⟨{ t with pipeNext := false }, ?_, hsame, rfl, ht.memory, ht.length, ht.args, ht.total⟩
  rw [pipes, bind_of_ok hconnect, bind_of_ok ht.arg_here, if_neg hcur]
  rfl

private theorem pipes_dropped {ws rest : List CStr}
    (hs : Working base cell₀ old total s done (newCmd (ws.map some)) (['|'] :: rest))
    (hrest : ∀ u, rest.head? = some u → startsSeparator u = true) :
    ∃ t, pipes s = .error (.returnFalse t) ∧ SameRound s t ∧
      Contents base cell₀ (Function.update old done.length none) t.heap t.commands done := by
  obtain ⟨t, hconnect, hsame, ht⟩ := connectInput_working hs
  obtain ⟨u, hassign, -, -, hsame', hu⟩ := ht.assign fun c => { c with out := 2, piped := true }
  have hv : Working base cell₀ old total { u with pipeNext := true } done _ (['|'] :: rest) :=
    ⟨hu.memory, hu.length, hu.args, hu.total⟩
  obtain ⟨v, hdrop, hsame'', hcontents⟩ := dropCommand_working hv
  have harg := hv.arg (k := 1) (by simp)
  refine ⟨v, ?_, ?_, hcontents⟩
  · rw [pipes, bind_of_ok hconnect, bind_of_ok ht.arg_here, List.head?_cons, if_pos rfl,
      bind_of_ok hassign, pipeTarget, bind_of_ok harg]
    cases rest with
    | nil => exact hdrop
    | cons w rest =>
        show (if startsSeparator w then _ else _) = _
        rw [if_pos (hrest w rfl)]
        exact hdrop
  · exact ⟨hsame''.1.trans (hsame'.1.trans hsame.1), hsame''.2.trans (hsame'.2.trans hsame.2)⟩

private theorem pipes_connected {ws rest : List CStr} {u : CStr}
    (hs : Working base cell₀ old total s done (newCmd (ws.map some)) (['|'] :: u :: rest))
    (hu : startsSeparator u = false) :
    ∃ t, pipes s = .ok t ∧ SameRound s t ∧ t.pipeNext = true ∧
      Working base cell₀ old total t done
        { wordsCmd s.pipeNext ws with out := 2, piped := true } (['|'] :: u :: rest) := by
  obtain ⟨t, hconnect, hsame, ht⟩ := connectInput_working hs
  obtain ⟨v, hassign, -, -, hsame', hv⟩ := ht.assign fun c => { c with out := 2, piped := true }
  have hv' : Working base cell₀ old total { v with pipeNext := true } done _ (['|'] :: u :: rest) :=
    ⟨hv.memory, hv.length, hv.args, hv.total⟩
  have harg := hv'.arg (k := 1) (by simp)
  refine ⟨{ v with pipeNext := true }, ?_, ⟨hsame'.1.trans hsame.1, hsame'.2.trans hsame.2⟩, rfl,
    hv'⟩
  rw [pipes, bind_of_ok hconnect, bind_of_ok ht.arg_here, List.head?_cons, if_pos rfl,
    bind_of_ok hassign, pipeTarget, bind_of_ok harg]
  show (if startsSeparator u then _ else _) = _
  rw [hu]
  rfl

private theorem nextWord_tokens (ts : List CStr) (tail : List (Option CStr)) :
    nextWord (ts.map some ++ none :: tail) =
      .ok ((ts.takeWhile startsSeparator).length, decide (ts.dropWhile startsSeparator ≠ [])) := by
  induction ts with
  | nil => rfl
  | cons t ts ih =>
      show nextWord (some t :: (ts.map some ++ none :: tail)) = _
      rw [nextWord]
      cases ht : startsSeparator t with
      | true =>
          rw [if_pos rfl, bind_of_ok ih, List.takeWhile_cons_of_pos ht,
            List.dropWhile_cons_of_pos ht]
          rfl
      | false =>
          have hn : ¬ startsSeparator t = true := by simp [ht]
          rw [if_neg (by simp), List.takeWhile_cons_of_neg hn, List.dropWhile_cons_of_neg hn]
          simp

private theorem skipSeparators_working (hs : Working base cell₀ old total s done c cur) :
    ∃ t, skipSeparators { s with
        length := s.length + 1
        commands := Function.update s.commands (s.length + 1) none } = .ok t ∧
      t.pipeNext = s.pipeNext ∧ t.calls = s.calls ∧
      Between base cell₀ old total t (done ++ [c]) (cur.dropWhile startsSeparator) := by
  obtain ⟨tail, htail⟩ := hs.args
  let n := (cur.takeWhile startsSeparator).length
  let found := decide (cur.dropWhile startsSeparator ≠ [])
  have hnext : nextWord (s.args.drop s.i) = .ok (n, found) := by
    rw [htail]
    exact nextWord_tokens cur tail
  have hsplit : cur.takeWhile startsSeparator ++ cur.dropWhile startsSeparator = cur :=
    List.takeWhile_append_dropWhile
  have hn : n ≤ cur.length := by
    have := congrArg List.length hsplit
    rw [List.length_append] at this
    omega
  have hrest : cur.drop n = cur.dropWhile startsSeparator := by
    have h : (cur.takeWhile startsSeparator ++ cur.dropWhile startsSeparator).drop n =
        cur.dropWhile startsSeparator := List.drop_left
    rwa [hsplit] at h
  refine ⟨{ s with
    length := s.length + 1
    commands := Function.update s.commands (s.length + 1) none
    i := s.i + n
    first := if found then s.i + n else s.first }, ?_, rfl, rfl, ?_, ?_, ?_, ?_, ?_, ?_⟩
  · rw [skipSeparators]
    show (nextWord (s.args.drop s.i) >>= _) = _
    rw [bind_of_ok hnext]
    rfl
  · refine ⟨⟨?_, hs.memory.cell⟩, hs.memory.fresh⟩
    intro j
    show Function.update s.commands (s.length + 1) none j = _
    rw [Function.update_apply, Function.update_apply, hs.memory.commands, hs.length,
      List.length_append, List.length_singleton]
    grind
  · show s.length + 1 = _
    rw [hs.length, List.length_append, List.length_singleton]
  · refine ⟨tail, ?_⟩
    show s.args.drop (s.i + n) = _
    rw [← List.drop_drop, htail, List.drop_append_of_le_length (by simpa using hn), ← List.map_drop,
      hrest]
  · intro hne
    show (if found then s.i + n else s.first) = s.i + n
    rw [if_pos (by simpa [found] using hne)]
  · intro hne
    have hcur : cur ≠ [] := by
      intro h
      exact hne (by rw [h]; rfl)
    rw [← hs.total hcur, ← hrest, List.length_drop]
    show s.i + n + _ = _
    omega
  · intro t ht
    have := List.head?_dropWhile_not startsSeparator cur
    rw [ht] at this
    simpa [isWord] using this

/-- Nothing but a pipe connects the output of a command. -/
def Unpiped (c : Cmd) (cur : List CStr) : Prop :=
  cur.head? = some ['|'] ∨ (c.piped = false ∧ c.out = 1)

private theorem redirectOutput_unpiped {c' : Cmd} {cur' : List CStr} (hu : Unpiped c cur)
    (h : redirectOutput c cur = some (c', cur')) : Unpiped c' cur' := by
  rcases hu with hu | hu
  · left
    unfold redirectOutput at h
    grind
  · right
    have hk := redirectOutput_keeps h
    exact ⟨hk.piped.trans hu.1, hk.out.trans hu.2⟩

private theorem redirectInput_unpiped {c' : Cmd} {cur' : List CStr} (hu : Unpiped c cur)
    (h : redirectInput c cur = some (c', cur')) : Unpiped c' cur' := by
  rcases hu with hu | hu
  · left
    unfold redirectInput at h
    grind
  · right
    have hk := redirectInput_keeps h
    exact ⟨hk.piped.trans hu.1, hk.out.trans hu.2⟩

private theorem finishCommand_working (hs : Working base cell₀ old total s done c cur)
    (hu : Unpiped c cur) :
    match endRound c cur with
    | .next c' marks rest => ∃ t, finishCommand s = .ok t ∧ t.pipeNext = s.pipeNext ∧
        t.calls = s.calls ∧
        Between base cell₀ old total t ((if marks then markPrevious done else done) ++ [c']) rest
    | .dropped => False
    | .dangling => ∃ t c', finishCommand s = .error (.returnFalse t) ∧ t.calls = s.calls ∧
        Memory base cell₀ old t.heap t.commands (done ++ [c']) := by
  have hpiped : ∀ {c : Cmd} {cur : List CStr}, Unpiped c cur → ∀ t, t ≠ ['|'] →
      cur.head? = some t → c.piped = false ∧ c.out = 1 := by
    intro c cur hu t ht hcur
    rcases hu with hu | hu
    · rw [hu] at hcur
      cases hcur
      exact absurd rfl ht
    · exact hu
  have hout := outputRedirection_working hs fun h => (hpiped hu _ (by decide) h).1
  rw [endRound, finishCommand]
  cases h₁ : redirectOutput c cur with
  | none =>
      rw [h₁] at hout
      obtain ⟨t, c', herror, hsame, hm⟩ := hout
      exact ⟨t, c', by rw [bind_of_error herror], hsame.2, hm⟩
  | some result =>
      obtain ⟨c₁, cur₁⟩ := result
      rw [h₁] at hout
      obtain ⟨t₁, hok₁, hsame₁, hn₁, hw₁⟩ := hout
      have hu₁ := redirectOutput_unpiped hu h₁
      have hin := inputRedirection_working hw₁ fun h => (hpiped hu₁ _ (by decide) h).1
      rw [bind_of_ok hok₁]
      cases h₂ : redirectInput c₁ cur₁ with
      | none =>
          rw [h₂] at hin
          obtain ⟨t, c', herror, hsame, hm⟩ := hin
          simp only [h₂]
          exact ⟨t, c', by rw [bind_of_error herror], hsame.2.trans hsame₁.2, hm⟩
      | some result =>
          obtain ⟨c₂, cur₂⟩ := result
          rw [h₂] at hin
          obtain ⟨t₂, hok₂, hsame₂, hn₂, hw₂⟩ := hin
          have hu₂ := redirectInput_unpiped hu₁ h₂
          obtain ⟨t₃, hok₃, hsame₃, hn₃, hw₃⟩ :=
            background_working hw₂ fun h => (hpiped hu₂ _ (by decide) h).2
          obtain ⟨t₄, hok₄, hn₄, hcalls₄, hb⟩ := skipSeparators_working hw₃
          simp only [h₂]
          refine ⟨t₄, ?_, hn₄.trans (hn₃.trans (hn₂.trans hn₁)),
            hcalls₄.trans (hsame₃.2.trans (hsame₂.2.trans hsame₁.2)), ?_⟩
          · rw [bind_of_ok hok₂, bind_of_ok hok₃]
            exact hok₄
          · simpa only [decide_eq_true_eq] using hb

private theorem endRound_pipe {u : CStr} {rest : List CStr} (hu : startsSeparator u = false) :
    endRound c (['|'] :: u :: rest) = .next c false (u :: rest) := by
  have hdrop : (['|'] :: u :: rest).dropWhile startsSeparator = u :: rest := by
    rw [List.dropWhile_cons_of_pos (by decide), List.dropWhile_cons_of_neg (by simp [hu])]
  simp [endRound, redirectOutput, redirectInput, hdrop]

private theorem endCommand_working {ws : List CStr} {tail : List (Option CStr)} {token : CStr}
    (hm : Memory base cell₀ (Function.update old cmds.length none) s.heap s.commands cmds)
    (hl : s.length = cmds.length) (hne : ws ≠ [])
    (ha : s.args.drop s.first = (ws ++ cur).map some ++ none :: tail)
    (hi : s.i = if startsSeparator token then s.first + ws.length else s.first + ws.length - 1)
    (hlast : startsSeparator token = false → cur = [])
    (ht : cur ≠ [] → s.i + cur.length = total) :
    match closeRound (wordsCmd s.pipeNext ws) cur with
    | .next c marks rest => ∃ t, endCommand s token = .ok t ∧ t.pipeNext = c.piped ∧
        t.calls = s.calls ++ [(s.first, s.first + ws.length - 1)] ∧
        Between base cell₀ old total t ((if marks then markPrevious cmds else cmds) ++ [c]) rest
    | .dropped => ∃ t, endCommand s token = .error (.returnFalse t) ∧
        t.calls = s.calls ++ [(s.first, s.first + ws.length - 1)] ∧
        Contents base cell₀ (Function.update old cmds.length none) t.heap t.commands cmds
    | .dangling => ∃ t c, endCommand s token = .error (.returnFalse t) ∧
        t.calls = s.calls ++ [(s.first, s.first + ws.length - 1)] ∧
        Memory base cell₀ old t.heap t.commands (cmds ++ [c]) := by
  obtain ⟨t, hadd, hn, hcalls, hw⟩ := addCommand_working hm hl hne ha hi hlast ht
  rw [← hcalls, ← hn, endCommand, bind_of_ok hadd]
  by_cases hpipe : cur.head? = some ['|']
  · obtain ⟨rest, rfl⟩ : ∃ rest, cur = ['|'] :: rest := by
      cases cur with
      | nil => cases hpipe
      | cons u rest =>
          cases hpipe
          exact ⟨rest, rfl⟩
    rw [closeRound, if_pos rfl]
    cases rest with
    | nil =>
        obtain ⟨u, herror, hsame, hc⟩ := pipes_dropped hw (by simp)
        exact ⟨u, by rw [bind_of_error herror], hsame.2, hc⟩
    | cons u rest =>
        by_cases hu : startsSeparator u = true
        · obtain ⟨v, herror, hsame, hc⟩ := pipes_dropped hw (by simpa using hu)
          rw [pipeRound, if_pos hu]
          exact ⟨v, by rw [bind_of_error herror], hsame.2, hc⟩
        · have hu' : startsSeparator u = false := by simpa using hu
          obtain ⟨v, hok, hsame, hnext, hv⟩ := pipes_connected hw hu'
          have hfinish := finishCommand_working hv (.inl rfl)
          rw [endRound_pipe hu'] at hfinish
          obtain ⟨x, hok', hnext', hcalls', hx⟩ := hfinish
          rw [pipeRound, if_neg hu]
          exact ⟨x, by rw [bind_of_ok hok, hok'], hnext'.trans hnext, hcalls'.trans hsame.2, hx⟩
  · obtain ⟨v, hok, hsame, hnext, hv⟩ := pipes_plain hw hpipe
    have hfinish := finishCommand_working hv (.inr ⟨rfl, rfl⟩)
    have hclose : closeRound (wordsCmd t.pipeNext ws) cur =
        endRound (wordsCmd t.pipeNext ws) cur := by
      cases cur with
      | nil => rfl
      | cons u rest =>
          rw [closeRound, if_neg (by simpa using hpipe)]
    rw [hclose]
    cases hr : endRound (wordsCmd t.pipeNext ws) cur with
    | next c marks rest =>
        rw [hr] at hfinish
        obtain ⟨x, hok', hnext', hcalls', hx⟩ := hfinish
        have hpiped : c.piped = false := (endRound_keeps hr).piped
        exact ⟨x, by rw [bind_of_ok hok, hok'], (hnext'.trans hnext).trans hpiped.symm,
          hcalls'.trans hsame.2, hx⟩
    | dropped =>
        rw [hr] at hfinish
        exact hfinish.elim
    | dangling =>
        rw [hr] at hfinish
        obtain ⟨x, c, herror, hcalls', hx⟩ := hfinish
        exact ⟨x, c, by rw [bind_of_ok hok, herror], hcalls'.trans hsame.2, hx⟩

/-- How a run of the loop from the start of a round goes on after it: with bound enough for the
tokens left, or not at all. -/
def RoundOutcome (base : Nat) (cell₀ : Nat → Option Cmd) (old : Nat → Ptr) (total : Nat)
    (late : Halt) (outcome : Except Halt Parser) (calls : List (Nat × Nat)) (cmds : List Cmd) :
    Round → Prop
  | .next c marks rest => ∃ t fuel, outcome = loop makeCmdvStep late fuel t ∧ rest.length < fuel ∧
      t.pipeNext = c.piped ∧ t.calls = calls ∧
      Between base cell₀ old total t ((if marks then markPrevious cmds else cmds) ++ [c]) rest
  | .dropped => ∃ t, outcome = .error (.returnFalse t) ∧ t.calls = calls ∧
      Contents base cell₀ (Function.update old cmds.length none) t.heap t.commands cmds
  | .dangling => ∃ t c, outcome = .error (.returnFalse t) ∧ t.calls = calls ∧
      Memory base cell₀ old t.heap t.commands (cmds ++ [c])

private theorem loop_endCommand {ws : List CStr} (tail : List (Option CStr)) {token : CStr}
    {fuel : Nat}
    (hm : Memory base cell₀ (Function.update old cmds.length none) s.heap s.commands cmds)
    (hl : s.length = cmds.length) (hne : ws ≠ [])
    (ha : s.args.drop s.first = (ws ++ cur).map some ++ none :: tail)
    (hi : s.i = if startsSeparator token then s.first + ws.length else s.first + ws.length - 1)
    (hlast : startsSeparator token = false → cur = [])
    (ht : cur ≠ [] → s.i + cur.length = total)
    (hstep : makeCmdvStep s = endCommand s token >>= fun t => .ok (.inl t))
    (hf : ∀ c marks rest, closeRound (wordsCmd s.pipeNext ws) cur = .next c marks rest →
      rest.length < fuel) :
    RoundOutcome base cell₀ old total late (loop makeCmdvStep late (fuel + 1) s)
      (s.calls ++ [(s.first, s.first + ws.length - 1)]) cmds
      (closeRound (wordsCmd s.pipeNext ws) cur) := by
  have hend := endCommand_working hm hl hne ha hi hlast ht
  cases hr : closeRound (wordsCmd s.pipeNext ws) cur with
  | next c marks rest =>
      rw [hr] at hend
      obtain ⟨t, hok, hnext, hcalls, hb⟩ := hend
      rw [bind_of_ok hok] at hstep
      exact ⟨t, fuel, loop_next hstep, hf c marks rest hr, hnext, hcalls, hb⟩
  | dropped =>
      rw [hr] at hend
      obtain ⟨t, herror, hcalls, hc⟩ := hend
      rw [bind_of_error herror] at hstep
      exact ⟨t, loop_fail hstep, hcalls, hc⟩
  | dangling =>
      rw [hr] at hend
      obtain ⟨t, c, herror, hcalls, hm'⟩ := hend
      rw [bind_of_error herror] at hstep
      exact ⟨t, c, loop_fail hstep, hcalls, hm'⟩

private theorem loop_round_last (late : Halt) (hs : Between base cell₀ old total s cmds ts)
    (hne : ts ≠ []) (hwords : ∀ w ∈ ts, isWord w = true) {fuel : Nat} (hf : ts.length < fuel) :
    RoundOutcome base cell₀ old total late (loop makeCmdvStep late fuel s)
      (s.calls ++ [(s.first, s.first + ts.length - 1)]) cmds
      (closeRound (wordsCmd s.pipeNext ts) []) := by
  obtain ⟨tail, htail⟩ := hs.args
  obtain ⟨init, w, hconcat⟩ := (List.eq_nil_or_concat ts).resolve_left hne
  rw [List.concat_eq_append] at hconcat
  have hlen : ts.length = init.length + 1 := by rw [hconcat, List.length_append]; rfl
  obtain ⟨n, rfl⟩ : ∃ n, fuel = n + 1 + init.length := ⟨fuel - 1 - init.length, by omega⟩
  have hdrop : s.args.drop s.i = (init ++ [w]).map some ++ none :: tail := by
    rw [htail, hconcat]
  have hhere : s.args.drop (s.i + init.length) = some w :: none :: tail := by
    rw [← List.drop_drop, hdrop, List.map_append, List.append_assoc]
    exact List.drop_left' (List.length_map some)
  have hafter : s.args.drop (s.i + init.length + 1) = none :: tail := by
    rw [← List.drop_drop, hhere]
    rfl
  have hsep : startsSeparator w = false := by
    have hw := hwords w (by rw [hconcat]; simp)
    simpa [isWord] using hw
  have hstep : makeCmdvStep { s with i := s.i + init.length } =
      endCommand { s with i := s.i + init.length } w >>= fun t => .ok (.inl t) := by
    rw [makeCmdvStep, bind_of_ok (arg_drop (s := { s with i := s.i + init.length }) hhere)]
    simp only [hsep, Bool.false_eq_true, if_false]
    rw [arg_drop (s := { s with i := s.i + init.length }) hafter]
    rfl
  rw [loop_words (n + 1) hdrop
    (fun u hu => hwords u (by rw [hconcat]; exact List.mem_append_left _ hu)) (by simp)]
  refine loop_endCommand tail hs.memory hs.length hne ?_ ?_ (fun _ => rfl)
    (fun h => absurd rfl h) hstep ?_
  · rw [List.append_nil, ← htail]
    exact congrArg (fun i => s.args.drop i) (hs.first hne)
  · show s.i + init.length = _
    rw [hsep, if_neg Bool.false_ne_true, hs.first hne, hlen]
    rfl
  · intro c marks rest h
    cases h
    show 0 < n
    omega

private theorem loop_round_separator (late : Halt) {ws rest : List CStr} {t : CStr}
    (hs : Between base cell₀ old total s cmds (ws ++ t :: rest)) (hne : ws ≠ [])
    (hwords : ∀ w ∈ ws, isWord w = true) (hsep : startsSeparator t = true) {fuel : Nat}
    (hf : (ws ++ t :: rest).length < fuel) :
    RoundOutcome base cell₀ old total late (loop makeCmdvStep late fuel s)
      (s.calls ++ [(s.first, s.first + ws.length - 1)]) cmds
      (closeRound (wordsCmd s.pipeNext ws) (t :: rest)) := by
  obtain ⟨tail, hdrop⟩ := hs.args
  have hts : ws ++ t :: rest ≠ [] := List.append_ne_nil_of_left_ne_nil hne _
  have hlen : (ws ++ t :: rest).length = ws.length + (rest.length + 1) := by
    rw [List.length_append, List.length_cons]
  obtain ⟨n, rfl⟩ : ∃ n, fuel = n + 1 + ws.length := ⟨fuel - 1 - ws.length, by omega⟩
  have hhere : s.args.drop (s.i + ws.length) = some t :: (rest.map some ++ none :: tail) := by
    rw [← List.drop_drop, hdrop, List.map_append, List.append_assoc]
    exact List.drop_left' (List.length_map some)
  have hstep : makeCmdvStep { s with i := s.i + ws.length } =
      endCommand { s with i := s.i + ws.length } t >>= fun u => .ok (.inl u) := by
    rw [makeCmdvStep, bind_of_ok (arg_drop (s := { s with i := s.i + ws.length }) hhere)]
    simp only [hsep, if_true]
    rfl
  rw [loop_words (n + 1) hdrop hwords (by simp)]
  refine loop_endCommand tail hs.memory hs.length hne ?_ ?_
    (fun h => absurd h (by simp [hsep])) ?_ hstep ?_
  · rw [← hdrop]
    exact congrArg (fun i => s.args.drop i) (hs.first hts)
  · show s.i + ws.length = _
    rw [hsep, if_pos rfl, hs.first hts]
  · intro _
    rw [← hs.total hts, hlen, List.length_cons]
    show s.i + ws.length + _ = _
    omega
  · intro c marks rest' h
    have hrest := closeRound_rest hsep h
    omega

private theorem loop_round (late : Halt) (hs : Between base cell₀ old total s cmds ts)
    (hne : ts ≠ []) {fuel : Nat} (hf : ts.length < fuel) :
    RoundOutcome base cell₀ old total late (loop makeCmdvStep late fuel s)
      (s.calls ++ [(s.i, s.i + (ts.takeWhile isWord).length - 1)]) cmds
      (round s.pipeNext ts) := by
  have hwords : ∀ w ∈ ts.takeWhile isWord, isWord w = true :=
    List.all_eq_true.mp List.all_takeWhile
  have hws : ts.takeWhile isWord ≠ [] := by
    obtain ⟨t, ts', rfl⟩ := List.exists_cons_of_ne_nil hne
    rw [List.takeWhile_cons_of_pos (hs.word t rfl)]
    exact List.cons_ne_nil _ _
  have hsplit : ts.takeWhile isWord ++ ts.dropWhile isWord = ts := List.takeWhile_append_dropWhile
  rw [round, ← hs.first hne]
  cases hd : ts.dropWhile isWord with
  | nil =>
      rw [hd, List.append_nil] at hsplit
      rw [hsplit] at hwords hws ⊢
      exact loop_round_last late hs hne hwords hf
  | cons t rest =>
      rw [hd] at hsplit
      rw [← hsplit] at hs hf
      exact loop_round_separator late hs hws hwords (startsSeparator_of_dropWhile hd) hf

/-- The rounds from the start of a round to the end of the loop. -/
def ParseOutcome (base : Nat) (cell₀ : Nat → Option Cmd) (old : Nat → Ptr)
    (outcome : Except Halt Parser) (calls : List (Nat × Nat)) (parts : List Part) : Verdict → Prop
  | .accepted => ∃ t, outcome = .ok t ∧ t.calls = calls ∧
      Contents base cell₀ (Function.update old parts.length none) t.heap t.commands (settle parts)
  | .dropped => ∃ t, outcome = .error (.returnFalse t) ∧
      Contents base cell₀ (Function.update old parts.length none) t.heap t.commands (settle parts)
  | .dangling => ∃ t c, outcome = .error (.returnFalse t) ∧
      Contents base cell₀ old t.heap t.commands (settle parts ++ [c])

private theorem loop_parse (late : Halt) (parts : List Part) {fuel : Nat}
    (hs : Between base cell₀ old total s (settle parts) ts) (hf : ts.length < fuel) :
    ParseOutcome base cell₀ old (loop makeCmdvStep late fuel s)
      (s.calls ++ callsOf s.i (parse s.pipeNext ts).2) (parts ++ (parse s.pipeNext ts).2)
      (parse s.pipeNext ts).1 := by
  induction hn : ts.length using Nat.strongRecOn generalizing s ts parts fuel with
  | ind n ih =>
      by_cases hne : ts = []
      · subst hne
        obtain ⟨tail, htail⟩ := hs.args
        obtain ⟨fuel, rfl⟩ : ∃ m, fuel = m + 1 := ⟨fuel - 1, by omega⟩
        have hstep : makeCmdvStep s = .ok (.inr s) := by
          rw [makeCmdvStep, bind_of_ok (arg_drop htail)]
          rfl
        have hm := hs.memory.toContents
        rw [settle_length] at hm
        rw [parse_nil, List.append_nil]
        exact ⟨s, loop_done hstep, (List.append_nil _).symm, hm⟩
      · have hr := loop_round late hs hne hf
        cases h : round s.pipeNext ts with
        | next c marks rest =>
            rw [h] at hr
            obtain ⟨t, fuel', hrun, hf', hnext, hcalls, hb⟩ := hr
            let p : Part := ⟨c, marks, ts.take (ts.length - rest.length)⟩
            have hlt := round_rest hne h
            rw [← settle_concat parts p] at hb
            have hparse := ih rest.length (hn ▸ hlt) (parts ++ [p]) hb hf' rfl
            have hstart : callsOf t.i (parse t.pipeNext rest).2 =
                callsOf (s.i + p.tokens.length) (parse t.pipeNext rest).2 := by
              by_cases hrest : rest = []
              · rw [hrest, parse_nil]
                rfl
              · have h₁ := hs.total hne
                have h₂ := hb.total hrest
                have : t.i = s.i + p.tokens.length := by
                  simp only [p, List.length_take]
                  omega
                rw [this]
            rw [parse_next hne h, hrun, ← hnext]
            rw [hstart, hcalls, List.append_assoc, List.append_assoc, ← (round_words h).1] at hparse
            exact hparse
        | dropped =>
            rw [h] at hr
            obtain ⟨t, hrun, -, hc⟩ := hr
            rw [settle_length] at hc
            rw [parse_dropped hne h, List.append_nil]
            exact ⟨t, hrun, hc⟩
        | dangling =>
            rw [h] at hr
            obtain ⟨t, c, hrun, -, hm⟩ := hr
            rw [parse_dangling hne h, List.append_nil]
            exact ⟨t, c, hrun, hm.toContents⟩

end

/-- `make_cmdv` on a vector of tokens: the rounds of `parse`, the commands in the array at the
addresses allocated for them. -/
theorem makeCmdv_parse (ts : List CStr) (heap : Heap Cmd) (commands : Nat → Ptr)
    (hword : ∀ t, ts.head? = some t → isWord t) (hnull : commands 0 = none) :
    match parse false ts with
    | (.accepted, parts) => ∃ t, makeCmdv (ts.map some ++ [none]) heap commands = .ok (true, t) ∧
        t.calls = callsOf 0 parts ∧ Contents heap.fresh heap.cell
          (Function.update commands parts.length none) t.heap t.commands (settle parts)
    | (.dropped, parts) => ∃ t, makeCmdv (ts.map some ++ [none]) heap commands = .ok (false, t) ∧
        Contents heap.fresh heap.cell
          (Function.update commands parts.length none) t.heap t.commands (settle parts)
    | (.dangling, parts) => ∃ t c,
        makeCmdv (ts.map some ++ [none]) heap commands = .ok (false, t) ∧
        Contents heap.fresh heap.cell commands t.heap t.commands (settle parts ++ [c]) := by
  have hs : Between heap.fresh heap.cell commands ts.length
      ⟨ts.map some ++ [none], heap, commands, 0, 0, 0, false, []⟩ (settle []) ts := by
    refine ⟨⟨⟨?_, ?_⟩, rfl⟩, rfl, ⟨[], rfl⟩, fun _ => rfl, fun _ => Nat.zero_add _, hword⟩
    · intro j
      show commands j = if j < 0 then _ else Function.update commands 0 none j
      rw [if_neg (Nat.not_lt_zero j), Function.update_apply]
      by_cases hj : j = 0
      · rw [if_pos hj, hj, hnull]
      · rw [if_neg hj]
    · intro a
      by_cases ha : a < heap.fresh
      · rw [if_pos ha]
      · rw [if_neg ha, heap.unused a (Nat.le_of_not_lt ha)]
        rfl
  have hfuel : ts.length < (ts.map some ++ [none]).length + 1 := by
    rw [List.length_append, List.length_map]
    omega
  have hrun := loop_parse (.stuck .unfinished) [] hs hfuel
  rw [List.nil_append, List.nil_append] at hrun
  cases hp : parse false ts with
  | mk verdict parts =>
      rw [hp] at hrun
      cases verdict with
      | accepted =>
          obtain ⟨t, hloop, hcalls, hc⟩ := hrun
          exact ⟨t, by rw [makeCmdv, hloop], hcalls, hc⟩
      | dropped =>
          obtain ⟨t, hloop, hc⟩ := hrun
          exact ⟨t, by rw [makeCmdv, hloop], hc⟩
      | dangling =>
          obtain ⟨t, c, hloop, hc⟩ := hrun
          exact ⟨t, c, by rw [makeCmdv, hloop], hc⟩

end SyssoftLabs.Lab4
