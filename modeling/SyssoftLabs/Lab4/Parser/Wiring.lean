import SyssoftLabs.Lab4.Parser.Words

/-!
# How the parser connects commands

A command writes to a pipe exactly if a command follows that reads from it. This holds for every
accepted vector, also for one that starts with a separator, where the parser takes the whole vector
for one command or, unless the vector fills the memory, leaves it.
-/

namespace SyssoftLabs.Lab4

open SyssoftLabs.Framework

/-- Commands whose pipes lead from each to the next, the first fed by a pipe or not. A command in
front of a pipe has no redirections. -/
def Connected : Bool → List Cmd → Prop
  | fed, [] => fed = false
  | fed, c :: cmds =>
      c.input = (if fed then 2 else 0) ∧ c.out = (if c.piped then 2 else 1) ∧
        (c.piped = true → c.redirect = false ∧ c.redirectIn = false) ∧ Connected c.piped cmds

/-- The commands of a line `make_cmdv` accepts. -/
def Parsed (cmds : List Cmd) : Prop :=
  ∃ (ts : List CStr) (heap : Heap Cmd) (commands : Nat → Ptr) (t : Parser),
    makeCmdv (ts.map some ++ [none]) heap (Function.update commands 0 none) = .ok (true, t) ∧
      Lists t cmds

theorem Pipeline.parsed (p : Pipeline) : Parsed p.cmds := by
  obtain ⟨t, hok, hlists⟩ :=
    makeCmdv_lineTokens true [p] (Heap.empty fun _ => true) fun _ => none
  have hcmds : lineCmds [p] = p.cmds := List.append_nil p.cmds
  rw [hcmds] at hlists
  exact ⟨_, _, _, t, hok, hlists⟩

private theorem round_piped {pipeNext marks : Bool} {ts rest : List CStr} {c : Cmd}
    (h : round pipeNext ts = .next c marks rest) (hpiped : c.piped = true) :
    rest ≠ [] ∧ c.redirect = false ∧ c.redirectIn = false := by
  rcases round_cases h with ⟨-, rfl, -⟩ | ⟨u, us, -, -, rfl, -, rfl⟩ | ⟨t, ts, -, -, hend⟩
  · cases hpiped
  · exact ⟨List.cons_ne_nil u us, rfl, rfl⟩
  · rw [(endRound_keeps hend).piped] at hpiped
    cases hpiped

theorem Accepts.connected {pipeNext : Bool} {ts : List CStr} {parts : List Part}
    (h : Accepts pipeNext ts parts) (hfed : pipeNext = true → ts ≠ []) :
    Connected pipeNext (parts.map Part.cmd) := by
  induction h with
  | nil pipeNext =>
      cases pipeNext with
      | false => rfl
      | true => exact absurd rfl (hfed rfl)
  | next word first others ih =>
      obtain ⟨-, -, hinput, hout⟩ := round_words first
      have hpiped := round_piped first
      exact ⟨hinput, hout, fun h => (hpiped h).2, ih fun h => (hpiped h).1⟩

private theorem connected_map {f : Cmd → Cmd} (hf : ∀ c, ∃ bg, f c = { c with bg := bg })
    (fed : Bool) (cmds : List Cmd) : Connected fed (cmds.map f) ↔ Connected fed cmds := by
  induction cmds generalizing fed with
  | nil => rfl
  | cons c cmds ih =>
      obtain ⟨bg, hbg⟩ := hf c
      simp only [List.map_cons, Connected, hbg, ih]

private theorem connected_settle {fed : Bool} {parts : List Part}
    (h : Connected fed (parts.map Part.cmd)) : Connected fed (settle parts) := by
  have hclear : ∀ c : Cmd, ∃ bg, { c with bg := false } = { c with bg := bg } := fun c => ⟨_, rfl⟩
  rw [← connected_map hclear] at h ⊢
  rw [settle_map _ fun _ => rfl]
  rwa [List.map_map] at h

/-! ## A separator in front -/

private theorem endCommand_cleared {s t : Parser} {token : CStr} (hadd : addCommand s token = .ok t)
    (hfed : t.pipeNext = false) (hclear : t.args[t.i]? = some none) :
    ∃ first, endCommand s token = .ok { t with
      length := t.length + 1, first := first
      commands := Function.update t.commands (t.length + 1) none } := by
  have harg : ∀ u : Parser, u.args = t.args → u.i = t.i → u.arg u.i = .ok none := by
    intro u hargs hi
    rw [Parser.arg, hargs, hi, hclear]
  have hpipes : pipes t = .ok t := by
    rw [pipes, bind_of_ok (show connectInput t = .ok t by simp [connectInput, hfed]),
      bind_of_ok (harg t rfl rfl), if_neg (by simp)]
    rw [← hfed]
    rfl
  have hout : outputRedirection t = .ok t := by
    rw [outputRedirection, bind_of_ok (harg t rfl rfl), if_neg (by simp)]
    rfl
  have hin : inputRedirection t = .ok t := by
    rw [inputRedirection, bind_of_ok (harg t rfl rfl), if_neg (by simp)]
    rfl
  have hbg : background t = .ok t := by
    rw [background, bind_of_ok (harg t rfl rfl), if_neg (by simp)]
    rfl
  have hnext : nextWord (t.args.drop t.i) = .ok (0, false) := by
    have hcons : t.args.drop t.i = none :: t.args.drop (t.i + 1) := by
      obtain ⟨hlt, hget⟩ := List.getElem?_eq_some_iff.mp hclear
      rw [List.drop_eq_getElem_cons hlt, hget]
    rw [hcons]
    rfl
  refine ⟨t.first, ?_⟩
  rw [endCommand, bind_of_ok hadd, bind_of_ok hpipes, finishCommand, bind_of_ok hout,
    bind_of_ok hin, bind_of_ok hbg, skipSeparators, bind_of_ok hnext]
  rfl

private theorem addCommand_wrapped {s t : Parser} {token : CStr}
    (hsep : startsSeparator token = true)
    (hfirst : s.first = 0) (hi : s.i = 0) (h : addCommand s token = .ok t) :
    ∃ argv args calls, args[0]? = some none ∧ t = { s with
      args := args, heap := s.heap.push (newCmd argv), calls := calls
      commands := Function.update s.commands s.length (some s.heap.fresh) } := by
  rw [addCommand, if_pos hsep, hi, hfirst, sizePred, if_pos rfl] at h
  cases hmake : makeCmd s.args 0 sizeMax with
  | error e =>
      rw [bind_of_error hmake] at h
      cases h
  | ok r =>
      obtain ⟨c, args⟩ := r
      have hr : c = newCmd ((s.args.drop 0).take (sizeMax + 1 - 0)) ∧ args[0]? = some none := by
        unfold makeCmd at hmake
        split at hmake <;> cases hmake
        constructor
        · rfl
        · rw [List.take_zero, List.nil_append, List.getElem?_append_left (by simp),
            List.getElem?_replicate, if_pos (by simp)]
      rw [bind_of_ok hmake] at h
      cases h
      exact ⟨_, args, s.calls ++ [(0, sizeMax)], hr.2, by rw [hfirst, hi, hr.1]⟩

private theorem lists_singleton {t : Parser} {a : Nat} {c : Cmd} (hslot : t.commands 0 = some a)
    (hc : t.heap.cell a = some c) (hnull : t.commands 1 = none) : Lists t [c] := by
  refine ⟨?_, ?_, hnull⟩
  · intro j d hj
    cases j with
    | zero =>
        cases hj
        exact ⟨a, hslot, hc⟩
    | succ j => cases hj
  · intro j k hj hk _
    exact (Nat.lt_one_iff.mp hj).trans (Nat.lt_one_iff.mp hk).symm

theorem makeCmdvStep_separator {s : Parser} {token : CStr} (harg : s.arg s.i = .ok (some token))
    (hsep : startsSeparator token = true) :
    makeCmdvStep s = (endCommand s token).map Sum.inl := by
  rw [makeCmdvStep, bind_of_ok harg]
  simp only [hsep, if_true]
  rfl

private theorem accepted_separator {ts : List CStr} {token : CStr} {heap : Heap Cmd}
    {commands : Nat → Ptr} {t : Parser} (hsep : startsSeparator token = true)
    (h : makeCmdv ((token :: ts).map some ++ [none]) heap commands = .ok (true, t)) :
    ∃ argv, Lists t [newCmd argv] := by
  let s : Parser := ⟨(token :: ts).map some ++ [none], heap, commands, 0, 0, 0, false, []⟩
  have hbody := makeCmdvStep_separator (show s.arg s.i = .ok (some token) from rfl) hsep
  rw [makeCmdv] at h
  cases hadd : addCommand s token with
  | error e =>
      rw [endCommand, bind_of_error hadd] at hbody
      have hrun : loop makeCmdvStep (.stuck .unfinished)
          (((token :: ts).map some ++ [none]).length + 1) s = _ := loop_fail hbody
      rw [hrun] at h
      cases e <;> cases h
  | ok u =>
      obtain ⟨argv, args, calls, hclear, rfl⟩ := addCommand_wrapped hsep rfl rfl hadd
      obtain ⟨first, hend⟩ := endCommand_cleared hadd rfl hclear
      rw [hend] at hbody
      have hrun : loop makeCmdvStep (.stuck .unfinished)
          (((token :: ts).map some ++ [none]).length + 1) s = _ := loop_next hbody
      have hlast : ∀ v : Parser, v.args = args → v.i = 0 → makeCmdvStep v = .ok (.inr v) := by
        intro v hargs hi
        have harg : v.arg v.i = .ok none := by
          rw [Parser.arg, hargs, hi, hclear]
        rw [makeCmdvStep, bind_of_ok harg]
        rfl
      rw [hrun, List.length_append, List.length_singleton, loop_done (hlast _ rfl rfl)] at h
      cases h
      refine ⟨argv, lists_singleton (a := heap.fresh) ?_ ?_ ?_⟩
      · simp [s]
      · simp [s, Heap.push_cell]
      · simp [s]

/-- The commands of an accepted vector are those of its parts, unless it starts with a separator. -/
theorem accepted_cases {ts : List CStr} {heap : Heap Cmd} {commands : Nat → Ptr} {t : Parser}
    {cmds : List Cmd}
    (h : makeCmdv (ts.map some ++ [none]) heap (Function.update commands 0 none) = .ok (true, t))
    (hlists : Lists t cmds) :
    (∃ parts, Accepts false ts parts ∧ cmds = settle parts) ∨
      ∃ u, ts.head? = some u ∧ startsSeparator u = true ∧ ∃ argv, cmds = [newCmd argv] := by
  by_cases hword : ∀ u, ts.head? = some u → isWord u = true
  · left
    have hrun := makeCmdv_parse ts heap (Function.update commands 0 none) hword
      (Function.update_self ..)
    cases hp : parse false ts with
    | mk verdict parts =>
        rw [hp] at hrun
        cases verdict with
        | accepted =>
            obtain ⟨u, hok, -, hc⟩ := hrun
            rw [h] at hok
            cases hok
            exact ⟨parts, parse_accepts hword hp, hlists.unique (hc.lists (settle_length parts))⟩
        | dropped =>
            obtain ⟨u, hok, -⟩ := hrun
            rw [h] at hok
            cases hok
        | dangling =>
            obtain ⟨u, c, hok, -⟩ := hrun
            rw [h] at hok
            cases hok
  · right
    simp only [not_forall] at hword
    obtain ⟨u, hu, hsep⟩ := hword
    cases ts with
    | nil => cases hu
    | cons u' ts =>
        cases hu
        have hstart : startsSeparator u = true := by simpa [isWord] using hsep
        obtain ⟨argv, hargv⟩ := accepted_separator hstart h
        exact ⟨u, rfl, hstart, argv, hlists.unique hargv⟩

theorem Accepts.settle_connected {ts : List CStr} {parts : List Part} (h : Accepts false ts parts) :
    Connected false (settle parts) :=
  connected_settle (h.connected fun h => by cases h)

theorem Parsed.connected {cmds : List Cmd} (h : Parsed cmds) : Connected false cmds := by
  obtain ⟨ts, heap, commands, t, hok, hlists⟩ := h
  rcases accepted_cases hok hlists with ⟨parts, haccepts, rfl⟩ | ⟨-, -, -, argv, rfl⟩
  · exact haccepts.settle_connected
  · simp [Connected, newCmd]

/-! ## Each command and its neighbours -/

theorem Connected.at {fed : Bool} {cmds : List Cmd} {j : Nat} {c : Cmd} (h : Connected fed cmds)
    (hj : cmds[j]? = some c) :
    ∃ fed', Connected fed' (c :: cmds.drop (j + 1)) ∧ (j = 0 → fed' = fed) := by
  induction j generalizing fed cmds with
  | zero =>
      cases cmds with
      | nil => cases hj
      | cons b cmds =>
          cases hj
          exact ⟨fed, h, fun _ => rfl⟩
  | succ j ih =>
      cases cmds with
      | nil => cases hj
      | cons b cmds =>
          obtain ⟨fed', hfed', -⟩ := ih h.2.2.2 hj
          exact ⟨fed', hfed', fun h => by cases h⟩

/-- A command is connected to the next one, if there is one, by its output and by the input of the
other, or not at all. -/
structure Wired (cmds : List Cmd) : Prop where
  out : ∀ j c, cmds[j]? = some c → (c.out = 2 ↔ ∃ d, cmds[j + 1]? = some d ∧ d.input = 2)
  piped : ∀ j c, cmds[j]? = some c → (c.piped = true ↔ ∃ d, cmds[j + 1]? = some d ∧ d.input = 2)
  first : ∀ c, cmds[0]? = some c → c.input = 0
  last : ∀ c, cmds.getLast? = some c → c.out = 1

theorem Connected.next {fed : Bool} {c : Cmd} {cmds : List Cmd} (h : Connected fed (c :: cmds)) :
    c.piped = true ↔ ∃ d, cmds[0]? = some d ∧ d.input = 2 := by
  have hrest : Connected c.piped cmds := h.2.2.2
  cases cmds with
  | nil =>
      have hpiped : c.piped = false := hrest
      simp [hpiped]
  | cons d cmds =>
      have hinput : d.input = if c.piped then 2 else 0 := hrest.1
      cases hp : c.piped <;> simp [hinput, hp]

theorem Connected.wired {cmds : List Cmd} (h : Connected false cmds) : Wired cmds := by
  have hpiped : ∀ j c, cmds[j]? = some c →
      (c.piped = true ↔ ∃ d, cmds[j + 1]? = some d ∧ d.input = 2) := by
    intro j c hj
    obtain ⟨fed, hfed, -⟩ := h.at hj
    have hnext := hfed.next
    rwa [List.getElem?_drop, Nat.add_zero] at hnext
  constructor
  · intro j c hj
    obtain ⟨fed, hfed, -⟩ := h.at hj
    rw [← hpiped j c hj, hfed.2.1]
    cases c.piped <;> simp
  · exact hpiped
  · intro c hj
    obtain ⟨fed, hfed, heq⟩ := h.at hj
    rw [hfed.1, heq rfl]
    rfl
  · intro c hc
    rw [List.getLast?_eq_getElem?] at hc
    obtain ⟨fed, hfed, -⟩ := h.at hc
    have hend : cmds.drop (cmds.length - 1 + 1) = [] := by
      rw [List.drop_eq_nil_iff]
      omega
    rw [hend] at hfed
    have hlast : c.piped = false := hfed.2.2.2
    rw [hfed.2.1, hlast]
    rfl

end SyssoftLabs.Lab4
