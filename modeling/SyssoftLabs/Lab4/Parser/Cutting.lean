import SyssoftLabs.Lab4.Parser.Tokens

/-!
# The tokens of a line

`get_splitted` cuts off one token after the other and puts it into a vector of `ARGS_SIZE` slots.
`put` compares the index of the token with the size, but the `NULL` goes into the slot behind it.
-/

namespace SyssoftLabs.Lab4

open SyssoftLabs.Framework

section

variable {line : CStr}

private theorem isSpace_head_skipSpaces {c : Char} {rest : CStr} (h : skipSpaces line = c :: rest) :
    isSpace c = false := by
  have hhead := List.head?_dropWhile_not isSpace line
  rw [skipSpaces] at h
  rw [h] at hhead
  simpa using hhead

private theorem skipSpaces_length_le (line : CStr) : (skipSpaces line).length ≤ line.length :=
  (List.dropWhile_suffix isSpace).length_le

theorem getArg_ne_nil (h : skipSpaces line ≠ []) : getArg (skipSpaces line) ≠ [] := by
  obtain ⟨c, rest, hline⟩ := List.exists_cons_of_ne_nil h
  have hspace := isSpace_head_skipSpaces hline
  rw [hline, getArg]
  split
  · exact List.cons_ne_nil c _
  · next hsep =>
      have hc : isSeparator c = false := by simpa [startsSeparator] using hsep
      rw [List.takeWhile_cons_of_pos (by simp [hspace, hc])]
      exact List.cons_ne_nil c _

theorem getArg_isPrefix (line : CStr) : getArg line <+: line := by
  rw [getArg]
  split
  · exact List.take_prefix 1 line
  · exact List.takeWhile_prefix _

private theorem length_rest_lt (h : skipSpaces line ≠ []) :
    ((skipSpaces line).drop (getArg (skipSpaces line)).length).length < line.length := by
  have harg := List.length_pos_iff.mpr (getArg_ne_nil h)
  have hskip := skipSpaces_length_le line
  have hline := List.length_pos_iff.mpr h
  rw [List.length_drop]
  omega

end

/-! ## A line without variables -/

/-- What `get_splitted` leaves alone: neither the terminator nor a variable. -/
def isPlain (c : Char) : Bool := c != nul && c != '$'

theorem isPlain_iff {c : Char} : isPlain c = true ↔ c ≠ nul ∧ c ≠ '$' := by
  rw [isPlain, Bool.and_eq_true, bne_iff_ne, bne_iff_ne]

theorem plain_of_notMem {text : CStr} (hnul : nul ∉ text) (hdollar : '$' ∉ text) :
    ∀ c ∈ text, isPlain c = true := fun _ hc =>
  isPlain_iff.mpr ⟨ne_of_mem_of_not_mem hc hnul, ne_of_mem_of_not_mem hc hdollar⟩

theorem expandStep_plain (σ : Scope) (before : List Char) {c : Char} (line : List Char)
    (hnul : c ≠ nul) (hdollar : c ≠ '$') :
    expandStep σ (before, c :: line) = .ok (.inl (before ++ [c], line)) := by
  simp [expandStep, hnul, unfoldVariable_plain σ _ hdollar]

theorem expand_plain (σ : Scope) {fuel : Nat} {text tail : List Char}
    (ht : ∀ c ∈ text, isPlain c = true) (hf : text.length < fuel) :
    expand σ fuel (text ++ nul :: tail) = .ok (text ++ nul :: tail) := by
  suffices h : ∀ before, loop (expandStep σ) .unfinished fuel (before, text ++ nul :: tail) =
      .ok (before ++ (text ++ nul :: tail)) from h []
  induction text generalizing fuel with
  | nil =>
      intro before
      obtain ⟨fuel, rfl⟩ : ∃ n, fuel = n + 1 := ⟨fuel - 1, by simp at hf; omega⟩
      exact loop_done (by simp [expandStep])
  | cons c text ih =>
      intro before
      obtain ⟨fuel, rfl⟩ : ∃ n, fuel = n + 1 := ⟨fuel - 1, by simp at hf; omega⟩
      have hc := isPlain_iff.mp (ht c List.mem_cons_self)
      rw [List.cons_append, loop_next (expandStep_plain σ before _ hc.1 hc.2),
        ih (fun d hd => ht d (List.mem_cons_of_mem c hd)) (by simpa using hf)]
      simp

theorem cString_plain {text : CStr} (tail : List Char) (ht : ∀ c ∈ text, isPlain c = true) :
    cString (text ++ nul :: tail) = text := by
  refine cString_append_nul (fun hmem => ?_) tail
  exact (isPlain_iff.mp (ht nul hmem)).1 rfl

/-! ## Cutting -/

/-- All tokens of a line, however many. -/
def tokens (line : CStr) : List CStr :=
  if _ : skipSpaces line = [] then []
  else
    getArg (skipSpaces line) ::
      tokens ((skipSpaces line).drop (getArg (skipSpaces line)).length)
termination_by line.length
decreasing_by exact length_rest_lt ‹_›

section

variable {line : CStr}

theorem tokens_nil (h : skipSpaces line = []) : tokens line = [] := by
  rw [tokens, dif_pos h]

theorem tokens_cons (h : skipSpaces line ≠ []) :
    tokens line = getArg (skipSpaces line) ::
      tokens ((skipSpaces line).drop (getArg (skipSpaces line)).length) := by
  rw [tokens, dif_neg h]

theorem tokens_length_le (line : CStr) : (tokens line).length ≤ line.length := by
  induction line using tokens.induct with
  | case1 line h =>
      rw [tokens_nil h]
      exact Nat.zero_le _
  | case2 line h ih =>
      have hlt := length_rest_lt h
      rw [tokens_cons h, List.length_cons]
      omega

/-! ## The vector -/

private theorem findIdx_isNone (vec : List CStr) :
    (vec.map some ++ [none]).findIdx Option.isNone = vec.length := by
  induction vec with
  | nil => rfl
  | cons w vec ih => simp [List.findIdx_cons, ih]

theorem put_room (mem : Arena nul) {vec : List CStr} (item : CStr)
    (hroom : vec.length < argsSize) :
    put mem (vec.map some ++ [none]) item =
      .ok ((vec ++ [copied mem item]).map some ++ [none]) := by
  have hle : ¬ vec.length + 1 > argsSize := by omega
  have htake : (vec.map some ++ [none]).take vec.length = vec.map some := by
    rw [List.take_append_of_le_length (by simp), List.take_of_length_le (by simp)]
  simp [put, findIdx_isNone, hle, htake]

private theorem put_full (mem : Arena nul) {vec : List CStr} (item : CStr)
    (hfull : argsSize ≤ vec.length) :
    put mem (vec.map some ++ [none]) item = .error .manyArgs := by
  have hgt : vec.length + 1 > argsSize := by omega
  simp [put, findIdx_isNone, hgt]

variable {mem : Arena nul}

theorem splitStep_nil (h : skipSpaces line = []) (args : List (Option CStr)) :
    splitStep mem (line, args) = .ok (.inr args) := by
  by_cases hline : line = []
  · simp only [splitStep, if_pos hline]
  · simp only [splitStep, if_neg hline, if_pos h]

private theorem splitStep_cons (h : skipSpaces line ≠ []) (args : List (Option CStr)) :
    splitStep mem (line, args) = (put mem args (getArg (skipSpaces line))).map fun args =>
      .inl ((skipSpaces line).drop (getArg (skipSpaces line)).length, args) := by
  have hline : line ≠ [] := by
    rintro rfl
    exact h rfl
  simp only [splitStep, if_neg hline, if_neg h]
  cases put mem args (getArg (skipSpaces line)) <;> rfl

private theorem split_tokens (vec : List CStr) {fuel : Nat} (hf : (tokens line).length < fuel)
    (hvec : vec.length ≤ argsSize) :
    loop (splitStep mem) .unfinished fuel (line, vec.map some ++ [none]) =
      if vec.length + (tokens line).length ≤ argsSize then
        .ok ((vec ++ (tokens line).map (copied mem)).map some ++ [none])
      else .error .manyArgs := by
  obtain ⟨fuel, rfl⟩ : ∃ n, fuel = n + 1 := ⟨fuel - 1, by omega⟩
  induction line using tokens.induct generalizing vec fuel with
  | case1 line h =>
      rw [loop_done (splitStep_nil h _), tokens_nil h, List.map_nil, List.append_nil]
      exact (if_pos hvec).symm
  | case2 line h ih =>
      have hstep : splitStep mem (line, vec.map some ++ [none]) = _ := splitStep_cons h _
      rw [tokens_cons h, List.length_cons] at hf ⊢
      by_cases hroom : vec.length < argsSize
      · rw [put_room mem _ hroom] at hstep
        obtain ⟨fuel, rfl⟩ : ∃ n, fuel = n + 1 := ⟨fuel - 1, by omega⟩
        have hnext : (vec ++ [copied mem (getArg (skipSpaces line))]).length = vec.length + 1 := by
          rw [List.length_append, List.length_singleton]
        rw [loop_next hstep,
          ih (vec ++ [copied mem (getArg (skipSpaces line))]) (by omega) fuel (by omega), hnext,
          List.append_assoc, List.singleton_append, Nat.add_right_comm, Nat.add_assoc,
          List.map_cons]
      · rw [put_full mem _ (Nat.le_of_not_lt hroom)] at hstep
        rw [loop_fail hstep, if_neg (by omega)]

variable {σ : Scope} {fuel : Nat} {text out : List Char}

theorem getSplitted_tokens (h : expand σ fuel text = .ok out) :
    getSplitted mem σ fuel text =
      if (tokens (cString out)).length ≤ argsSize then
        .ok (((tokens (cString out)).map (copied mem)).map some ++ [none])
      else .error .manyArgs := by
  have hcount := tokens_length_le (cString out)
  have hstring := (cString_isPrefix out).length_le
  have hfuel : (tokens (cString out)).length < out.length + 1 := by omega
  have hsplit : loop (splitStep mem) .unfinished (out.length + 1) (cString out, [none]) = _ :=
    split_tokens [] hfuel (Nat.zero_le _)
  rw [List.length_nil, Nat.zero_add] at hsplit
  rw [getSplitted, bind_of_ok h]
  exact hsplit

private theorem expand_of_manyArgs (h : getSplitted mem σ fuel text = .error .manyArgs) :
    ∃ out, expand σ fuel text = .ok out := by
  cases hexpand : expand σ fuel text with
  | ok out => exact ⟨out, rfl⟩
  | error stuck =>
      rw [getSplitted, bind_of_error hexpand, loop_error (expandStep_ne_error σ) hexpand] at h
      cases h

/-- The copies of all tokens of the expanded line and a NULL are in the slots that were
allocated. -/
def Complete (mem : Arena nul) (σ : Scope) (fuel : Nat) (text : List Char) : Prop :=
  ∃ out vec, expand σ fuel text = .ok out ∧ getSplitted mem σ fuel text = .ok vec ∧
    vec = ((tokens (cString out)).map (copied mem)).map some ++ [none] ∧ vec.length ≤ argsSize

private theorem complete_iff_of_expand (h : expand σ fuel text = .ok out) :
    getSplitted mem σ fuel text = .error .manyArgs ∨ Complete mem σ fuel text ↔
      (tokens (cString out)).length ≠ argsSize := by
  rw [getSplitted_tokens h]
  by_cases hle : (tokens (cString out)).length ≤ argsSize
  · rw [if_pos hle]
    constructor
    · rintro (herror | ⟨out', vec, hout, -, rfl, hslots⟩)
      · cases herror
      · cases h.symm.trans hout
        rw [List.length_append, List.length_map, List.length_map, List.length_singleton] at hslots
        omega
    · intro hne
      refine .inr ⟨out, _, h, (getSplitted_tokens h).trans (if_pos hle), rfl, ?_⟩
      rw [List.length_append, List.length_map, List.length_map, List.length_singleton]
      omega
  · rw [if_neg hle]
    exact iff_of_true (.inl rfl) (by omega)

private theorem expand_of_settled
    (h : getSplitted mem σ fuel text = .error .manyArgs ∨ Complete mem σ fuel text) :
    ∃ out, expand σ fuel text = .ok out := by
  rcases h with herror | ⟨out, vec, hout, hvec⟩
  · exact expand_of_manyArgs herror
  · exact ⟨out, hout⟩

end

/-- The vector is complete within its slots, or refused, except for lines of exactly `ARGS_SIZE`
tokens and lines whose expansion does not end. -/
theorem vector_complete_iff (mem : Arena nul) (σ : Scope) (text : List Char) :
    (∃ fuel, getSplitted mem σ fuel text = .error .manyArgs ∨ Complete mem σ fuel text) ↔
      ∃ fuel out, expand σ fuel text = .ok out ∧ (tokens (cString out)).length ≠ argsSize := by
  constructor
  · rintro ⟨fuel, h⟩
    obtain ⟨out, hout⟩ := expand_of_settled h
    exact ⟨fuel, out, hout, (complete_iff_of_expand hout).mp h⟩
  · rintro ⟨fuel, out, hout, hne⟩
    exact ⟨fuel, (complete_iff_of_expand hout).mpr hne⟩

private theorem tokens_separators {c : Char} (hc : isSeparator c = true)
    (hspace : isSpace c = false)
    (n : Nat) : tokens (List.replicate n c) = List.replicate n [c] := by
  induction n with
  | zero => exact tokens_nil rfl
  | succ n ih =>
      have hskip : skipSpaces (c :: List.replicate n c) = c :: List.replicate n c :=
        List.dropWhile_cons_of_neg (by simp [hspace])
      have harg : getArg (c :: List.replicate n c) = [c] := if_pos hc
      have hne : skipSpaces (c :: List.replicate n c) ≠ [] := by
        rw [hskip]
        exact List.cons_ne_nil _ _
      rw [List.replicate_succ, tokens_cons hne, hskip, harg]
      exact congrArg _ ih

/-- 1024 separators. -/
theorem vector_complete_fails :
    ¬ ∀ (mem : Arena nul) (σ : Scope) (text : List Char),
      ∃ fuel, getSplitted mem σ fuel text = .error .manyArgs ∨ Complete mem σ fuel text := by
  intro h
  have hplain : ∀ c ∈ List.replicate argsSize ';', isPlain c = true := by
    intro c hc
    rw [List.eq_of_mem_replicate hc]
    decide
  have hroom : (List.replicate argsSize ';').length < argsSize + 1 := by
    rw [List.length_replicate]
    exact Nat.lt_succ_self argsSize
  have hexpand : expand ⟨[], fun _ => none⟩ (argsSize + 1)
      (List.replicate argsSize ';' ++ nul :: []) = .ok (List.replicate argsSize ';' ++ nul :: []) :=
    expand_plain _ hplain hroom
  obtain ⟨fuel, hfuel⟩ := h (Allocator.aligned.filled (by decide : nul ≠ '1') 1)
    ⟨[], fun _ => none⟩ (List.replicate argsSize ';' ++ nul :: [])
  obtain ⟨out, hout⟩ := expand_of_settled hfuel
  apply (complete_iff_of_expand hout).mp hfuel
  rw [loop_unique hout hexpand, cString_plain [] hplain, tokens_separators rfl rfl,
    List.length_replicate]

end SyssoftLabs.Lab4
