import SyssoftLabs.Lab4.Editor.Cursor

/-!
# Where the line leaves its buffer

No path of `get_line` compares the length of the line with the size of the buffer. A line of 1024
bytes still lies in the buffer, without a terminator, as long as nothing has to find its end. A NUL
byte that is typed ends the string that moves with the text after the cursor, so that then the
length says nothing about the bytes that are written.
-/

namespace SyssoftLabs.Lab4

open SyssoftLabs.Framework

/-- A key, or the byte NUL, which is a symbol too. -/
inductive Stroke
  | key (key : Key)
  | null

def Stroke.bytes : Stroke → List Char
  | .key k => k.bytes
  | .null => [nul]

namespace Editor

/-- At the end of the line a symbol takes a byte. Inside it the string at the cursor moves, and the
NUL that ends it must not be the last byte of the buffer. -/
def RoomForSymbol (e : Editor) : Prop :=
  if e.pos = e.length then e.pos < lineSize else nul ∈ (e.line.drop e.pos).dropLast

/-- Inside the line a deletion shows the text after the cursor and moves the string there. -/
def RoomForDeletion (e : Editor) : Prop :=
  if e.pos = 0 then True
  else if e.pos = e.length then e.pos ≤ lineSize
  else e.length ≤ lineSize ∧ nul ∈ e.line.drop e.pos

/-- What a key needs of the buffer. -/
def RoomFor (e : Editor) : Stroke → Prop
  | .key (.insert _ _) | .null => e.RoomForSymbol
  | .key .backspace => e.RoomForDeletion
  | .key .right => e.pos = e.length ∨ e.pos < lineSize
  | .key .left | .key (.alt _ _) | .key (.other _ _) => True

/-- There is room for every key where it is typed, and for the terminator at Return. -/
def RoomForAll (complete : CStr → Nat → Except Stuck CStr) : Editor → List Stroke → Prop
  | e, [] => e.length < lineSize
  | e, key :: keys => e.RoomFor key ∧
      ∀ e', getLine complete e key.bytes = .ok (.reading e') → e'.RoomForAll complete keys

/-- `get_line` waits for a key, with a buffer of the size it asked for. -/
structure Ready (e : Editor) : Prop where
  reading : e.reading = .key
  size : e.line.length = lineSize

/-- With room the answer to a key keeps the size of the buffer, without it there is a fault. -/
def Settles (e : Editor) (room : Prop) (answer : Except Stuck Editor) : Prop :=
  (room ∧ ∃ e', answer = .ok e' ∧ e'.reading = e.reading ∧ e'.line.length = lineSize) ∨
    (¬ room ∧ answer = .error .fault)

end Editor

/-- There is room for every key, and for the terminator at Return. -/
def Cursor.RoomyAll : Cursor → List Key → Prop
  | z, [] => z.text.length < lineSize
  | z, key :: keys => z.Roomy key ∧ (z.press key).RoomyAll keys

section

variable {e e' : Editor} {z : Cursor} {before after : CStr} {buffer : List Char} {i : Nat}
  {complete : CStr → Nat → Except Stuck CStr} {key : Stroke}

/-! ## Strings in a buffer -/

private theorem exists_around (h : i < buffer.length) :
    ∃ before x rest, i = before.length ∧ buffer = before ++ x :: rest := by
  refine ⟨buffer.take i, buffer[i], buffer.drop (i + 1), ?_, ?_⟩
  · rw [List.length_take]
    omega
  · rw [List.getElem_cons_drop, List.take_append_drop]

private theorem exists_string (h : nul ∈ buffer.drop i) :
    ∃ before s rest, i = before.length ∧ nul ∉ s ∧ buffer = before ++ (s ++ nul :: rest) := by
  obtain ⟨s, rest, hdrop, hs⟩ := List.eq_append_cons_of_mem h
  refine ⟨buffer.take i, s, rest, ?_, hs, ?_⟩
  · have hpos := congrArg List.length hdrop
    simp only [List.length_drop, List.length_append, List.length_cons] at hpos
    rw [List.length_take]
    omega
  · rw [← hdrop, List.take_append_drop]

private theorem stringAt_stuck {str : Nat} (h : nul ∉ buffer.drop str) :
    stringAt buffer str = .error .fault := by
  rw [stringAt, cString_of_notMem h, List.length_drop, if_neg (by omega)]

private theorem strshlFrom_stuck {i : Nat} (h : nul ∉ buffer.drop i) :
    strshlFrom 1 buffer i = .error .fault := by
  induction hm : buffer.length - i generalizing buffer i with
  | zero => rw [strshlFrom, dif_neg (by omega)]
  | succ m ih =>
      rw [strshlFrom]
      split
      · next hi =>
          have hdrop := List.drop_eq_getElem_cons hi.1
          rw [hdrop, List.mem_cons, not_or] at h
          rw [if_neg (Ne.symm h.1)]
          apply ih
          · rw [List.drop_set_of_lt (by omega)]
            exact h.2
          · rw [List.length_set]
            omega
      · rfl

/-! ## What a key needs -/

private theorem Editor.Ready.insert_settles (h : e.Ready) (c : Char) :
    e.Settles e.RoomForSymbol (e.insert c) := by
  have hsize := h.size
  unfold Editor.Settles Editor.RoomForSymbol
  by_cases hend : e.pos = e.length
  · rw [if_pos hend]
    by_cases hroom : e.pos < lineSize
    · obtain ⟨before, x, rest, hpos, hline⟩ := exists_around (hsize ▸ hroom)
      obtain ⟨e', he', hreading, -, -, hline'⟩ := Editor.insert_atEnd hpos hend hline c
      refine .inl ⟨hroom, e', he', hreading, ?_⟩
      rw [← hsize, hline, hline']
      simp
    · refine .inr ⟨hroom, ?_⟩
      rw [Editor.insert, if_pos hend, poke, if_neg (by omega)]
      rfl
  · rw [if_neg hend]
    by_cases hstring : nul ∈ e.line.drop e.pos
    · obtain ⟨before, s, rest, hpos, hs, hline⟩ := exists_string hstring
      rw [hline, hpos, List.drop_left]
      cases rest with
      | nil =>
          rw [List.dropLast_concat]
          exact .inr ⟨hs, Editor.insert_stuck hpos hend hs hline c⟩
      | cons x rest =>
          obtain ⟨e', he', hreading, -, -, hline'⟩ := Editor.insert_inside hpos hend hs hline c
          refine .inl ⟨?_, e', he', hreading, ?_⟩
          · simp
          · rw [← hsize, hline, hline']
            simp
            omega
    · refine .inr ⟨fun hmem => hstring (List.dropLast_subset _ hmem), ?_⟩
      rw [Editor.insert, if_neg hend, strshr, if_neg (by decide), stringAt_stuck hstring]
      rfl

private theorem Editor.Ready.backspace_settles (h : e.Ready) :
    e.Settles e.RoomForDeletion e.backspace := by
  have hsize := h.size
  unfold Editor.Settles Editor.RoomForDeletion
  by_cases hstart : e.pos = 0
  · rw [if_pos hstart, Editor.backspace, if_pos hstart]
    exact .inl ⟨trivial, e, rfl, rfl, hsize⟩
  rw [if_neg hstart]
  by_cases hend : e.pos = e.length
  · rw [if_pos hend]
    by_cases hroom : e.pos ≤ lineSize
    · obtain ⟨before, x, rest, hpos, hline⟩ :=
        exists_around (show e.pos - 1 < e.line.length by omega)
      obtain ⟨e', he', hreading, -, -, hline'⟩ := Editor.backspace_atEnd (by omega) hend hline
      refine .inl ⟨hroom, e', he', hreading, ?_⟩
      rw [← hsize, hline, hline']
      simp
    · refine .inr ⟨hroom, ?_⟩
      rw [Editor.backspace, if_neg hstart, if_pos hend, poke, if_neg (by omega)]
      rfl
  · rw [if_neg hend]
    by_cases hlength : e.length ≤ lineSize
    · have htext : between e.line e.pos e.length =
          .ok ((e.line.drop e.pos).take (e.length - e.pos)) := if_pos (by omega)
      by_cases hstring : nul ∈ e.line.drop e.pos
      · obtain ⟨before, s, rest, hpos, hs, hline⟩ := exists_string hstring
        cases before using List.reverseRecOn with
        | nil => exact absurd hpos hstart
        | append_singleton before x =>
            rw [List.length_append, List.length_singleton] at hpos
            rw [List.append_assoc, List.singleton_append] at hline
            obtain ⟨e', he', hreading, -, -, hline'⟩ :=
              Editor.backspace_inside hpos hend (by omega) hs hline
            refine .inl ⟨⟨hlength, hstring⟩, e', he', hreading, ?_⟩
            rw [← hsize, hline, hline']
            simp
            omega
      · refine .inr ⟨fun h => hstring h.2, ?_⟩
        rw [Editor.backspace, if_neg hstart, if_neg hend, htext, bind_of_ok rfl, strshl,
          if_neg (by decide), strshlFrom_stuck hstring]
        rfl
    · refine .inr ⟨fun h => hlength h.1, ?_⟩
      rw [Editor.backspace, if_neg hstart, if_neg hend, between, if_neg (by omega)]
      rfl

private theorem Editor.Ready.right_settles (h : e.Ready) :
    e.Settles (e.pos = e.length ∨ e.pos < lineSize) e.right := by
  have hsize := h.size
  unfold Editor.Settles Editor.right
  by_cases hend : e.pos = e.length
  · rw [if_pos hend]
    exact .inl ⟨.inl hend, e, rfl, rfl, hsize⟩
  · rw [if_neg hend, peek]
    by_cases hroom : e.pos < e.line.length
    · rw [dif_pos hroom]
      exact .inl ⟨.inr (hsize ▸ hroom), _, rfl, rfl, hsize⟩
    · rw [dif_neg hroom]
      exact .inr ⟨by omega, rfl⟩

/-! ## Keys and runs -/

/-- What a key comes to: the next key is read, or there is no room and a fault. -/
theorem Editor.Settles.press {f : Editor} {answer : Except Stuck Editor}
    (h : f.Settles (e.RoomFor key) answer) (hreading : f.reading = .key)
    (hline : ∀ input, getLine complete e (key.bytes ++ input) =
      (answer >>= fun e' => getLine complete e' input)) :
    (e.RoomFor key ∧ ∃ e' : Editor, e'.Ready ∧
      ∀ input, getLine complete e (key.bytes ++ input) = getLine complete e' input) ∨
    (¬ e.RoomFor key ∧ ∀ input, getLine complete e (key.bytes ++ input) = .error .fault) := by
  rcases h with ⟨hroom, e', rfl, hreading', hsize⟩ | ⟨hroom, rfl⟩
  · exact .inl ⟨hroom, e', ⟨hreading'.trans hreading, hsize⟩, hline⟩
  · exact .inr ⟨hroom, hline⟩

/-- A key is answered exactly if there is room for it. -/
theorem Editor.Ready.press (h : e.Ready) (complete : CStr → Nat → Except Stuck CStr)
    (key : Stroke) :
    (e.RoomFor key ∧ ∃ e' : Editor, e'.Ready ∧
      ∀ input, getLine complete e (key.bytes ++ input) = getLine complete e' input) ∨
    (¬ e.RoomFor key ∧ ∀ input, getLine complete e (key.bytes ++ input) = .error .fault) := by
  have hend : { e with completion := false }.Ready := ⟨h.reading, h.size⟩
  have hescape : { e with completion := false, reading := .key }.Ready := ⟨rfl, h.size⟩
  cases key with
  | null =>
      have hnul : nul ∉ controls.tail := by decide
      exact (hend.insert_settles nul).press h.reading (getLine_symbol complete h.reading hnul)
  | key k =>
      cases k with
      | insert c hc =>
          have hsymbol : c ∉ controls.tail := fun hmem => hc (List.mem_of_mem_tail hmem)
          exact (hend.insert_settles c).press h.reading (getLine_symbol complete h.reading hsymbol)
      | backspace =>
          exact hend.backspace_settles.press h.reading (getLine_rubout complete h.reading)
      | right =>
          exact hescape.right_settles.press rfl (getLine_right complete h.reading)
      | left =>
          refine .inl ⟨trivial, _, ?_, getLine_left complete h.reading⟩
          unfold Editor.left
          split <;> exact ⟨rfl, h.size⟩
      | alt c hc =>
          exact .inl ⟨trivial, _, hescape, getLine_ignored complete h.reading (.inl ⟨c, hc, rfl⟩)⟩
      | other c hc =>
          exact .inl ⟨trivial, _, hescape, getLine_ignored complete h.reading (.inr ⟨c, hc, rfl⟩)⟩

private theorem Editor.roomForAll_cons (hroom : e.RoomFor key)
    (hline : ∀ input, getLine complete e (key.bytes ++ input) = getLine complete e' input)
    (keys : List Stroke) :
    e.RoomForAll complete (key :: keys) ↔ e'.RoomForAll complete keys := by
  have hnext : getLine complete e key.bytes = .ok (.reading e') := by
    rw [← List.append_nil key.bytes, hline]
    rfl
  rw [RoomForAll, hnext, and_iff_right hroom]
  constructor
  · exact fun h => h e' rfl
  · rintro h f hf
    cases hf
    exact h

private theorem Editor.Ready.getLine_iff (h : e.Ready) (complete : CStr → Nat → Except Stuck CStr)
    (keys : List Stroke) (rest : List Char) :
    (∃ line f, getLine complete e (keys.flatMap Stroke.bytes ++ '\n' :: rest) =
      .ok (.returned line f rest)) ↔ e.RoomForAll complete keys := by
  induction keys generalizing e with
  | nil =>
      have henter : { e with completion := false }.enter = (poke e.line e.length nul >>= _) := rfl
      rw [List.flatMap_nil, List.nil_append, getLine_return complete h.reading, henter, poke,
        h.size, Editor.RoomForAll]
      by_cases hroom : e.length < lineSize
      · rw [if_pos hroom]
        exact iff_of_true ⟨_, _, rfl⟩ hroom
      · rw [if_neg hroom]
        refine iff_of_false ?_ hroom
        rintro ⟨line, f, hline⟩
        cases hline
  | cons key keys ih =>
      rw [List.flatMap_cons, List.append_assoc]
      rcases h.press complete key with ⟨hroom, e', hready, hline⟩ | ⟨hroom, hline⟩
      · rw [hline, Editor.roomForAll_cons hroom hline, ih hready]
      · rw [hline]
        refine iff_of_false ?_ fun hall => hroom hall.1
        rintro ⟨line, f, hline⟩
        cases hline

/-! ## Runs without a NUL byte -/

private theorem Fills.drop_pos (h : Fills e z) :
    e.line.drop e.pos = z.after ++ zeros z.text.length := by
  rw [h.stores.line, h.stores.pos, List.drop_left]

private theorem Fills.roomFor_iff (h : Fills e z) (k : Key) : e.RoomFor (.key k) ↔ z.Roomy k := by
  have hfits : z.text.length ≤ lineSize := h.fits
  have hcount : z.text.length = z.before.length + z.after.length := List.length_append
  have hpos := h.stores.pos
  have hlength := h.stores.length
  have hclean := h.stores.clean_after
  cases k with
  | insert c hc =>
      rw [Editor.RoomFor, Editor.RoomForSymbol, Cursor.Roomy]
      by_cases hafter : z.after = []
      · rw [if_pos (h.stores.atEnd.mpr hafter), if_pos hafter, hpos, hcount, hafter]
        rfl
      · rw [if_neg (h.stores.atEnd.not.mpr hafter), if_neg hafter, h.drop_pos]
        by_cases hfull : z.text.length = lineSize
        · rw [hfull, zeros_full, List.append_nil]
          exact iff_of_false (fun hmem => hclean (List.dropLast_subset _ hmem)) (by omega)
        · rw [zeros, List.dropLast_append_of_ne_nil (by simp; omega), List.dropLast_replicate,
            List.mem_append, or_iff_right hclean, List.mem_replicate]
          constructor
          · rintro ⟨hne, -⟩
            omega
          · exact fun hlt => ⟨by omega, rfl⟩
  | backspace =>
      rw [Editor.RoomFor, Editor.RoomForDeletion, Cursor.Roomy]
      by_cases hbefore : z.before = []
      · rw [if_pos (h.stores.atStart.mpr hbefore)]
        exact iff_of_true trivial fun hne => absurd hbefore hne
      rw [if_neg (h.stores.atStart.not.mpr hbefore)]
      by_cases hafter : z.after = []
      · rw [if_pos (h.stores.atEnd.mpr hafter)]
        exact iff_of_true (by omega) fun _ hne => absurd hafter hne
      · rw [if_neg (h.stores.atEnd.not.mpr hafter), h.drop_pos, List.mem_append,
          or_iff_right hclean, zeros, List.mem_replicate]
        constructor
        · rintro ⟨-, hne, -⟩ - -
          omega
        · exact fun hlt => ⟨by omega, by have := hlt hbefore hafter; omega, rfl⟩
  | right =>
      rw [Editor.RoomFor, Cursor.Roomy]
      exact iff_of_true (by omega) trivial
  | left | alt _ _ | other _ _ => exact Iff.rfl

private theorem Fills.roomForAll_iff (h : Fills e z) (complete : CStr → Nat → Except Stuck CStr)
    (keys : List Key) :
    e.RoomForAll complete (keys.map .key) ↔ z.RoomyAll keys := by
  induction keys generalizing e z with
  | nil =>
      have hlength : e.length = z.text.length := by
        rw [h.stores.length, Cursor.text, List.length_append]
      rw [List.map_nil, Editor.RoomForAll, hlength, Cursor.RoomyAll]
  | cons k keys ih =>
      by_cases hroom : z.Roomy k
      · obtain ⟨e', hnext, hline⟩ := h.press complete k hroom
        rw [List.map_cons, Editor.roomForAll_cons ((h.roomFor_iff k).mpr hroom) hline, ih hnext]
        exact (and_iff_right hroom).symm
      · exact iff_of_false (fun hall => hroom ((h.roomFor_iff k).mp hall.1))
          fun hall => hroom hall.1

end

theorem Editor.Ready.start (prompt : CStr) (completion : Bool) (compPos : Nat) :
    (Editor.start prompt completion compPos).Ready :=
  ⟨rfl, List.length_replicate⟩

/-- `get_line` neither writes nor reads outside of its buffer up to Return exactly if there is room
for every key. Where no NUL byte is typed, that is a matter of the length alone: fewer than 1024
bytes before a symbol at the end of the line, before a deletion inside it and before Return, and
fewer than 1023 before a symbol inside it. -/
theorem get_line_in_bounds_iff (complete : CStr → Nat → Except Stuck CStr) (prompt : CStr)
    (completed : Bool) (compPos : Nat) :
    (∀ (keys : List Stroke) (rest : List Char),
      (∃ line e, getLine complete (Editor.start prompt completed compPos)
          (keys.flatMap Stroke.bytes ++ '\n' :: rest) = .ok (.returned line e rest)) ↔
        (Editor.start prompt completed compPos).RoomForAll complete keys) ∧
    ∀ keys : List Key,
      (Editor.start prompt completed compPos).RoomForAll complete (keys.map .key) ↔
        Cursor.empty.RoomyAll keys :=
  ⟨(Editor.Ready.start prompt completed compPos).getLine_iff complete,
    (Shows.start prompt completed compPos).fills.roomForAll_iff complete⟩

private theorem Cursor.roomyAll_replicate {c : Char} {hc : c ∉ controls} {n : Nat} {before : CStr}
    (h : RoomyAll ⟨before, []⟩ (List.replicate n (.insert c hc))) :
    before.length + n < lineSize := by
  induction n generalizing before with
  | zero => simpa [RoomyAll, text] using h
  | succ n ih =>
      have hrest : (before ++ [c]).length + n < lineSize := ih h.2
      rw [List.length_append, List.length_singleton] at hrest
      omega

/-- 1024 symbols and Return. -/
theorem get_line_in_bounds_fails :
    ¬ ∀ (complete : CStr → Nat → Except Stuck CStr) (prompt : CStr) (completed : Bool)
      (compPos : Nat) (keys : List Stroke) (rest : List Char),
      ∃ line e, getLine complete (Editor.start prompt completed compPos)
        (keys.flatMap Stroke.bytes ++ '\n' :: rest) = .ok (.returned line e rest) := by
  intro h
  have hc : 'a' ∉ controls := by decide
  have hline := h (fun pre _ => .ok pre) ['%', ' '] false 0
    ((List.replicate lineSize (.insert 'a' hc)).map .key) []
  rw [(Editor.Ready.start ['%', ' '] false 0).getLine_iff,
    (Shows.start ['%', ' '] false 0).fills.roomForAll_iff] at hline
  exact absurd (Cursor.roomyAll_replicate hline) (by decide)

end SyssoftLabs.Lab4
