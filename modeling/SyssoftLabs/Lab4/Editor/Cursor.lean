import SyssoftLabs.Lab4.Editor.Buffer

/-!
# The editor of a text with a cursor

An abstract editor holds the text before the cursor and the text after it. The buffer of `get_line`
is that text followed by zero bytes up to the end of the buffer, at every key.
-/

namespace SyssoftLabs.Lab4

/-! ## The abstract editor -/

/-- The text before and after the cursor. -/
structure Cursor where
  before : CStr
  after : CStr
deriving DecidableEq, Repr

/-- The bytes that `get_line` does not put into the line. -/
def controls : List Char := [nul, interrupt, endOfInput, '\t', '\n', escape, rubout]

inductive Key
  | insert (c : Char) (h : c ∉ controls)
  | backspace
  | left
  | right
  /-- `ESC` and a byte. -/
  | alt (c : Char) (h : c ≠ '[')
  /-- `ESC [` and a byte. -/
  | other (c : Char) (h : c ≠ 'C' ∧ c ≠ 'D')

namespace Key

/-- What the terminal sends for the key. -/
def bytes : Key → List Char
  | .insert c _ => [c]
  | .backspace => [rubout]
  | .left => [escape, '[', 'D']
  | .right => [escape, '[', 'C']
  | .alt c _ => [escape, c]
  | .other c _ => [escape, '[', c]

end Key

namespace Cursor

def empty : Cursor := ⟨[], []⟩

def text (z : Cursor) : CStr := z.before ++ z.after

def press (z : Cursor) : Key → Cursor
  | .insert c _ => ⟨z.before ++ [c], z.after⟩
  | .backspace => ⟨z.before.dropLast, z.after⟩
  | .left => ⟨z.before.dropLast, z.before.getLast?.toList ++ z.after⟩
  | .right => ⟨z.before ++ z.after.head?.toList, z.after.tail⟩
  | .alt _ _ => z
  | .other _ _ => z

def pressAll (z : Cursor) (keys : List Key) : Cursor := keys.foldl press z

/-- What a key needs of a buffer with the text: a byte for a symbol, another one for the terminator
that moves with the text after the cursor, and a terminator to stop at where that text moves to the
left. -/
def Roomy (z : Cursor) : Key → Prop
  | .insert _ _ =>
      if z.after = [] then z.text.length < lineSize else z.text.length + 1 < lineSize
  | .backspace => z.before ≠ [] → z.after ≠ [] → z.text.length < lineSize
  | .left | .right | .alt _ _ | .other _ _ => True

end Cursor

/-! ## The text in the buffer -/

/-- The zero bytes behind a text of this length. -/
def zeros (n : Nat) : List Char := List.replicate (lineSize - n) nul

theorem zeros_eq_cons {n : Nat} (hn : n < lineSize) : zeros n = nul :: zeros (n + 1) := by
  unfold zeros
  rw [← List.replicate_succ]
  congr 1
  omega

theorem zeros_full : zeros lineSize = [] := by
  rw [zeros, Nat.sub_self]
  rfl

/-- At the top of the loop the buffer holds the text, and only zero bytes behind it. -/
structure Shows (e : Editor) (z : Cursor) : Prop where
  reading : e.reading = .key
  pos : e.pos = z.before.length
  length : e.length = z.before.length + z.after.length
  fits : z.before.length + z.after.length < lineSize
  line : e.line = z.before ++ (z.after ++ zeros (z.before.length + z.after.length))
  clean : nul ∉ z.text

/-- The same of a text that may fill the buffer. -/
structure Fills (e : Editor) (z : Cursor) : Prop where
  reading : e.reading = .key
  fits : z.text.length ≤ lineSize
  stores : Stores e z.before z.after (zeros z.text.length)

section

variable {e e' : Editor} {z : Cursor} {before after : CStr} {c : Char}
  {complete : CStr → Nat → Except Stuck CStr} {input : List Char}

theorem Shows.start (prompt : CStr) (completion : Bool) (compPos : Nat) :
    Shows (Editor.start prompt completion compPos) Cursor.empty where
  reading := rfl
  pos := rfl
  length := rfl
  fits := by decide
  line := rfl
  clean := List.not_mem_nil

theorem shows_iff : Shows e z ↔ Fills e z ∧ z.text.length < lineSize := by
  simp only [Cursor.text, List.length_append]
  constructor
  · intro h
    refine ⟨⟨h.reading, ?_, h.pos, h.length, ?_, h.clean⟩, h.fits⟩
    · rw [Cursor.text, List.length_append]
      exact Nat.le_of_lt h.fits
    · rw [Cursor.text, List.length_append]
      exact h.line
  · rintro ⟨h, hlt⟩
    have hline := h.stores.line
    rw [Cursor.text, List.length_append] at hline
    exact ⟨h.reading, h.stores.pos, h.stores.length, hlt, hline, h.stores.clean⟩

theorem Shows.fills (h : Shows e z) : Fills e z := (shows_iff.mp h).1

theorem Fills.congr (h : Fills e z) (hreading : e'.reading = .key) (hpos : e'.pos = e.pos)
    (hlength : e'.length = e.length) (hline : e'.line = e.line) : Fills e' z :=
  ⟨hreading, h.fits, h.stores.congr hpos hlength hline⟩

/-! ## What a key does -/

theorem Fills.insert (h : Fills e ⟨before, after⟩) {hc : c ∉ controls}
    (hroom : Cursor.Roomy ⟨before, after⟩ (.insert c hc)) :
    ∃ e', e.insert c = .ok e' ∧ Fills e' ⟨before ++ [c], after⟩ := by
  have hnul : c ≠ nul := by
    rintro rfl
    exact hc (by decide)
  have hcount : (before ++ [c] ++ after).length = (before ++ after).length + 1 := by
    simp only [List.length_append, List.length_singleton]
    omega
  have hstores : Stores e before after (zeros (before ++ after).length) := h.stores
  simp only [Cursor.Roomy, Cursor.text] at hroom
  by_cases hafter : after = []
  · subst hafter
    rw [if_pos rfl] at hroom
    rw [zeros_eq_cons hroom] at hstores
    obtain ⟨e', he', hreading, hnext⟩ := hstores.append hnul
    refine ⟨e', he', hreading.trans h.reading, ?_, ?_⟩
    · rw [Cursor.text, hcount]
      exact hroom
    · rwa [Cursor.text, hcount]
  · rw [if_neg hafter] at hroom
    have hlt : (before ++ after).length < lineSize := Nat.lt_of_succ_lt hroom
    rw [zeros_eq_cons hlt, zeros_eq_cons hroom] at hstores
    obtain ⟨e', he', hreading, hnext⟩ := hstores.insert hafter hnul
    refine ⟨e', he', hreading.trans h.reading, ?_, ?_⟩
    · rw [Cursor.text, hcount]
      exact hlt
    · rwa [Cursor.text, hcount, zeros_eq_cons hroom]

theorem Fills.backspace (h : Fills e ⟨before, after⟩)
    (hroom : Cursor.Roomy ⟨before, after⟩ .backspace) :
    ∃ e', e.backspace = .ok e' ∧ Fills e' ⟨before.dropLast, after⟩ := by
  obtain ⟨e', he', hreading, hnext⟩ := h.stores.backspace
    fun hbefore hafter => ⟨_, zeros_eq_cons (hroom hbefore hafter)⟩
  refine ⟨e', he', hreading.trans h.reading, ?_, ?_⟩
  · have hle : (before ++ after).length ≤ lineSize := h.fits
    simp only [Cursor.text, List.length_append, List.length_dropLast] at hle ⊢
    omega
  · cases before using List.reverseRecOn with
    | nil => exact hnext
    | append_singleton before x =>
        have hcount : (before ++ [x] ++ after).length = (before ++ after).length + 1 := by
          simp only [List.length_append, List.length_singleton]
          omega
        have hlt : (before ++ after).length < lineSize := by
          have hle : (before ++ [x] ++ after).length ≤ lineSize := h.fits
          omega
        simp only [Cursor.text, hcount, ← zeros_eq_cons hlt, List.append_eq_nil_iff,
          List.cons_ne_self, and_false, List.dropLast_concat, if_false] at hnext ⊢
        exact hnext

theorem Cursor.text_left (z : Cursor) : (z.press .left).text = z.text := by
  obtain ⟨before, after⟩ := z
  cases before using List.reverseRecOn with
  | nil => rfl
  | append_singleton before x => simp [press, text]

theorem Cursor.text_right (z : Cursor) : (z.press .right).text = z.text := by
  obtain ⟨before, after⟩ := z
  cases after with
  | nil => simp [press, text]
  | cons a after => simp [press, text]

theorem Fills.left (h : Fills e z) : Fills e.left (z.press .left) := by
  refine ⟨?_, ?_, ?_⟩
  · unfold Editor.left
    split <;> exact h.reading
  · rw [Cursor.text_left]
    exact h.fits
  · rw [Cursor.text_left]
    exact h.stores.left

theorem Fills.right (h : Fills e z) : ∃ e', e.right = .ok e' ∧ Fills e' (z.press .right) := by
  obtain ⟨e', he', hreading, hnext⟩ := h.stores.right
  refine ⟨e', he', hreading.trans h.reading, ?_, ?_⟩
  · rw [Cursor.text_right]
    exact h.fits
  · rw [Cursor.text_right]
    exact hnext

/-! ## Keys as bytes -/

private theorem getLine_again (h : e.step complete c = .ok (.again e')) (input : List Char) :
    getLine complete e (c :: input) = getLine complete e' input := by
  rw [getLine, h]

private theorem getLine_map {r : Except Stuck Editor} (h : e.step complete c = r.map .again)
    (input : List Char) :
    getLine complete e (c :: input) = (r >>= fun e' => getLine complete e' input) := by
  rw [getLine, h]
  cases r <;> rfl

theorem step_rubout (complete : CStr → Nat → Except Stuck CStr) (h : e.reading = .key) :
    e.step complete rubout = { e with completion := false }.backspace.map .again := by
  rw [Editor.step, h]
  rfl

theorem step_escape (complete : CStr → Nat → Except Stuck CStr) (h : e.reading = .key) :
    e.step complete escape =
      .ok (.again { { e with completion := false } with reading := .escape }) := by
  rw [Editor.step, h]
  rfl

theorem step_return (complete : CStr → Nat → Except Stuck CStr) (h : e.reading = .key) :
    e.step complete '\n' = { e with completion := false }.enter.map
      fun line => .returned line ({ e with completion := false }.say ['\n']) := by
  rw [Editor.step, h]
  rfl

theorem step_symbol (complete : CStr → Nat → Except Stuck CStr) (h : e.reading = .key)
    (hc : c ∉ controls.tail) :
    e.step complete c = ({ e with completion := false }.insert c).map .again := by
  simp only [controls, List.tail_cons, List.mem_cons, List.not_mem_nil, or_false, not_or] at hc
  obtain ⟨hinterrupt, hend, htab, hreturn, hescape, hrubout⟩ := hc
  rw [Editor.step, h]
  simp only [if_neg htab, if_neg hrubout, if_neg hescape, if_neg hinterrupt, if_neg hend,
    if_neg hreturn]

theorem getLine_symbol (complete : CStr → Nat → Except Stuck CStr) (h : e.reading = .key)
    (hc : c ∉ controls.tail) (input : List Char) :
    getLine complete e (c :: input) =
      ({ e with completion := false }.insert c >>= fun e' => getLine complete e' input) :=
  getLine_map (step_symbol complete h hc) input

theorem getLine_rubout (complete : CStr → Nat → Except Stuck CStr) (h : e.reading = .key)
    (input : List Char) :
    getLine complete e (Key.backspace.bytes ++ input) =
      ({ e with completion := false }.backspace >>= fun e' => getLine complete e' input) :=
  getLine_map (step_rubout complete h) input

theorem getLine_return (complete : CStr → Nat → Except Stuck CStr) (h : e.reading = .key)
    (rest : List Char) :
    getLine complete e ('\n' :: rest) = { e with completion := false }.enter.map fun line =>
      .returned line ({ e with completion := false }.say ['\n']) rest := by
  rw [getLine, step_return complete h]
  cases { e with completion := false }.enter <;> rfl

theorem getLine_left (complete : CStr → Nat → Except Stuck CStr) (h : e.reading = .key)
    (input : List Char) :
    getLine complete e (Key.left.bytes ++ input) =
      getLine complete { e with completion := false, reading := .key }.left input := by
  apply (getLine_again (step_escape complete h) _).trans
  apply (getLine_again rfl _).trans
  apply getLine_again
  rfl

theorem getLine_right (complete : CStr → Nat → Except Stuck CStr) (h : e.reading = .key)
    (input : List Char) :
    getLine complete e (Key.right.bytes ++ input) =
      ({ e with completion := false, reading := .key }.right >>=
        fun e' => getLine complete e' input) := by
  apply (getLine_again (step_escape complete h) _).trans
  apply (getLine_again rfl _).trans
  exact getLine_map rfl input

theorem getLine_ignored (complete : CStr → Nat → Except Stuck CStr) (h : e.reading = .key)
    {key : Key} (hkey : (∃ c hc, key = .alt c hc) ∨ ∃ c hc, key = .other c hc)
    (input : List Char) :
    getLine complete e (key.bytes ++ input) =
      getLine complete { e with completion := false, reading := .key } input := by
  rcases hkey with ⟨c, hc, rfl⟩ | ⟨c, hc, rfl⟩
  · apply (getLine_again (step_escape complete h) _).trans
    apply getLine_again
    rw [Editor.step]
    simp only [if_neg hc]
  · apply (getLine_again (step_escape complete h) _).trans
    apply (getLine_again rfl _).trans
    apply getLine_again
    rw [Editor.step]
    simp [hc.1, hc.2]

theorem Fills.endCompletion (h : Fills e z) : Fills { e with completion := false } z :=
  h.congr h.reading rfl rfl rfl

theorem Fills.afterEscape (h : Fills e z) :
    Fills { e with completion := false, reading := .key } z :=
  h.congr rfl rfl rfl rfl

/-- A key for which there is room does to the text what it does to the abstract editor. -/
theorem Fills.press (h : Fills e z) (complete : CStr → Nat → Except Stuck CStr) (key : Key)
    (hroom : z.Roomy key) :
    ∃ e', Fills e' (z.press key) ∧
      ∀ input, getLine complete e (key.bytes ++ input) = getLine complete e' input := by
  cases key with
  | insert c hc =>
      obtain ⟨f, hf, hnext⟩ := h.endCompletion.insert hroom
      refine ⟨f, hnext, fun input => ?_⟩
      apply (getLine_symbol complete h.reading (fun hmem => hc (List.mem_of_mem_tail hmem)) _).trans
      rw [hf]
      rfl
  | backspace =>
      obtain ⟨f, hf, hnext⟩ := h.endCompletion.backspace hroom
      refine ⟨f, hnext, fun input => ?_⟩
      rw [getLine_rubout complete h.reading, hf]
      rfl
  | left => exact ⟨_, h.afterEscape.left, getLine_left complete h.reading⟩
  | right =>
      obtain ⟨f, hf, hnext⟩ := h.afterEscape.right
      refine ⟨f, hnext, fun input => ?_⟩
      rw [getLine_right complete h.reading, hf]
      rfl
  | alt c hc =>
      exact ⟨_, h.afterEscape, getLine_ignored complete h.reading (.inl ⟨c, hc, rfl⟩)⟩
  | other c hc =>
      exact ⟨_, h.afterEscape, getLine_ignored complete h.reading (.inr ⟨c, hc, rfl⟩)⟩

private theorem Cursor.roomy_of_lt {key : Key} (hz : z.text.length < lineSize)
    (hfit : (z.press key).text.length < lineSize) : z.Roomy key := by
  cases key with
  | insert c hc =>
      have hnext : z.text.length + 1 < lineSize := by
        simp only [press, text, List.length_append, List.length_singleton] at hfit ⊢
        omega
      rw [Roomy]
      split
      · exact hz
      · exact hnext
  | backspace => exact fun _ _ => hz
  | left | right | alt _ _ | other _ _ => trivial

theorem Shows.press (h : Shows e z) (complete : CStr → Nat → Except Stuck CStr) (key : Key)
    (hfit : (z.press key).text.length < lineSize) :
    ∃ e', Shows e' (z.press key) ∧
      ∀ input, getLine complete e (key.bytes ++ input) = getLine complete e' input := by
  obtain ⟨hfills, hlt⟩ := shows_iff.mp h
  obtain ⟨e', hnext, hkey⟩ := hfills.press complete key (Cursor.roomy_of_lt hlt hfit)
  exact ⟨e', shows_iff.mpr ⟨hnext, hfit⟩, hkey⟩

theorem getLine_pressAll {I : Editor → Cursor → Prop} {P : Key → Prop}
    (hstep : ∀ e z key, I e z → P key → (z.press key).text.length < lineSize →
      ∃ e', I e' (z.press key) ∧
        ∀ input, getLine complete e (key.bytes ++ input) = getLine complete e' input)
    (h : I e z) {keys : List Key} (hkeys : ∀ key ∈ keys, P key)
    (hfit : ∀ front, front <+: keys → (z.pressAll front).text.length < lineSize) :
    ∃ e', I e' (z.pressAll keys) ∧
      ∀ input, getLine complete e (keys.flatMap Key.bytes ++ input) =
        getLine complete e' input := by
  induction keys generalizing e z with
  | nil => exact ⟨e, h, fun input => rfl⟩
  | cons key keys ih =>
      have hfirst := hfit [key] (by simp)
      obtain ⟨f, hf, hkey⟩ := hstep e z key h (hkeys key List.mem_cons_self) hfirst
      have hothers : ∀ k ∈ keys, P k := fun k hk => hkeys k (List.mem_cons_of_mem key hk)
      have hrest : ∀ front, front <+: keys →
          ((z.press key).pressAll front).text.length < lineSize := by
        intro front hfront
        exact hfit (key :: front) ((List.cons_prefix_cons).mpr ⟨rfl, hfront⟩)
      obtain ⟨e', he', hread⟩ := ih hf hothers hrest
      refine ⟨e', he', fun input => ?_⟩
      rw [List.flatMap_cons, List.append_assoc, hkey, hread]

theorem Shows.pressAll (h : Shows e z) (complete : CStr → Nat → Except Stuck CStr)
    (keys : List Key)
    (hfit : ∀ front, front <+: keys → (z.pressAll front).text.length < lineSize) :
    ∃ e', Shows e' (z.pressAll keys) ∧
      ∀ input, getLine complete e (keys.flatMap Key.bytes ++ input) =
        getLine complete e' input := by
  apply getLine_pressAll (P := fun _ => True) _ h (fun _ _ => trivial) hfit
  exact fun e z key h _ hfit => h.press complete key hfit

private theorem Cursor.press_length (z : Cursor) (key : Key) :
    (z.press key).text.length ≤ z.text.length + 1 := by
  obtain ⟨before, after⟩ := z
  cases key with
  | insert c _ =>
      simp [text, press]
      omega
  | backspace =>
      simp [text, press]
      omega
  | left =>
      cases before using List.reverseRecOn <;> simp [text, press]
  | right =>
      cases after <;> simp [text, press]
  | alt c _ => exact Nat.le_succ _
  | other c _ => exact Nat.le_succ _

theorem Cursor.pressAll_length (z : Cursor) (keys : List Key) :
    (z.pressAll keys).text.length ≤ z.text.length + keys.length := by
  induction keys generalizing z with
  | nil => exact Nat.le_refl _
  | cons key keys ih =>
      have hfirst := z.press_length key
      have hrest := ih (z.press key)
      rw [List.length_cons]
      change ((z.press key).pressAll keys).text.length ≤ _
      omega

theorem Fills.enter (h : Fills e z) (hroom : z.text.length < lineSize) :
    ∃ rest, e.enter =
      .ok (z.text.map (fun c => if c = '\n' ∨ c = '\r' then ' ' else c) ++ nul :: rest) := by
  have hlen : e.length = z.text.length := by
    rw [h.stores.length, Cursor.text, List.length_append]
  have hline : e.line = z.text ++ nul :: zeros (z.text.length + 1) := by
    rw [h.stores.line, zeros_eq_cons hroom, Cursor.text, List.append_assoc]
  have hwrite := poke_append z.text nul nul (zeros (z.text.length + 1))
  refine ⟨zeros (z.text.length + 1), ?_⟩
  rw [Editor.enter, hline, hlen, hwrite]
  change Except.ok _ = _
  rw [List.take_left, List.drop_left]

theorem Cursor.press_line {p : Char → Prop} {key : Key} (hp : ∀ c h, key = .insert c h → p c)
    (hz : ∀ c ∈ z.text, p c) : ∀ c ∈ (z.press key).text, p c := by
  obtain ⟨before, after⟩ := z
  simp only [text, List.mem_append] at hz
  intro c hc
  cases key with
  | insert d hd =>
      simp only [text, press, List.mem_append, List.mem_singleton] at hc
      rcases hc with (hc | rfl) | hc
      · exact hz c (Or.inl hc)
      · exact hp c hd rfl
      · exact hz c (Or.inr hc)
  | backspace =>
      simp only [text, press, List.mem_append] at hc
      exact hz c (hc.imp_left fun hmem => List.dropLast_subset _ hmem)
  | left =>
      simp only [text, press, List.mem_append, Option.mem_toList] at hc
      rcases hc with hc | hc | hc
      · exact hz c (Or.inl (List.dropLast_subset _ hc))
      · exact hz c (Or.inl (List.mem_of_getLast? hc))
      · exact hz c (Or.inr hc)
  | right =>
      simp only [text, press, List.mem_append, Option.mem_toList] at hc
      rcases hc with (hc | hc) | hc
      · exact hz c (Or.inl hc)
      · exact hz c (Or.inr (List.mem_of_head? hc))
      · exact hz c (Or.inr (List.mem_of_mem_tail hc))
  | alt d hd => exact hz c (List.mem_append.mp hc)
  | other d hd => exact hz c (List.mem_append.mp hc)

theorem Cursor.pressAll_line {p : Char → Prop} (hp : ∀ c, c ∉ controls → p c)
    (hz : ∀ c ∈ z.text, p c) (keys : List Key) : ∀ c ∈ (z.pressAll keys).text, p c := by
  induction keys generalizing z with
  | nil => exact hz
  | cons key keys ih => exact ih (press_line (fun c h _ => hp c h) hz)

end

/-- `get_line` refines the abstract editor: it returns its text, with blanks for the carriage
returns, as long as the text fits the buffer. -/
theorem get_line_refines_cursor (complete : CStr → Nat → Except Stuck CStr) (prompt : CStr)
    (completion : Bool) (compPos : Nat) (keys : List Key)
    (hfit : ∀ front, front <+: keys → (Cursor.empty.pressAll front).text.length < lineSize)
    (rest : List Char) :
    ∃ line e, getLine complete (Editor.start prompt completion compPos)
        (keys.flatMap Key.bytes ++ '\n' :: rest) = .ok (.returned line e rest) ∧
      cString line =
        (Cursor.empty.pressAll keys).text.map fun c => if c = '\r' then ' ' else c := by
  obtain ⟨e, he, hkeys⟩ :=
    (Shows.start prompt completion compPos).pressAll complete keys hfit
  obtain ⟨hfills, hroom⟩ := shows_iff.mp he
  obtain ⟨zeroed, henter⟩ := hfills.endCompletion.enter hroom
  have hends : ∀ c ∈ (Cursor.empty.pressAll keys).text, c ≠ '\n' := by
    refine Cursor.pressAll_line (fun c hc => ?_) (by simp [Cursor.empty, Cursor.text]) keys
    rintro rfl
    exact hc (by decide)
  have hmap : (Cursor.empty.pressAll keys).text.map
      (fun c => if c = '\n' ∨ c = '\r' then ' ' else c) =
      (Cursor.empty.pressAll keys).text.map fun c => if c = '\r' then ' ' else c := by
    apply List.map_congr_left
    intro c hc
    simp only [hends c hc, false_or]
  have hclean : nul ∉ (Cursor.empty.pressAll keys).text.map
      fun c => if c = '\r' then ' ' else c := by
    intro hmem
    obtain ⟨c, hc, hnul⟩ := List.mem_map.mp hmem
    split at hnul
    · exact absurd hnul (by decide)
    · exact he.clean (hnul ▸ hc)
  rw [hmap] at henter
  have hrun : getLine complete e ('\n' :: rest) = .ok (.returned
      ((Cursor.empty.pressAll keys).text.map (fun c => if c = '\r' then ' ' else c) ++
        nul :: zeroed)
      ({ e with completion := false }.say ['\n']) rest) := by
    rw [getLine, step_return complete he.reading, henter]
    rfl
  refine ⟨_, _, (hkeys _).trans hrun, ?_⟩
  have hstring := stringAt_append hclean [] zeroed
  rw [stringAt] at hstring
  split at hstring
  · exact Except.ok.inj hstring
  · cases hstring

/-- The cursor moves before the `b`, a `c` and a carriage return push the `b` on, and a backspace
takes the carriage return back. -/
theorem get_line_refines_cursor_middle :
    ∃ line e, getLine (fun pre _ => .ok pre) (Editor.start ['%', ' '] false 0)
        ['a', 'b', escape, '[', 'D', 'c', '\r', rubout, escape, 'x', '\n'] =
          .ok (.returned line e []) ∧ cString line = ['a', 'c', 'b'] := by
  refine get_line_refines_cursor (fun pre _ => .ok pre) ['%', ' '] false 0
    [.insert 'a' (by decide), .insert 'b' (by decide), .left, .insert 'c' (by decide),
      .insert '\r' (by decide), .backspace, .alt 'x' (by decide)] (fun front hfront => ?_) []
  have hlen := Cursor.pressAll_length Cursor.empty front
  have hkeys := hfront.length_le
  have hempty : Cursor.empty.text.length = 0 := rfl
  have hsize : 7 < lineSize := by decide
  simp only [List.length_cons, List.length_nil] at hkeys
  omega

end SyssoftLabs.Lab4
