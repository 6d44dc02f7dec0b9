import Mathlib.Data.List.GetD
import SyssoftLabs.Lab4.Editor.Cursor

/-!
# The line on the screen

Every key is answered by text, blanks and backspaces. On a row of the terminal they leave the prompt
and the text of the line, with the cursor where the editor has it.
-/

namespace SyssoftLabs.Lab4

open SyssoftLabs.Framework

/-! ## A row of a terminal -/

/-- How much of `ESC [ 3 ~` has come. -/
inductive Sequence
  | text
  | escape
  | bracket
  | digit
deriving DecidableEq, Repr

/-- A row without ends, and a cursor. -/
structure Terminal where
  cells : Int → Char
  column : Int
  sequence : Sequence

def isPrintable (c : Char) : Bool := 0x20 ≤ c.toNat && c.toNat ≤ 0x7e

namespace Terminal

def blank : Terminal := ⟨fun _ => ' ', 0, .text⟩

/-- A printable byte overwrites the cell, `\b` moves left, and `ESC [ 3 ~` does nothing. -/
def receive (t : Terminal) (c : Char) : Terminal :=
  match t.sequence with
  | .text =>
      if c = Lab4.escape then { t with sequence := .escape }
      else if c = Lab4.back then { t with column := t.column - 1 }
      else if isPrintable c then
        { t with cells := Function.update t.cells t.column c, column := t.column + 1 }
      else t
  | .escape => { t with sequence := if c = '[' then .bracket else .text }
  | .bracket => { t with sequence := if c = '3' then .digit else .text }
  | .digit => { t with sequence := .text }

def display (t : Terminal) (out : List Char) : Terminal := out.foldl receive t

/-- The row shows the text and is blank behind it, and before it. -/
structure Displays (t : Terminal) (text : List Char) (column : Nat) : Prop where
  cells : ∀ i : Nat, t.cells i = text.getD i ' '
  margin : ∀ i : Int, i < 0 → t.cells i = ' '
  column : t.column = column
  sequence : t.sequence = .text

variable {t : Terminal} {text front rest out out' : List Char} {column : Nat} {c : Char}

private theorem display_append (t : Terminal) (out out' : List Char) :
    t.display (out ++ out') = (t.display out).display out' := List.foldl_append

private theorem blank_displays : blank.Displays [] 0 where
  cells i := by simp [blank]
  margin i _ := rfl
  column := rfl
  sequence := rfl

private theorem printable_ne (h : isPrintable c = true) : c ≠ Lab4.escape ∧ c ≠ Lab4.back := by
  constructor
  · rintro rfl
    exact absurd h (by decide)
  · rintro rfl
    exact absurd h (by decide)

theorem Displays.put (h : t.Displays (front ++ rest) front.length) (hc : isPrintable c = true) :
    (t.receive c).Displays (front ++ c :: rest.tail) (front.length + 1) := by
  obtain ⟨hescape, hback⟩ := printable_ne hc
  have hreceive : t.receive c =
      { t with cells := Function.update t.cells t.column c, column := t.column + 1 } := by
    rw [receive, h.sequence]
    simp [hescape, hback, hc]
  rw [hreceive]
  refine ⟨fun i => ?_, fun i hi => ?_, by simp [h.column], h.sequence⟩
  · change Function.update t.cells t.column c i = _
    rw [h.column, Function.update_apply, h.cells]
    rcases Nat.lt_trichotomy i front.length with hi | rfl | hi
    · rw [if_neg (by omega), List.getD_append _ _ _ _ hi, List.getD_append _ _ _ _ hi]
    · rw [if_pos rfl, List.getD_append_right _ _ _ _ (Nat.le_refl _), Nat.sub_self]
      rfl
    · obtain ⟨k, rfl⟩ := Nat.exists_eq_add_of_lt hi
      rw [if_neg (by omega), List.getD_append_right _ _ _ _ (by omega),
        List.getD_append_right _ _ _ _ (by omega), Nat.add_assoc, Nat.add_sub_cancel_left]
      cases rest <;> rfl
  · change Function.update t.cells t.column c i = _
    rw [h.column, Function.update_of_ne (by omega)]
    exact h.margin i hi

theorem Displays.write (h : t.Displays (front ++ rest) front.length)
    (hout : ∀ c ∈ out, isPrintable c = true) :
    (t.display out).Displays (front ++ out ++ rest.drop out.length) (front ++ out).length := by
  induction out generalizing t front rest with
  | nil => simpa [display] using h
  | cons c out ih =>
      have hput := h.put (hout c List.mem_cons_self)
      have hfront : (front ++ [c]).length = front.length + 1 := by
        rw [List.length_append, List.length_singleton]
      rw [List.append_cons, ← hfront] at hput
      have hnext := ih hput fun d hd => hout d (List.mem_cons_of_mem c hd)
      rw [List.drop_tail, ← List.append_cons] at hnext
      exact hnext

theorem Displays.back {n : Nat} (h : t.Displays text (column + n)) :
    (t.display (List.replicate n Lab4.back)).Displays text column := by
  induction n generalizing t with
  | zero => exact h
  | succ n ih =>
      have hmove : t.receive Lab4.back = { t with column := t.column - 1 } := by
        rw [receive, h.sequence]
        rfl
      apply ih
      rw [hmove]
      refine ⟨h.cells, h.margin, ?_, h.sequence⟩
      change t.column - 1 = _
      rw [h.column]
      omega

theorem Displays.blanks {n : Nat} (h : t.Displays (text ++ List.replicate n ' ') column) :
    t.Displays text column := by
  refine ⟨fun i => ?_, h.margin, h.column, h.sequence⟩
  rw [h.cells]
  rcases Nat.lt_or_ge i text.length with hi | hi
  · rw [List.getD_append _ _ _ _ hi]
  · rw [List.getD_append_right _ _ _ _ hi, List.getD_eq_default _ _ hi]
    simp

private theorem Displays.ignored (h : t.Displays text column) :
    (t.display [Lab4.escape, '[', '3', '~']).Displays text column := by
  obtain ⟨cells, column, sequence⟩ := t
  obtain rfl : sequence = .text := h.sequence
  exact h

private theorem Displays.closeUp {x : Char} (h : t.Displays (front ++ x :: rest) front.length)
    (hrest : ∀ c ∈ rest, isPrintable c = true) (k : Nat) :
    (t.display (rest ++ List.replicate (k + 1) ' ' ++
      List.replicate (rest.length + (k + 1)) Lab4.back)).Displays (front ++ rest) front.length := by
  have hout : ∀ c ∈ rest ++ List.replicate (k + 1) ' ', isPrintable c = true := by
    intro c hc
    rcases List.mem_append.mp hc with hc | hc
    · exact hrest c hc
    · rw [List.eq_of_mem_replicate hc]
      decide
  have hwrite := h.write hout
  have hdrop : (x :: rest).drop (rest ++ List.replicate (k + 1) ' ').length = [] := by
    apply List.drop_eq_nil_of_le
    simp
  rw [hdrop, List.append_nil, ← List.append_assoc] at hwrite
  rw [display_append]
  apply Displays.back
  have hshown := hwrite.blanks
  simp only [List.length_append, List.length_replicate, Nat.add_assoc] at hshown
  exact hshown

end Terminal

/-! ## The answer to a key -/

/-- What the editor of a text with a cursor writes for a key. -/
def Cursor.echo (z : Cursor) : Key → List Char
  | .insert c _ => c :: z.after ++ List.replicate z.after.length back
  | .backspace =>
      if z.before = [] then []
      else if z.after = [] then [back, ' ', back]
      else back :: (z.after ++ [' ', ' ']) ++ List.replicate (z.after.length + 2) back
  | .left => if z.before = [] then [] else [back]
  | .right => (z.after.head?.toList).flatMap fun c => [escape, '[', '3', '~', c]
  | .alt _ _ | .other _ _ => []

section

variable {e e' : Editor} {z : Cursor} {before after tail rest : List Char} {c : Char}
  {complete : CStr → Nat → Except Stuck CStr}

private theorem getLine_bind_nil {x : Except Stuck Editor}
    (h : (x >>= fun e => getLine complete e []) = .ok (.reading e')) : x = .ok e' := by
  cases x with
  | error stuck => cases h
  | ok f =>
      cases h
      rfl

private theorem Editor.backspace_out (h : e.backspace = .ok e') :
    (e.pos = 0 → e'.out = e.out) ∧
      (e.pos ≠ 0 → e.pos = e.length → e'.out = e.out ++ [back, ' ', back]) ∧
      (e.pos ≠ 0 → e.pos ≠ e.length → ∃ tail, between e.line e.pos e.length = .ok tail ∧
        e'.out = e.out ++ (back :: tail ++ [' ', ' ']) ++
          List.replicate (e.length + 2 - e.pos) back) := by
  unfold Editor.backspace at h
  refine ⟨fun hstart => ?_, fun hstart hend => ?_, fun hstart hend => ?_⟩
  · rw [if_pos hstart] at h
    cases h
    rfl
  · rw [if_neg hstart, if_pos hend] at h
    cases hline : poke e.line (e.pos - 1) nul <;> rw [hline] at h <;> cases h
    rfl
  · rw [if_neg hstart, if_neg hend] at h
    cases htail : between e.line e.pos e.length with
    | error stuck =>
        rw [htail] at h
        cases h
    | ok tail =>
        rw [htail, bind_of_ok rfl] at h
        cases hline : strshl e.line e.pos 1 <;> rw [hline] at h <;> cases h
        exact ⟨tail, rfl, rfl⟩

private theorem Stores.insert_out (h : Stores e before after tail)
    (hnext : Stores e' (before ++ [c]) after (nul :: rest)) (hinsert : e.insert c = .ok e') :
    e'.out = e.out ++ (c :: after ++ List.replicate after.length back) := by
  have hline : e'.line = before ++ (c :: after ++ nul :: rest) := by simp [hnext.line]
  have hclean : nul ∉ c :: after := by
    have hnul := hnext.clean
    simp only [List.mem_append, List.mem_cons, not_or] at hnul ⊢
    exact ⟨hnul.1.2.1, hnul.2⟩
  obtain ⟨-, ⟨hend, hout⟩ | ⟨hend, shown, hshown, hout⟩⟩ := Editor.insert_cases hinsert
  · obtain rfl : after = [] := h.atEnd.mp hend
    rw [hout, cString_of_notMem hclean]
    rfl
  · have hcount : e.length - e.pos = after.length := by
      rw [h.length, h.pos, Nat.add_sub_cancel_left]
    rw [hline, h.pos, stringAt_append hclean] at hshown
    cases hshown
    rw [hout, hcount, List.append_assoc]

private theorem Stores.backspace_out (h : Stores e before after tail)
    (hback : e.backspace = .ok e') :
    e'.out = e.out ++ Cursor.echo ⟨before, after⟩ .backspace := by
  obtain ⟨hstart, hend, hinside⟩ := Editor.backspace_out hback
  rw [Cursor.echo]
  by_cases hbefore : before = []
  · rw [hstart (h.atStart.mpr hbefore), if_pos hbefore, List.append_nil]
  rw [if_neg hbefore]
  by_cases hafter : after = []
  · rw [hend (h.atStart.not.mpr hbefore) (h.atEnd.mpr hafter), if_pos hafter]
  · obtain ⟨shown, hshown, hout⟩ := hinside (h.atStart.not.mpr hbefore) (h.atEnd.not.mpr hafter)
    have hcount : e.length - e.pos = after.length := by
      rw [h.length, h.pos, Nat.add_sub_cancel_left]
    have hcount' : e.length + 2 - e.pos = after.length + 2 := by
      rw [h.length, h.pos, Nat.add_assoc, Nat.add_sub_cancel_left]
    have hle : e.length ≤ e.line.length := by
      rw [h.line_length]
      exact Nat.le_add_right _ _
    rw [between, if_pos hle, h.line, h.pos, List.drop_left, ← h.pos, hcount,
      List.take_left] at hshown
    cases hshown
    rw [hout, hcount', if_neg hafter, List.append_assoc, List.cons_append]

private theorem Stores.right_out (h : Stores e before after tail) (hright : e.right = .ok e') :
    e'.out = e.out ++ Cursor.echo ⟨before, after⟩ .right := by
  unfold Editor.right at hright
  cases after with
  | nil =>
      rw [if_pos (h.atEnd.mpr rfl)] at hright
      cases hright
      exact (List.append_nil _).symm
  | cons a after =>
      have hread := peek_append before a (after ++ tail)
      rw [← List.cons_append, ← h.line, ← h.pos] at hread
      rw [if_neg (h.atEnd.not.mpr (List.cons_ne_nil a after)), hread] at hright
      cases hright
      rfl

private theorem Stores.left_out (h : Stores e before after tail) :
    e.left.out = e.out ++ Cursor.echo ⟨before, after⟩ .left := by
  rw [Editor.left, Cursor.echo]
  by_cases hbefore : before = []
  · rw [if_pos (h.atStart.mpr hbefore), if_pos hbefore, List.append_nil]
  · rw [if_neg (h.atStart.not.mpr hbefore), if_neg hbefore]
    rfl

private theorem Shows.press_out (h : Shows e z) {key : Key} (hnext : Shows e' (z.press key))
    (hkey : getLine complete e key.bytes = .ok (.reading e')) : e'.out = e.out ++ z.echo key := by
  rw [← List.append_nil key.bytes] at hkey
  have htop := h.fills.endCompletion.stores
  have hsequence := h.fills.afterEscape.stores
  cases key with
  | insert c hc =>
      obtain ⟨hfills, hlt⟩ := shows_iff.mp hnext
      have hstores := hfills.stores
      rw [zeros_eq_cons hlt] at hstores
      have hinsert := getLine_symbol complete h.reading
        (fun hmem => hc (List.mem_of_mem_tail hmem)) []
      exact htop.insert_out hstores (getLine_bind_nil (hinsert.symm.trans hkey))
  | backspace =>
      have hback := getLine_rubout complete h.reading []
      exact htop.backspace_out (getLine_bind_nil (hback.symm.trans hkey))
  | left =>
      have hleft := getLine_left complete h.reading []
      cases hleft.symm.trans hkey
      exact hsequence.left_out
  | right =>
      have hright := getLine_right complete h.reading []
      exact hsequence.right_out (getLine_bind_nil (hright.symm.trans hkey))
  | alt c hc =>
      have hignored := getLine_ignored complete h.reading (.inl ⟨c, hc, rfl⟩) []
      cases hignored.symm.trans hkey
      exact (List.append_nil _).symm
  | other c hc =>
      have hignored := getLine_ignored complete h.reading (.inr ⟨c, hc, rfl⟩) []
      cases hignored.symm.trans hkey
      exact (List.append_nil _).symm

end

/-! ## The row after a key -/

section

variable {t : Terminal} {prompt : List Char} {z : Cursor} {key : Key}

/-- The row shows the prompt and the text, with the cursor of the terminal at the cursor. -/
def Cursor.OnRow (z : Cursor) (prompt : List Char) (t : Terminal) : Prop :=
  t.Displays (prompt ++ z.text) (prompt ++ z.before).length

/-- The keys that are a printable byte, a backspace, or a left or right arrow. -/
def Key.IsEdit : Key → Prop
  | .insert c _ => isPrintable c = true
  | .backspace | .left | .right => True
  | .alt _ _ | .other _ _ => False

theorem Cursor.OnRow.insert (h : z.OnRow prompt t) (hz : ∀ c ∈ z.text, isPrintable c = true)
    {c : Char} (hc : c ∉ controls) (hprint : isPrintable c = true) :
    (z.press (.insert c hc)).OnRow prompt (t.display (z.echo (.insert c hc))) := by
  obtain ⟨before, after⟩ := z
  have hrow : t.Displays ((prompt ++ before) ++ after) (prompt ++ before).length := by
    rw [List.append_assoc]
    exact h
  have hout : ∀ d ∈ c :: after, isPrintable d = true := by
    intro d hd
    rcases List.mem_cons.mp hd with rfl | hd
    · exact hprint
    · exact hz d (List.mem_append_right _ hd)
  have hwrite := hrow.write hout
  rw [List.length_cons, List.drop_eq_nil_of_le (Nat.le_succ _), List.append_nil] at hwrite
  rw [Cursor.echo, Terminal.display_append]
  apply Terminal.Displays.back
  simpa [Cursor.press, Cursor.text, Nat.add_assoc, Nat.add_comm, Nat.add_left_comm] using hwrite

theorem Cursor.OnRow.backspace (h : z.OnRow prompt t) (hz : ∀ c ∈ z.text, isPrintable c = true) :
    (z.press .backspace).OnRow prompt (t.display (z.echo .backspace)) := by
  obtain ⟨before, after⟩ := z
  cases before using List.reverseRecOn with
  | nil => exact h
  | append_singleton before x =>
      have hafter : ∀ c ∈ after, isPrintable c = true :=
        fun c hc => hz c (List.mem_append_right _ hc)
      have hrow :
          t.Displays ((prompt ++ before) ++ x :: after) ((prompt ++ before).length + 1) := by
        simpa [Cursor.OnRow, Cursor.text, Nat.add_assoc] using h
      have hback : (t.display [back]).Displays ((prompt ++ before) ++ x :: after)
          (prompt ++ before).length := Terminal.Displays.back hrow
      have hnext : ∀ k, (Cursor.press ⟨before ++ [x], after⟩ .backspace).OnRow prompt
          (t.display ([back] ++ (after ++ List.replicate (k + 1) ' ' ++
            List.replicate (after.length + (k + 1)) back))) := by
        intro k
        rw [Terminal.display_append, Cursor.OnRow, Cursor.press, Cursor.text, List.dropLast_concat,
          ← List.append_assoc]
        exact hback.closeUp hafter k
      have hbefore : before ++ [x] ≠ [] :=
        List.append_ne_nil_of_right_ne_nil before (List.cons_ne_nil x [])
      rw [Cursor.echo, if_neg hbefore]
      split
      · next hnil =>
          subst hnil
          exact hnext 0
      · exact hnext 1

theorem Cursor.OnRow.left (h : z.OnRow prompt t) :
    (z.press .left).OnRow prompt (t.display (z.echo .left)) := by
  rw [Cursor.OnRow, Cursor.text_left]
  obtain ⟨before, after⟩ := z
  cases before using List.reverseRecOn with
  | nil => exact h
  | append_singleton before x =>
      have hbefore : before ++ [x] ≠ [] :=
        List.append_ne_nil_of_right_ne_nil before (List.cons_ne_nil x [])
      rw [Cursor.echo, if_neg hbefore, Cursor.press, List.dropLast_concat]
      apply Terminal.Displays.back (n := 1)
      simpa [Cursor.OnRow, Nat.add_assoc] using h

theorem Cursor.OnRow.right (h : z.OnRow prompt t) (hz : ∀ c ∈ z.text, isPrintable c = true) :
    (z.press .right).OnRow prompt (t.display (z.echo .right)) := by
  rw [Cursor.OnRow, Cursor.text_right]
  obtain ⟨before, after⟩ := z
  cases after with
  | nil => simpa [Cursor.OnRow, Cursor.press, Cursor.echo, Terminal.display] using h
  | cons a after =>
      have ha : ∀ c ∈ [a], isPrintable c = true := by
        intro c hc
        rw [List.mem_singleton.mp hc]
        exact hz a (List.mem_append_right _ List.mem_cons_self)
      have hrow : t.Displays ((prompt ++ before) ++ a :: after) (prompt ++ before).length := by
        rw [List.append_assoc]
        exact h
      have hwrite := hrow.ignored.write ha
      change ((t.display [escape, '[', '3', '~']).display [a]).Displays _ _
      simpa [Cursor.press, Cursor.text] using hwrite

/-- What is written for a key does to the row what the key does to the text. -/
theorem Cursor.OnRow.press (h : z.OnRow prompt t) (hz : ∀ c ∈ z.text, isPrintable c = true)
    (hkey : key.IsEdit) : (z.press key).OnRow prompt (t.display (z.echo key)) := by
  cases key with
  | insert c hc => exact h.insert hz hc hkey
  | backspace => exact h.backspace hz
  | left => exact h.left
  | right => exact h.right hz
  | alt c hc => exact hkey.elim
  | other c hc => exact hkey.elim

/-! ## Runs -/

/-- The screen shows the text of the line, which is printable. -/
structure Mirrors (prompt : List Char) (e : Editor) (z : Cursor) : Prop where
  shows : Shows e z
  printable : ∀ c ∈ z.text, isPrintable c = true
  onRow : z.OnRow prompt (Terminal.blank.display e.out)

variable {e : Editor} {keys : List Key}

theorem Mirrors.start (hprompt : ∀ c ∈ prompt, isPrintable c = true) (completion : Bool)
    (compPos : Nat) : Mirrors prompt (Editor.start prompt completion compPos) Cursor.empty where
  shows := Shows.start prompt completion compPos
  printable _ hc := absurd hc List.not_mem_nil
  onRow := by
    have hblank : Terminal.blank.Displays ([] ++ []) ([] : List Char).length :=
      Terminal.blank_displays
    simpa [Cursor.OnRow, Cursor.empty, Cursor.text, Editor.start] using hblank.write hprompt

theorem Mirrors.press (h : Mirrors prompt e z) (complete : CStr → Nat → Except Stuck CStr)
    (hkey : key.IsEdit) (hfit : (z.press key).text.length < lineSize) :
    ∃ e', Mirrors prompt e' (z.press key) ∧
      ∀ input, getLine complete e (key.bytes ++ input) = getLine complete e' input := by
  obtain ⟨e', hshows, hread⟩ := h.shows.press complete key hfit
  refine ⟨e', ⟨hshows, ?_, ?_⟩, hread⟩
  · apply Cursor.press_line _ h.printable
    rintro c hc rfl
    exact hkey
  · have hbytes := hread []
    rw [List.append_nil] at hbytes
    rw [h.shows.press_out hshows hbytes, Terminal.display_append]
    exact h.onRow.press h.printable hkey

theorem Mirrors.pressAll (h : Mirrors prompt e z) (complete : CStr → Nat → Except Stuck CStr)
    (hkeys : ∀ key ∈ keys, key.IsEdit)
    (hfit : ∀ front, front <+: keys → (z.pressAll front).text.length < lineSize) :
    ∃ e', Mirrors prompt e' (z.pressAll keys) ∧
      ∀ input, getLine complete e (keys.flatMap Key.bytes ++ input) =
        getLine complete e' input := by
  apply getLine_pressAll _ h hkeys hfit
  exact fun e z key h hkey hfit => h.press complete hkey hfit

private theorem Mirrors.displays (h : Mirrors prompt e z) :
    (Terminal.blank.display e.out).Displays (prompt ++ e.line.take e.length)
      (prompt.length + e.pos) := by
  have htext : e.line.take e.length = z.text := by
    rw [h.shows.line, h.shows.length, ← List.append_assoc, ← List.length_append, List.take_left]
    rfl
  have hrow := h.onRow
  rw [Cursor.OnRow, List.length_append, ← h.shows.pos] at hrow
  rwa [htext]

end

/-- After every key the row of the terminal shows the prompt and the line, with the cursor at the
position. -/
theorem screen_shows_line (complete : CStr → Nat → Except Stuck CStr) (prompt : CStr)
    (hprompt : ∀ c ∈ prompt, isPrintable c = true) (completion : Bool) (compPos : Nat)
    (keys : List Key) (hkeys : ∀ key ∈ keys, key.IsEdit)
    (hfit : ∀ front, front <+: keys → (Cursor.empty.pressAll front).text.length < lineSize)
    (front : List Key) (hfront : front <+: keys) :
    ∃ e, getLine complete (Editor.start prompt completion compPos) (front.flatMap Key.bytes) =
        .ok (.reading e) ∧ e.reading = .key ∧
      (Terminal.blank.display e.out).Displays (prompt ++ e.line.take e.length)
        (prompt.length + e.pos) := by
  obtain ⟨e, he, hread⟩ := (Mirrors.start hprompt completion compPos).pressAll complete
    (fun key hkey => hkeys key (hfront.subset hkey))
    fun early hearly => hfit early (hearly.trans hfront)
  have hbytes := hread []
  rw [List.append_nil] at hbytes
  exact ⟨e, hbytes, he.shows.reading, he.displays⟩

/-- A `c` goes in before the `b` and is taken back again. -/
theorem screen_shows_line_middle :
    ∃ e, getLine (fun pre _ => .ok pre) (Editor.start ['%', ' '] false 0)
        ['a', 'b', escape, '[', 'D', 'c', rubout] = .ok (.reading e) ∧ e.reading = .key ∧
      (Terminal.blank.display e.out).Displays (['%', ' '] ++ e.line.take e.length)
        (['%', ' '].length + e.pos) := by
  let keys : List Key :=
    [.insert 'a' (by decide), .insert 'b' (by decide), .left, .insert 'c' (by decide), .backspace]
  refine screen_shows_line (fun pre _ => .ok pre) ['%', ' '] ?_ false 0 keys ?_
    (fun front hfront => ?_) keys (List.prefix_refl keys)
  · simp [isPrintable]
  · simp [keys, Key.IsEdit, isPrintable]
  · have hlen := Cursor.pressAll_length Cursor.empty front
    have hkeys := hfront.length_le
    have hempty : Cursor.empty.text.length = 0 := rfl
    have hsize : 5 < lineSize := by decide
    simp only [keys, List.length_cons, List.length_nil] at hkeys
    omega

end SyssoftLabs.Lab4
