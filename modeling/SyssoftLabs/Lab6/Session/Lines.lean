import Mathlib.Algebra.Group.Nat.Defs
import Mathlib.Data.List.TakeWhile
import SyssoftLabs.Lab6.Session.Answers

/-!
# The lines of a session

The server takes a line from a buffer of unknown contents, of which it overwrites the front. Only
the test for `//close` reads behind the line. What the server writes for any other line, and which
allocation the next line goes to, depend on the line alone.
-/

namespace SyssoftLabs.Lab6

open SyssoftLabs.Framework

/-- A line without its end. -/
abbrev Line := { bytes : List Char // '\n' ∉ bytes }

/-- The bytes of the lines. -/
def stream (lines : List Line) : List Char := lines.flatMap fun line => line.val ++ ['\n']

/-- The complete lines of a stream, and what follows the last of them. -/
def splitLines : List Char → List Line × List Char
  | [] => ([], [])
  | c :: input =>
      if hc : c = '\n' then (⟨[], List.not_mem_nil⟩ :: (splitLines input).1, (splitLines input).2)
      else
        match (splitLines input).1 with
        | [] => ([], c :: (splitLines input).2)
        | line :: lines =>
            (⟨c :: line.val, by simpa using ⟨Ne.symm hc, line.property⟩⟩ :: lines,
              (splitLines input).2)

theorem splitLines_stream (input : List Char) :
    stream (splitLines input).1 ++ (splitLines input).2 = input ∧
      '\n' ∉ (splitLines input).2 := by
  induction input with
  | nil => exact ⟨rfl, List.not_mem_nil⟩
  | cons c input ih =>
      obtain ⟨hsplit, hrest⟩ := ih
      rw [splitLines]
      split
      · next hc =>
          refine ⟨?_, hrest⟩
          rw [hc]
          exact congrArg ('\n' :: ·) hsplit
      · next hc =>
          split
          · next hnil =>
              rw [hnil] at hsplit
              refine ⟨congrArg (c :: ·) hsplit, ?_⟩
              simpa using ⟨Ne.symm hc, hrest⟩
          · next line lines hcons =>
              rw [hcons] at hsplit
              exact ⟨congrArg (c :: ·) hsplit, hrest⟩

/-- What the scan of a line leaves of it. -/
def Line.text (line : Line) : List Char := line.val.takeWhile (· ≠ '\r')

/-- What the server writes for a line. -/
def lineReply (opendir : List Char → Option (List (List Char))) (line : Line) : List Char :=
  line.text ++ [':', '\n'] ++ listing (opendir (cString line.text))

/-- `//close`. -/
def Line.IsClose (line : Line) : Prop := line.val ++ ['\n'] = closeLine

instance (line : Line) : Decidable line.IsClose := inferInstanceAs (Decidable (_ = _))

namespace Work

/-! ## Runs of the server alone -/

/-- The server on a stream of which no more arrives: what it writes, and where it gets to. -/
inductive Runs (calls : Calls) (closed : Bool) :
    Work → List Char → List Char → Work → List Char → Prop
  | refl (w : Work) (input : List Char) : Runs calls closed w input [] w input
  | next {w v u : Work} {input rest left sent out : List Char}
      (first : w.step calls input closed = some (v, rest, sent))
      (others : Runs calls closed v rest out u left) :
      Runs calls closed w input (sent ++ out) u left

section

variable {calls : Calls} {closed : Bool} {w v u : Work} {input rest left out out' : List Char}

theorem Runs.single {sent : List Char} (h : w.step calls input closed = some (v, rest, sent)) :
    Runs calls closed w input sent v rest := by
  have hnext := Runs.next h (.refl v rest)
  rwa [List.append_nil] at hnext

theorem Runs.trans (h : Runs calls closed w input out v rest)
    (h' : Runs calls closed v rest out' u left) :
    Runs calls closed w input (out ++ out') u left := by
  induction h with
  | refl => exact h'
  | next first others ih =>
      rw [List.append_assoc]
      exact .next first (ih h')

theorem Runs.unique (h : Runs calls closed w input out v rest)
    (hv : v.step calls rest closed = none) (h' : Runs calls closed w input out' u left)
    (hu : u.step calls left closed = none) :
    out' = out ∧ u = v ∧ left = rest := by
  induction h generalizing out' with
  | refl w input =>
      cases h' with
      | refl => exact ⟨rfl, rfl, rfl⟩
      | next first others =>
          rw [hv] at first
          cases first
  | next first others ih =>
      cases h' with
      | refl =>
          rw [hu] at first
          cases first
      | next first' others' =>
          rw [first] at first'
          cases first'
          obtain ⟨rfl, rfl, rfl⟩ := ih hv others'
          exact ⟨rfl, rfl, rfl⟩

end

/-! ## The buffer of a line -/

/-- How often the buffer has grown behind `n` bytes. -/
def growths : Nat → Nat
  | 0 => 0
  | n + 1 => if bufSize * 2 ^ growths n ≤ n + 3 then growths n + 1 else growths n

private theorem growths_room (n : Nat) : n + 2 < bufSize * 2 ^ growths n := by
  induction n with
  | zero => decide
  | succ n ih =>
      rw [growths]
      split
      · rw [Nat.pow_succ, ← Nat.mul_assoc]
        omega
      · omega

/-- The bytes of a line whose memory came from the allocation `a`. -/
structure Holds (calls : Calls) (a : Nat) (w : Work) (s : List Char) : Prop where
  len : w.len = s.length
  size : w.buf.length = bufSize * 2 ^ growths s.length
  bytes : w.buf.take s.length = s
  allocs : w.allocs = a + 1 + growths s.length
  /-- A buffer that has not grown is still the memory of that allocation behind them. -/
  stale : growths s.length = 0 → ∀ memory, calls.alloc a = some memory →
    w.buf.drop s.length = ((List.range bufSize).map memory).drop s.length

variable {calls : Calls} {a : Nat} {w : Work} {s : List Char}

theorem Holds.set (h : Holds calls a w s) (c : Char) :
    w.buf.set w.len c = s ++ c :: w.buf.drop (s.length + 1) := by
  have hlt : s.length < w.buf.length := by
    have := growths_room s.length
    rw [h.size]
    omega
  rw [h.len, List.set_eq_take_append_cons_drop, if_pos hlt, h.bytes]

theorem Holds.store (h : Holds calls a w s) (c : Char) (halloc : ∀ n, calls.alloc n ≠ none) :
    Holds calls a (w.store calls c) (s ++ [c]) ∧
      (w.store calls c).pc = (if c = '\n' then .line else .read) ∧ (w.store calls c).c = c := by
  have hset := h.set c
  have hroom := growths_room s.length
  have hsize : (w.buf.set w.len c).length = bufSize * 2 ^ growths s.length := by
    rw [List.length_set, h.size]
  have hlen : (s ++ [c]).length = s.length + 1 := List.length_append
  have hgrow : growths (s ++ [c]).length =
      if bufSize * 2 ^ growths s.length ≤ s.length + 3 then growths s.length + 1
      else growths s.length := by
    rw [hlen, growths]
  have hbytes : ∀ behind, ((s ++ c :: w.buf.drop (s.length + 1)) ++ behind).take
      (s ++ [c]).length = s ++ [c] := by
    intro behind
    rw [hlen, List.append_assoc]
    exact List.take_length_add_append 1
  unfold Work.store
  dsimp only
  rw [hsize]
  split
  · next hfull =>
      rw [if_pos (by have := h.len; omega)] at hgrow
      obtain ⟨memory, hmemory⟩ := Option.ne_none_iff_exists'.mp (halloc w.allocs)
      rw [hmemory]
      refine ⟨⟨by rw [hlen, ← h.len], ?_, ?_, ?_, fun hzero => by omega⟩, rfl, rfl⟩
      · show (_ ++ _ : List Char).length = _
        rw [hgrow, Nat.pow_succ, ← Nat.mul_assoc, List.length_append, hsize]
        simp
        omega
      · rw [hset]
        exact hbytes _
      · show w.allocs + 1 = _
        rw [hgrow, h.allocs]
        omega
  · next hroomy =>
      rw [if_neg (by have := h.len; omega)] at hgrow
      refine ⟨⟨by rw [hlen, ← h.len], ?_, ?_, ?_, fun hzero memory hm => ?_⟩, rfl, rfl⟩
      · rw [hgrow, hsize]
      · have := hbytes []
        rwa [List.append_nil, ← hset] at this
      · rw [hgrow, h.allocs]
      · have hstale := h.stale (hgrow ▸ hzero) memory hm
        rw [hset, hlen, ← List.drop_drop, List.drop_left]
        show (w.buf.drop (s.length + 1)) = _
        rw [← List.drop_drop, hstale, List.drop_drop]

theorem Holds.step_read (h : Holds calls a w s) (hpc : w.pc = .read) (c : Char)
    (closed : Bool) {input rest : List Char}
    (hc : input = c :: rest ∨ closed = true ∧ input = [] ∧ rest = [] ∧ w.c = c)
    (halloc : ∀ n, calls.alloc n ≠ none) (hread : ∀ n, calls.readFails n = false) :
    ∃ v, w.step calls input closed = some (v, rest, []) ∧ Holds calls a v (s ++ [c]) ∧
      v.pc = (if c = '\n' then .line else .read) ∧ v.c = c := by
  have hstored := Holds.store (w := { w with reads := w.reads + 1 })
    ⟨h.len, h.size, h.bytes, h.allocs, h.stale⟩ c halloc
  refine ⟨_, ?_, hstored⟩
  rcases hc with rfl | ⟨rfl, rfl, rfl, rfl⟩
  · simp [step, hpc, hread]
  · simp [step, hpc, hread]

theorem Holds.runs_read (h : Holds calls a w s) (hpc : w.pc = .read) {bytes : List Char}
    (hbytes : '\n' ∉ bytes) (closed : Bool) (rest : List Char)
    (halloc : ∀ n, calls.alloc n ≠ none) (hread : ∀ n, calls.readFails n = false) :
    ∃ v, Runs calls closed w (bytes ++ rest) [] v rest ∧ Holds calls a v (s ++ bytes) ∧
      v.pc = .read ∧ v.c = bytes.getLastD w.c := by
  induction bytes generalizing w s with
  | nil => exact ⟨w, .refl w rest, by rwa [List.append_nil], hpc, rfl⟩
  | cons c bytes ih =>
      rw [List.mem_cons, not_or] at hbytes
      obtain ⟨v, hstep, hv, hvpc, hvc⟩ := h.step_read hpc c closed
        (.inl (rfl : c :: (bytes ++ rest) = _)) halloc hread
      rw [if_neg (Ne.symm hbytes.1)] at hvpc
      obtain ⟨u, hruns, hu, hupc, huc⟩ := ih hv hvpc hbytes.2
      refine ⟨u, .next hstep hruns, ?_, hupc, ?_⟩
      · rwa [List.append_assoc] at hu
      · rw [huc, hvc]
        cases bytes <;> rfl

theorem step_malloc {memory : Nat → Char} (hpc : w.pc = .malloc)
    (hmemory : calls.alloc w.allocs = some memory) (input : List Char) (closed : Bool) :
    ∃ v, w.step calls input closed = some (v, input, []) ∧ Holds calls w.allocs v [] ∧
      v.pc = .read ∧ v.c = nul := by
  let v : Work := { w with
    pc := .read, buf := (List.range bufSize).map memory, len := 0, c := nul
    allocs := w.allocs + 1 }
  have hstep : w.step calls input closed = some (v, input, []) := by
    simp only [step, hpc, hmemory, v]
  have hsize : v.buf.length = bufSize := by
    rw [List.length_map, List.length_range]
  refine ⟨v, hstep, ?_, rfl, rfl⟩
  constructor
  · rfl
  · rw [hsize]
    exact (Nat.mul_one _).symm
  · exact List.take_zero
  · rfl
  · intro _ memory' hm
    rw [hmemory] at hm
    cases hm
    simp only [v]

/-! ## The end of a line -/

/-- The test for `//close` at the line that was read into the allocation `a`. -/
def Closes (calls : Calls) (a : Nat) (line : Line) : Prop :=
  line.IsClose ∧ ∃ memory ∈ calls.alloc a, memory closeLine.length = nul

instance (calls : Calls) (a : Nat) (line : Line) : Decidable (Closes calls a line) :=
  inferInstanceAs (Decidable (_ ∧ _))

private theorem line_unique {b l l' : List Char} (hl : '\n' ∉ l) (hl' : '\n' ∉ l')
    (h : l ++ ['\n'] <+: b) (h' : l' ++ ['\n'] <+: b) : l = l' := by
  have hfirst : ∀ {l : List Char}, '\n' ∉ l → l ++ ['\n'] <+: b → b.takeWhile (· ≠ '\n') = l := by
    intro l hl h
    obtain ⟨behind, rfl⟩ := h
    rw [List.append_assoc, List.takeWhile_append_of_pos, List.singleton_append,
      List.takeWhile_cons_of_neg (by simp), List.append_nil]
    intro c hc
    simpa using ne_of_mem_of_not_mem hc hl
  rw [← hfirst hl h, hfirst hl' h']

private theorem Holds.closes_iff {line : Line} (h : Holds calls a w (line.val ++ ['\n']))
    (halloc : ∀ n, calls.alloc n ≠ none) :
    w.buf.take (closeLine.length + 1) = closeLine ++ [nul] ↔ Closes calls a line := by
  obtain ⟨memory, hmemory⟩ := Option.ne_none_iff_exists'.mp (halloc a)
  have hbyte : line.IsClose → w.buf.take (closeLine.length + 1) =
      closeLine ++ [memory closeLine.length] := by
    intro hclose
    have hbytes := h.bytes
    have hstale := h.stale
    rw [hclose] at hbytes hstale
    have hdrop := hstale (by decide) memory hmemory
    have hbuf : w.buf = closeLine ++ ((List.range bufSize).map memory).drop closeLine.length := by
      rw [← hdrop]
      conv => lhs; rw [← List.take_append_drop closeLine.length w.buf, hbytes]
    have hcons : ((List.range bufSize).map memory).drop closeLine.length =
        memory closeLine.length ::
          ((List.range bufSize).map memory).drop (closeLine.length + 1) := by
      have hlt : closeLine.length < ((List.range bufSize).map memory).length := by
        rw [List.length_map, List.length_range]
        decide
      rw [List.drop_eq_getElem_cons hlt, List.getElem_map, List.getElem_range]
    rw [hbuf, hcons]
    exact List.take_length_add_append 1
  constructor
  · intro htake
    have hclose : line.IsClose := by
      have hprefix : line.val ++ ['\n'] <+: w.buf := h.bytes ▸ List.take_prefix _ _
      have hprefix' : closeLine.dropLast ++ ['\n'] <+: w.buf := by
        refine List.IsPrefix.trans ?_ (htake ▸ List.take_prefix (closeLine.length + 1) w.buf)
        exact List.prefix_append closeLine [nul]
      have hline := line_unique line.property (by decide) hprefix hprefix'
      show line.val ++ ['\n'] = closeLine
      rw [hline]
      rfl
    refine ⟨hclose, memory, hmemory, ?_⟩
    rw [hbyte hclose] at htake
    simpa using htake
  · rintro ⟨hclose, memory', hm, hnul⟩
    rw [hmemory] at hm
    cases hm
    rw [hbyte hclose, hnul]

private theorem cut_text (line : Line) (rest : List Char) :
    ∃ behind, cut (line.val ++ '\n' :: rest) (line.val.length + 1) =
      (line.text ++ nul :: behind, line.text.length) := by
  have htext : ∀ c ∈ line.text, c ≠ '\n' ∧ c ≠ '\r' := by
    intro c hc
    refine ⟨ne_of_mem_of_not_mem ((List.takeWhile_prefix _).subset hc) line.property, ?_⟩
    simpa using List.mem_takeWhile_imp hc
  have hlen : line.text.length ≤ line.val.length := (List.takeWhile_prefix _).length_le
  have hsplit : line.text ++ line.val.dropWhile (· ≠ '\r') = line.val :=
    List.takeWhile_append_dropWhile
  cases hd : line.val.dropWhile (· ≠ '\r') with
  | nil =>
      rw [hd, List.append_nil] at hsplit
      have hcut := cut_first htext (.inl rfl) rest (Nat.le_succ_of_le hlen)
      rw [hsplit] at hcut ⊢
      exact ⟨rest, hcut⟩
  | cons c more =>
      have hc : c = '\r' := by
        have := List.head?_dropWhile_not (· ≠ '\r') line.val
        rw [hd] at this
        simpa using this
      rw [hd] at hsplit
      have hbuf : line.val ++ '\n' :: rest = line.text ++ c :: (more ++ '\n' :: rest) := by
        rw [← hsplit, List.append_assoc]
        rfl
      rw [hbuf]
      exact ⟨more ++ '\n' :: rest, cut_first htext (.inr hc) _ (Nat.le_succ_of_le hlen)⟩

private theorem cString_text (text behind : List Char) :
    cString (text ++ nul :: behind) = cString text := by
  induction text with
  | nil => rfl
  | cons c text ih =>
      unfold cString at ih ⊢
      rw [List.cons_append, List.takeWhile_cons, List.takeWhile_cons, ih]

private theorem runs_entries (calls : Calls) (closed : Bool) {w : Work} {names : List (List Char)}
    (hpc : w.pc = .entries names) (input : List Char) :
    Runs calls closed w input (listing (some names)) { w with pc := .malloc } input := by
  induction names generalizing w with
  | nil =>
      have hend : w.step calls input closed = some ({ w with pc := .free }, input, [nul]) := by
        simp only [step, hpc]
      exact (Runs.single hend).trans (Runs.single rfl)
  | cons name names ih =>
      have htab : w.step calls input closed =
          some ({ w with pc := .entryName name names }, input, ['\t']) := by
        simp only [step, hpc]
      have hname : Runs calls closed { w with pc := .entryName name names } input name
          { w with pc := .entryEnd names } input := Runs.single rfl
      have hlf : Runs calls closed { w with pc := .entryEnd names } input ['\n']
          { w with pc := .entries names } input := Runs.single rfl
      have hrest := ih (w := { w with pc := .entries names }) rfl
      have hall := (Runs.single htab).trans (hname.trans (hlf.trans hrest))
      simpa [listing] using hall

private theorem runs_colon (calls : Calls) (closed : Bool) {w : Work} (hpc : w.pc = .colon)
    (input : List Char) :
    Runs calls closed w input ([':', '\n'] ++ listing (calls.opendir (cString w.buf)))
      { w with pc := .malloc } input := by
  have hcolon : w.step calls input closed =
      some ({ w with pc := .opendir }, input, [':', '\n']) := by
    simp only [step, hpc]
  refine (Runs.single hcolon).trans ?_
  cases hdir : calls.opendir (cString w.buf) with
  | some names =>
      have hopen : step calls { w with pc := .opendir } input closed =
          some ({ w with pc := .entries names }, input, []) := by
        simp only [step, hdir]
      exact (Runs.single hopen).trans (runs_entries calls closed rfl input)
  | none =>
      have hopen : step calls { w with pc := .opendir } input closed =
          some ({ w with pc := .refuse }, input, []) := by
        simp only [step, hdir]
      have hrefuse : Runs calls closed { w with pc := .refuse } input (errorLine ++ [nul])
          { w with pc := .free } input := Runs.single rfl
      have hfree : Runs calls closed { w with pc := .free } input []
          { w with pc := .malloc } input := Runs.single rfl
      have hall := (Runs.single hopen).trans (hrefuse.trans hfree)
      rwa [List.append_nil] at hall

private theorem Holds.runs_line {line : Line} (h : Holds calls a w (line.val ++ ['\n']))
    (hpc : w.pc = .line) (hopen : ¬ Closes calls a line) (halloc : ∀ n, calls.alloc n ≠ none)
    (closed : Bool) (input : List Char) :
    ∃ v, Runs calls closed w input (lineReply calls.opendir line) v input ∧ v.pc = .malloc ∧
      v.allocs = w.allocs := by
  have hlen := h.len
  rw [List.length_append, List.length_singleton] at hlen
  have hbuf : w.buf = line.val ++ '\n' :: w.buf.drop (line.val.length + 1) := by
    have hbytes := h.bytes
    rw [List.length_append, List.length_singleton] at hbytes
    conv => lhs; rw [← List.take_append_drop (line.val.length + 1) w.buf, hbytes]
    simp
  obtain ⟨behind, hcut⟩ := cut_text line (w.buf.drop (line.val.length + 1))
  rw [← hbuf, ← hlen] at hcut
  let v : Work := { w with
    pc := .colon, buf := line.text ++ nul :: behind, len := line.text.length }
  have hstep : w.step calls input closed = some (v, input, line.text) := by
    have htest := (h.closes_iff halloc).not.mpr hopen
    simp only [step, hpc, if_neg htest, hcut, List.take_left, v]
  have hrest := runs_colon calls closed (w := v) rfl input
  rw [show cString v.buf = cString line.text from cString_text _ _] at hrest
  refine ⟨{ v with pc := .malloc }, ?_, rfl, rfl⟩
  have hall := (Runs.single hstep).trans hrest
  rwa [lineReply, List.append_assoc]

/-! ## All lines -/

/-- The allocation behind a line that was read into the allocation `a`. -/
def nextAlloc (a : Nat) (line : Line) : Nat := a + 1 + growths (line.val.length + 1)

/-- What a server that allocates `a` next writes for the lines, whether it returns, and the lines
it has not read. -/
def serve (calls : Calls) : Nat → List Line → List Char × Bool × List Line
  | _, [] => ([], false, [])
  | a, line :: lines =>
      if Closes calls a line then ([], true, lines)
      else
        let served := serve calls (nextAlloc a line) lines
        (lineReply calls.opendir line ++ served.1, served.2)

theorem runs_lines (calls : Calls) (closed : Bool) (halloc : ∀ n, calls.alloc n ≠ none)
    (hread : ∀ n, calls.readFails n = false) (lines : List Line) {w : Work}
    (hpc : w.pc = .malloc) (rest : List Char) :
    ∃ v, Runs calls closed w (stream lines ++ rest) (serve calls w.allocs lines).1 v
        (stream (serve calls w.allocs lines).2.2 ++ rest) ∧
      if (serve calls w.allocs lines).2.1 then v.pc = .returned
      else v.pc = .malloc ∧ (serve calls w.allocs lines).2.2 = [] := by
  induction lines generalizing w with
  | nil => exact ⟨w, .refl w _, hpc, rfl⟩
  | cons line lines ih =>
      obtain ⟨memory, hmemory⟩ := Option.ne_none_iff_exists'.mp (halloc w.allocs)
      have hstream : stream (line :: lines) ++ rest =
          line.val ++ ('\n' :: (stream lines ++ rest)) := by
        simp [stream]
      obtain ⟨x, hx, hxholds, hxpc, -⟩ :=
        step_malloc hpc hmemory (stream (line :: lines) ++ rest) closed
      obtain ⟨y, hy, hyholds, hypc, -⟩ := hxholds.runs_read hxpc line.property closed
        ('\n' :: (stream lines ++ rest)) halloc hread
      obtain ⟨z, hz, hzholds, hzpc, -⟩ := hyholds.step_read hypc '\n' closed
        (.inl rfl) halloc hread
      rw [List.nil_append] at hzholds
      rw [if_pos rfl] at hzpc
      have hall : Runs calls closed w (stream (line :: lines) ++ rest) [] z
          (stream lines ++ rest) := by
        rw [hstream] at hx ⊢
        exact (Runs.single hx).trans (hy.trans (Runs.single hz))
      by_cases hclose : Closes calls w.allocs line
      · have htest : z.step calls (stream lines ++ rest) closed =
            some ({ z with pc := .returned }, stream lines ++ rest, []) := by
          simp only [step, hzpc, if_pos ((hzholds.closes_iff halloc).mpr hclose)]
        refine ⟨{ z with pc := .returned }, ?_, ?_⟩
        · rw [serve, if_pos hclose]
          exact hall.trans (Runs.single htest)
        · rw [serve, if_pos hclose]
          rfl
      · obtain ⟨u, hu, hupc, huallocs⟩ :=
          hzholds.runs_line hzpc hclose halloc closed (stream lines ++ rest)
        obtain ⟨v, hv, hend⟩ := ih hupc
        have hnext : u.allocs = nextAlloc w.allocs line := by
          rw [huallocs, hzholds.allocs, nextAlloc, List.length_append, List.length_singleton]
        rw [hnext] at hv hend
        refine ⟨v, ?_, ?_⟩
        · rw [serve, if_neg hclose]
          exact hall.trans (hu.trans hv)
        · rw [serve, if_neg hclose]
          exact hend

end Work

end SyssoftLabs.Lab6
