import SyssoftLabs.Lab6.Session.Model

/-!
# The server's side of a session

A server that has read part of a line waits for the next byte, and one that has read a line writes
an answer, part by part. What it has read and what it still writes are known at every step.
-/

namespace SyssoftLabs.Lab6

open SyssoftLabs.Framework

/-- An argument that makes a request of one line. -/
structure Request (arg : List Char) : Prop where
  noNul : nul ∉ arg
  noLineFeed : '\n' ∉ arg
  noReturn : '\r' ∉ arg
  noClose : arg ++ ['\n'] ≠ closeLine

theorem cString_append {s : List Char} (hs : nul ∉ s) (rest : List Char) :
    cString (s ++ nul :: rest) = s := by
  unfold cString
  rw [List.takeWhile_append_of_pos (by simpa using fun c hc => ne_of_mem_of_not_mem hc hs)]
  simp

private theorem take_eq_iff {s t : List Char} (hs : nul ∉ s) (ht : nul ∉ t) (rest : List Char) :
    (s ++ nul :: rest).take (t.length + 1) = t ++ [nul] ↔ s = t := by
  constructor
  · intro h
    have hsplit := List.take_append_drop (t.length + 1) (s ++ nul :: rest)
    rw [h, List.append_assoc, List.singleton_append] at hsplit
    rw [← cString_append hs rest, ← hsplit, cString_append ht]
  · rintro rfl
    exact List.take_length_add_append 1

namespace Work

variable {opendir : List Char → Option (List (List Char))} {w w' : Work}
  {input input' sent p rest arg : List Char} {k n : Nat} {b : Char}

/-! ## Reading a line -/

/-- The buffer holds these bytes, and zeros up to its end: at least three. -/
def Filled (w : Work) (p : List Char) : Prop :=
  w.len = p.length ∧ ∃ z, 3 ≤ z ∧ w.buf = p ++ List.replicate z nul

/-- The server is about to read a line, of which it has these bytes, but not the last one; the
number of steps before the next `read`. -/
inductive Reads (w : Work) : List Char → Nat → Prop
  | free (hpc : w.pc = .free) : Reads w [] 2
  | malloc (hpc : w.pc = .malloc) : Reads w [] 1
  | read (bytes : List Char) (hpc : w.pc = .read) (hbuf : w.Filled bytes) (hopen : '\n' ∉ bytes) :
      Reads w bytes 0

private theorem Reads.line_open (h : Reads w p k) : '\n' ∉ p := by
  cases h with
  | free hpc => exact List.not_mem_nil
  | malloc hpc => exact List.not_mem_nil
  | read _ hpc hbuf hopen => exact hopen

theorem Reads.ne_nil (h : Reads w p k) {line more : List Char}
    (hline : p ++ input = line ++ '\n' :: more) : input ≠ [] := by
  rintro rfl
  apply h.line_open
  rw [List.append_nil] at hline
  simp [hline]

private theorem replicate_memory (n : Nat) :
    (List.range n).map (fun _ => nul) = List.replicate n nul := by
  simp

theorem Filled.store (opendir : List Char → Option (List (List Char))) (h : w.Filled p)
    (b : Char) :
    ((w.store (Calls.zeroed opendir) b).Filled (p ++ [b])) ∧
      (w.store (Calls.zeroed opendir) b).pc = if b = '\n' then .line else .read := by
  obtain ⟨hlen, z, hz, hbuf⟩ := h
  have hset : w.buf.set w.len b = p ++ [b] ++ List.replicate (z - 1) nul := by
    have hsplit : List.replicate z nul = nul :: List.replicate (z - 1) nul := by
      rw [← List.replicate_succ]
      congr 1
      omega
    rw [hbuf, hlen, hsplit]
    simp
  have hroom : (p ++ [b] ++ List.replicate (z - 1) nul).length - (w.len + 1) = z - 1 := by
    simp [hlen]
    omega
  unfold Work.store
  simp only [hset, hroom, Calls.zeroed, replicate_memory]
  split
  · refine ⟨⟨by simp [hlen], z - 1 + (p ++ [b] ++ List.replicate (z - 1) nul).length, ?_, ?_⟩, rfl⟩
    · simp
      omega
    · rw [List.append_assoc _ (List.replicate (z - 1) nul), List.replicate_append_replicate]
  · next hlarge => exact ⟨⟨by simp [hlen], z - 1, by omega, rfl⟩, rfl⟩

/-- A step of a server that reads a line: it gets nearer to the next `read`, takes a byte of the
line or takes the last one. -/
theorem Reads.step (h : Reads w p k) {closed : Bool} (hmore : closed = true → input ≠ [])
    (hstep : w.step (Calls.zeroed opendir) input closed = some (w', input', sent)) :
    sent = [] ∧
      ((∃ p' k', p ++ input = p' ++ input' ∧ k + input.length = k' + input'.length + 1 ∧
          Reads w' p' k') ∨
        input = '\n' :: input' ∧ k = 0 ∧ w'.Filled (p ++ ['\n']) ∧ w'.pc = .line) := by
  cases h with
  | free hpc =>
      simp only [Work.step, hpc] at hstep
      cases hstep
      exact ⟨rfl, Or.inl ⟨[], 1, rfl, by omega, .malloc rfl⟩⟩
  | malloc hpc =>
      simp only [Work.step, hpc, Calls.zeroed, replicate_memory] at hstep
      cases hstep
      refine ⟨rfl, Or.inl ⟨[], 0, rfl, by omega, .read [] rfl ?_ List.not_mem_nil⟩⟩
      exact ⟨rfl, bufSize, by simp [bufSize], (List.nil_append _).symm⟩
  | read _ hpc hbuf hopen =>
      simp only [Work.step, hpc, Calls.zeroed] at hstep
      cases input with
      | nil =>
          cases closed with
          | true => exact absurd rfl (hmore rfl)
          | false => simp at hstep
      | cons b input =>
          simp only [Bool.false_eq_true, if_false] at hstep
          cases hstep
          have hfilled : { w with reads := w.reads + 1 }.Filled p := hbuf
          obtain ⟨hstored, hpc'⟩ := hfilled.store opendir b
          refine ⟨rfl, ?_⟩
          by_cases hb : b = '\n'
          · subst hb
            exact Or.inr ⟨rfl, rfl, hstored, hpc'⟩
          · rw [if_neg hb] at hpc'
            refine Or.inl ⟨p ++ [b], 0, by simp, ?_, .read _ hpc' hstored ?_⟩
            · rw [List.length_cons]
              omega
            · simpa [hopen] using Ne.symm hb

theorem Reads.enabled (opendir : List Char → Option (List (List Char))) (h : Reads w p k)
    (hinput : k = 0 → input ≠ []) (closed : Bool) :
    ∃ u, w.step (Calls.zeroed opendir) input closed = some u := by
  cases h with
  | free hpc => simp [Work.step, hpc]
  | malloc hpc => simp [Work.step, hpc, Calls.zeroed]
  | read _ hpc hbuf hopen =>
      obtain ⟨b, input, rfl⟩ := List.exists_cons_of_ne_nil (hinput rfl)
      simp [Work.step, hpc, Calls.zeroed]

/-! ## Answering a line -/

theorem cut_first {text : List Char} {d : Char} (htext : ∀ c ∈ text, c ≠ '\n' ∧ c ≠ '\r')
    (hd : d = '\n' ∨ d = '\r') (rest : List Char) {len : Nat} (hlen : text.length ≤ len) :
    cut (text ++ d :: rest) len = (text ++ nul :: rest, text.length) := by
  obtain ⟨more, hmore⟩ : ∃ more, (text ++ d :: rest).take (len + 1) = text ++ d :: more := by
    refine ⟨rest.take (len - text.length), ?_⟩
    rw [List.take_append, List.take_of_length_le (by omega),
      show len + 1 - text.length = len - text.length + 1 by omega, List.take_succ_cons]
  have hnone : text.findIdx (fun c => c == '\n' || c == '\r') = text.length := by
    apply List.findIdx_eq_length_of_false
    intro c hc
    simp [htext c hc]
  have hfind : (text ++ d :: more).findIdx (fun c => c == '\n' || c == '\r') = text.length := by
    rw [List.findIdx_append, hnone, if_neg (Nat.lt_irrefl _)]
    rcases hd with rfl | rfl <;> simp [List.findIdx_cons]
  unfold cut
  rw [hmore, hfind, if_pos (by simp)]
  simp

theorem step_close (calls : Calls) (hpc : w.pc = .line) (h : w.Filled closeLine)
    (input : List Char) (closed : Bool) :
    w.step calls input closed = some ({ w with pc := .returned }, input, []) := by
  obtain ⟨-, z, hz, hbuf⟩ := h
  have hcmp : w.buf.take (closeLine.length + 1) = closeLine ++ [nul] := by
    obtain ⟨y, rfl⟩ : ∃ y, z = y + 1 := ⟨z - 1, by omega⟩
    rw [hbuf, List.replicate_succ]
    exact List.take_length_add_append 1
  simp only [step, hpc, if_pos hcmp]

theorem step_line (calls : Calls) (hpc : w.pc = .line) (h : w.Filled (arg ++ ['\n']))
    (harg : Request arg) (input : List Char) (closed : Bool) :
    ∃ u, w.step calls input closed = some (u, input, arg) ∧ u.pc = .colon ∧
      cString u.buf = arg := by
  obtain ⟨hlen, z, hz, hbuf⟩ := h
  obtain ⟨y, rfl⟩ : ∃ y, z = y + 1 := ⟨z - 1, by omega⟩
  rw [List.length_append, List.length_singleton] at hlen
  rw [List.replicate_succ] at hbuf
  have hnul : nul ∉ arg ++ ['\n'] := by
    rw [List.mem_append, List.mem_singleton, not_or]
    exact ⟨harg.noNul, by decide⟩
  have hcmp : ¬w.buf.take (closeLine.length + 1) = closeLine ++ [nul] := by
    rw [hbuf, take_eq_iff hnul (by decide)]
    exact harg.noClose
  have hcut : cut w.buf w.len = (arg ++ nul :: nul :: List.replicate y nul, arg.length) := by
    rw [hbuf, hlen, List.append_assoc, List.singleton_append]
    refine cut_first (fun c hc => ?_) (.inl rfl) _ (Nat.le_succ _)
    exact ⟨ne_of_mem_of_not_mem hc harg.noLineFeed, ne_of_mem_of_not_mem hc harg.noReturn⟩
  simp only [step, hpc, if_neg hcmp, hcut, List.take_left]
  exact ⟨_, rfl, rfl, cString_append harg.noNul _⟩

/-- How many steps the listing takes, with the one that frees the buffer. -/
def listingSteps : Option (List (List Char)) → Nat
  | some names => 3 * names.length + 2
  | none => 2

/-- The server answers a line: what it still writes, and the number of steps to its next
`malloc`. -/
inductive Answers (opendir : List Char → Option (List (List Char))) (w : Work) :
    List Char → Nat → Prop
  | line (arg : List Char) (hpc : w.pc = .line) (hbuf : w.Filled (arg ++ ['\n']))
      (harg : Request arg) :
      Answers opendir w (answer opendir arg) (3 + listingSteps (opendir arg))
  | colon (arg : List Char) (hpc : w.pc = .colon) (hbuf : cString w.buf = arg) :
      Answers opendir w ([':', '\n'] ++ listing (opendir arg)) (2 + listingSteps (opendir arg))
  | opendir (arg : List Char) (hpc : w.pc = .opendir) (hbuf : cString w.buf = arg) :
      Answers opendir w (listing (opendir arg)) (1 + listingSteps (opendir arg))
  | entries (names : List (List Char)) (hpc : w.pc = .entries names) :
      Answers opendir w (listing (some names)) (listingSteps (some names))
  | entryName (name : List Char) (names : List (List Char)) (hpc : w.pc = .entryName name names) :
      Answers opendir w (name ++ ['\n'] ++ listing (some names)) (2 + listingSteps (some names))
  | entryEnd (names : List (List Char)) (hpc : w.pc = .entryEnd names) :
      Answers opendir w (['\n'] ++ listing (some names)) (1 + listingSteps (some names))
  | refuse (hpc : w.pc = .refuse) : Answers opendir w (listing none) (listingSteps none)

/-- A step of a server that answers: it writes the next part of the answer. -/
theorem Answers.step (h : Answers opendir w rest n) {closed : Bool}
    (hstep : w.step (Calls.zeroed opendir) input closed = some (w', input', sent)) :
    input' = input ∧ ∃ rest', rest = sent ++ rest' ∧
      ((∃ m, n = m + 1 ∧ Answers opendir w' rest' m) ∨
        n = 2 ∧ rest' = [] ∧ w'.pc = .free) := by
  cases h with
  | line arg hpc hbuf harg =>
      obtain ⟨u, hu, hupc, hubuf⟩ := step_line (Calls.zeroed opendir) hpc hbuf harg input closed
      rw [hu] at hstep
      cases hstep
      refine ⟨rfl, [':', '\n'] ++ listing (opendir sent), by simp [answer],
        Or.inl ⟨2 + listingSteps (opendir sent), by omega, .colon sent hupc hubuf⟩⟩
  | colon arg hpc hbuf =>
      simp only [Work.step, hpc] at hstep
      cases hstep
      refine ⟨rfl, _, rfl, Or.inl ⟨1 + listingSteps (opendir arg), by omega, ?_⟩⟩
      exact .opendir arg rfl hbuf
  | opendir arg hpc hbuf =>
      simp only [Work.step, hpc, Calls.zeroed, hbuf] at hstep
      cases hnames : opendir arg with
      | none =>
          rw [hnames] at hstep
          cases hstep
          exact ⟨rfl, _, rfl, Or.inl ⟨_, by omega, .refuse rfl⟩⟩
      | some names =>
          rw [hnames] at hstep
          cases hstep
          exact ⟨rfl, _, rfl, Or.inl ⟨_, by omega, .entries names rfl⟩⟩
  | entries names hpc =>
      cases names with
      | nil =>
          simp only [Work.step, hpc] at hstep
          cases hstep
          exact ⟨rfl, [], by simp [listing], Or.inr ⟨rfl, rfl, rfl⟩⟩
      | cons name names =>
          simp only [Work.step, hpc] at hstep
          cases hstep
          refine ⟨rfl, name ++ ['\n'] ++ listing (some names), by simp [listing],
            Or.inl ⟨2 + listingSteps (some names), ?_, .entryName name names rfl⟩⟩
          simp only [listingSteps, List.length_cons]
          omega
  | entryName name names hpc =>
      simp only [Work.step, hpc] at hstep
      cases hstep
      refine ⟨rfl, ['\n'] ++ listing (some names), by simp,
        Or.inl ⟨1 + listingSteps (some names), by omega, .entryEnd names rfl⟩⟩
  | entryEnd names hpc =>
      simp only [Work.step, hpc] at hstep
      cases hstep
      exact ⟨rfl, _, rfl, Or.inl ⟨_, by omega, .entries names rfl⟩⟩
  | refuse hpc =>
      simp only [Work.step, hpc] at hstep
      cases hstep
      exact ⟨rfl, [], by simp [listing], Or.inr ⟨rfl, rfl, rfl⟩⟩

private theorem listing_ne_nil (names : Option (List (List Char))) : listing names ≠ [] := by
  cases names with
  | none => simp [listing]
  | some names => simp [listing]

theorem Answers.ne_nil (h : Answers opendir w rest n) : rest ≠ [] := by
  cases h with
  | line arg _ _ _ => simp [answer]
  | colon arg _ _ => simp
  | opendir arg _ _ => exact listing_ne_nil _
  | entries names _ => exact listing_ne_nil _
  | entryName name names _ => simp
  | entryEnd names _ => simp
  | refuse _ => exact listing_ne_nil _

theorem Reads.not_returned (h : Reads w p k) : w.pc ≠ .returned := by
  cases h with
  | free hpc => simp [hpc]
  | malloc hpc => simp [hpc]
  | read _ hpc _ _ => simp [hpc]

theorem Answers.not_returned (h : Answers opendir w rest n) : w.pc ≠ .returned := by
  cases h with
  | line arg hpc _ _ => simp [hpc]
  | colon arg hpc _ => simp [hpc]
  | opendir arg hpc _ => simp [hpc]
  | entries names hpc => simp [hpc]
  | entryName name names hpc => simp [hpc]
  | entryEnd names hpc => simp [hpc]
  | refuse hpc => simp [hpc]

theorem Answers.enabled (h : Answers opendir w rest n) (input : List Char) (closed : Bool) :
    ∃ u, w.step (Calls.zeroed opendir) input closed = some u := by
  cases h with
  | line arg hpc hbuf harg =>
      obtain ⟨u, hu, -⟩ := step_line (Calls.zeroed opendir) hpc hbuf harg input closed
      exact ⟨_, hu⟩
  | colon arg hpc hbuf => simp [Work.step, hpc]
  | opendir arg hpc hbuf =>
      simp only [Work.step, hpc]
      split
      · exact ⟨_, rfl⟩
      · exact ⟨_, rfl⟩
  | entries names hpc =>
      cases names with
      | nil => simp [Work.step, hpc]
      | cons name names => simp [Work.step, hpc]
  | entryName name names hpc => simp [Work.step, hpc]
  | entryEnd names hpc => simp [Work.step, hpc]
  | refuse hpc => simp [Work.step, hpc]

end Work

end SyssoftLabs.Lab6
