import Mathlib.Data.List.TakeWhile
import SyssoftLabs.Framework.Block
import SyssoftLabs.Framework.Loop
import SyssoftLabs.Lab6.Session.Answers

/-!
# The memory of a session

`do_work` on an explicit heap: the block behind `buf` is allocated, grows, is scanned and cut, and
is freed. Each of these may fail, and so may `read`. An access outside of a live block, or a second
`free`, is a fault.
-/

namespace SyssoftLabs.Lab6

open SyssoftLabs.Framework

/-- What the n-th `malloc` or `realloc` finds in its memory. -/
def Calls.memory (calls : Calls) (n : Nat) : Nat → Char := (calls.alloc n).getD fun _ => nul

/-- `!strcmp(p + i, s)` -/
def equals (p : Ptr) : Nat → List Char → HeapM (List Char) Bool
  | i, [] => return (← loadAt p i) == nul
  | i, c :: s => do
      if (← loadAt p i) = c then equals p (i + 1) s else return false

/-- The scan from the byte `i` on, with as many bytes to go: where it cuts the string. -/
def scan (p : Ptr) : Nat → Nat → HeapM (List Char) (Option Nat)
  | 0, _ => return none
  | n + 1, i => do
      let c ← loadAt p i
      if c = '\n' ∨ c = '\r' then
        storeAt p i nul
        return some i
      else scan p n (i + 1)

/-- What `write` finds behind the pointer. -/
def bytesAt (p : Ptr) (len : Nat) : HeapM (List Char) (List Char) := do
  let block ← load p
  if len ≤ block.length then return block.take len else throw .danglingAccess

/-- What `opendir` finds behind the pointer. -/
def stringAt (p : Ptr) : HeapM (List Char) (List Char) := do
  let block ← load p
  if nul ∈ block then return cString block else throw .danglingAccess

/-- The variables of `do_work`, and its memory. -/
structure Reader where
  pc : WorkPc
  heap : Heap (List Char)
  buf : Ptr
  bufSize : Nat
  len : Nat
  c : Char
  reads : Nat
  /-- The number of the first `read` behind the last `malloc`, which the code does not keep. -/
  begins : Nat

/-- What the reads leave in `c` from the read `begins` on. The end of the stream leaves `c` as it
is. -/
def bytesFrom (stream : Nat → Option Char) (begins : Nat) : Nat → List Char
  | 0 => []
  | n + 1 =>
      let bytes := bytesFrom stream begins n
      bytes ++ [(stream (begins + n)).getD (bytes.getLast?.getD nul)]

namespace Reader

def start (calls : Calls) : Reader where
  pc := .malloc
  heap := Heap.empty fun n => (calls.alloc n).isSome
  buf := none
  bufSize := 0
  len := 0
  c := nul
  reads := 0
  begins := 0

/-- The bytes that have been read of the line. -/
def line (stream : Nat → Option Char) (w : Reader) : List Char :=
  bytesFrom stream w.begins (w.reads - w.begins)

@[simp] theorem line_malloc (stream : Nat → Option Char) (w : Reader) (h : w.begins = w.reads) :
    w.line stream = [] := by
  rw [line, h, Nat.sub_self, bytesFrom]

private theorem line_read (stream : Nat → Option Char) (w w' : Reader) (h : w.begins ≤ w.reads)
    (hbegins : w'.begins = w.begins) (hreads : w'.reads = w.reads + 1) :
    w'.line stream =
      w.line stream ++ [(stream w.reads).getD ((w.line stream).getLast?.getD nul)] := by
  rw [line, hbegins, hreads, Nat.succ_sub h, bytesFrom, Nat.add_sub_cancel' h]
  rfl

/-- `buf[len++] = c`, the test of the room behind it, and the test of the loop. -/
def store (calls : Calls) (w : Reader) (c : Char) : Except Fault (Reader ⊕ Unit) := do
  let ((), heap) ← storeAt w.buf w.len c w.heap
  let len := w.len + 1
  let pc := if c = '\n' then WorkPc.line else .read
  if w.bufSize - len ≤ 2 then
    let (newBuf, heap) ← reallocBlock calls.memory w.buf (w.bufSize * 2) heap
    if newBuf = none then
      return .inl { w with pc := .clean, heap := heap, len := len, c := c }
    return .inl { w with
      pc := pc, heap := heap, buf := newBuf, bufSize := w.bufSize * 2, len := len, c := c }
  return .inl { w with pc := pc, heap := heap, len := len, c := c }

/-- A step, where `stream n` is what the n-th `read` finds: a byte, or the end of the stream. -/
def step (calls : Calls) (stream : Nat → Option Char) (w : Reader) :
    Except Fault (Reader ⊕ Unit) :=
  match w.pc with
  | .malloc => do
      let (buf, heap) ← mallocBlock calls.memory Work.bufSize w.heap
      if buf = none then return .inl { w with pc := .clean, heap := heap, buf := none }
      return .inl { w with
        pc := .read, heap := heap, buf := buf, bufSize := Work.bufSize, len := 0, c := nul,
        begins := w.reads }
  | .read =>
      if calls.readFails w.reads then .ok (.inl { w with pc := .clean, reads := w.reads + 1 })
      else { w with reads := w.reads + 1 }.store calls ((stream w.reads).getD w.c)
  | .line => do
      let (same, heap) ← equals w.buf 0 closeLine w.heap
      if same then
        let ((), heap) ← free w.buf heap
        return .inl { w with pc := .returned, heap := heap }
      let (found, heap) ← scan w.buf (w.len + 1) 0 heap
      let len := found.getD w.len
      let (_, heap) ← bytesAt w.buf len heap
      return .inl { w with pc := .colon, heap := heap, len := len }
  | .colon => .ok (.inl { w with pc := .opendir })
  | .opendir => do
      let (path, heap) ← stringAt w.buf w.heap
      match calls.opendir path with
      | some names => return .inl { w with pc := .entries names, heap := heap }
      | none => return .inl { w with pc := .refuse, heap := heap }
  | .entries [] => .ok (.inl { w with pc := .free })
  | .entries (name :: names) => .ok (.inl { w with pc := .entryName name names })
  | .entryName _ names => .ok (.inl { w with pc := .entryEnd names })
  | .entryEnd names => .ok (.inl { w with pc := .entries names })
  | .refuse => .ok (.inl { w with pc := .free })
  | .free => do
      let ((), heap) ← free w.buf w.heap
      return .inl { w with pc := .malloc, heap := heap }
  | .clean => do
      let ((), heap) ← free w.buf w.heap
      return .inl { w with pc := .returned, heap := heap }
  | .returned => .ok (.inr ())

end Reader

/-! ## Accesses to the block -/

section

variable {h : Heap (List Char)} {p : Ptr} {block : List Char}

private theorem equals_only (hp : h.Only p block) (s : List Char) (i : Nat)
    (hlen : i + s.length < block.length) :
    equals p i s h = .ok ((block.drop i).take (s.length + 1) == s ++ [nul], h) := by
  induction s generalizing i with
  | nil =>
      have hi : i < block.length := hlen
      have htake : (block.drop i).take 1 = [block[i]] := by
        rw [List.drop_eq_getElem_cons hi]
        rfl
      have htest : ([block[i]] == [nul]) = (block[i] == nul) := by simp
      rw [equals, bind_ok (loadAt_only hp hi), List.length_nil, htake, List.nil_append, htest]
      rfl
  | cons c s ih =>
      rw [List.length_cons] at hlen
      have hi : i < block.length := by omega
      have htake : (block.drop i).take ((c :: s).length + 1) =
          block[i] :: (block.drop (i + 1)).take (s.length + 1) := by
        rw [List.drop_eq_getElem_cons hi]
        rfl
      rw [equals, bind_ok (loadAt_only hp hi), htake]
      split
      · next hc =>
          rw [ih (i + 1) (by omega), hc]
          simp
      · next hc =>
          have htest : ∀ t, (block[i] :: t == c :: (s ++ [nul])) = false := by simp [hc]
          rw [List.cons_append, htest]
          rfl

private theorem scan_only {text : List Char} {d : Char} {rest : List Char}
    (htext : ∀ c ∈ text, c ≠ '\n' ∧ c ≠ '\r') (hd : d = '\n' ∨ d = '\r') (pre : List Char)
    (hp : h.Only p (pre ++ (text ++ d :: rest))) {n : Nat} (hn : text.length < n) :
    ∃ h', scan p n pre.length h = .ok (some (pre.length + text.length), h') ∧
      h'.Only p (pre ++ (text ++ nul :: rest)) ∧ h'.grants = h.grants ∧
      h'.requests = h.requests := by
  induction text generalizing pre n with
  | nil =>
      obtain ⟨n, rfl⟩ : ∃ k, n = k + 1 := ⟨n - 1, (Nat.succ_pred_eq_of_pos hn).symm⟩
      rw [List.nil_append] at hp
      obtain ⟨h', hstore, honly, hgrants, hrequests⟩ := storeAt_append hp nul
      refine ⟨h', ?_, honly, hgrants, hrequests⟩
      rw [scan, bind_ok (loadAt_append hp), if_pos hd, bind_ok hstore]
      rfl
  | cons c text ih =>
      rw [List.length_cons] at hn
      obtain ⟨n, rfl⟩ : ∃ k, n = k + 1 := ⟨n - 1, by omega⟩
      rw [List.cons_append] at hp
      have hc : ¬(c = '\n' ∨ c = '\r') := by simpa using htext c List.mem_cons_self
      have hrest : h.Only p (pre ++ [c] ++ (text ++ d :: rest)) := by simpa using hp
      obtain ⟨h', hscan, honly, hgrants, hrequests⟩ :=
        ih (fun b hb => htext b (List.mem_cons_of_mem c hb)) (pre ++ [c]) hrest (n := n) (by omega)
      refine ⟨h', ?_, by simpa using honly, hgrants, hrequests⟩
      rw [scan, bind_ok (loadAt_append hp), if_neg hc]
      simpa [Nat.add_assoc, Nat.add_comm 1] using hscan

private theorem bytesAt_only (hp : h.Only p block) (len : Nat) (hlen : len ≤ block.length) :
    bytesAt p len h = .ok (block.take len, h) := by
  obtain ⟨a, rfl, ha, -⟩ := hp
  rw [bytesAt, bind_ok (load_live ha), if_pos hlen]
  rfl

private theorem stringAt_only (hp : h.Only p block) (hnul : nul ∈ block) :
    stringAt p h = .ok (cString block, h) := by
  obtain ⟨a, rfl, ha, -⟩ := hp
  rw [stringAt, bind_ok (load_live ha), if_pos hnul]
  rfl

end

namespace Reader

/-! ## What the code keeps of a line -/

/-- The bytes of a line before its end. -/
def textOf (line : List Char) : List Char := line.takeWhile fun c => c ≠ '\n' && c ≠ '\r'

/-- The buffer begins with the bytes of the line and has room for three more. -/
structure Filling (buf : List Char) (len : Nat) (line : List Char) : Prop where
  len : len = line.length
  bytes : ∃ behind, buf = line ++ behind ∧ 3 ≤ behind.length
  size : Work.bufSize ≤ buf.length

/-- The buffer begins with the text of the line as a string. -/
structure Cut (buf : List Char) (len : Nat) (line : List Char) : Prop where
  len : len = (textOf line).length
  shorter : (textOf line).length < line.length
  bytes : ∃ behind, buf = textOf line ++ nul :: behind

def Stage (buf : List Char) (len : Nat) (line : List Char) : WorkPc → Prop
  | .read => Filling buf len line
  | .line => Filling buf len line ∧ '\n' ∈ line
  | .colon => Cut buf len line
  | .opendir => Cut buf len line
  | _ => True

/-- The block behind `buf` is all that is live; none is live between two lines. -/
def Owned (w : Reader) (block : List Char) : WorkPc → Prop
  | .malloc => w.heap.Clear
  | .returned => w.heap.Clear
  | .clean => (w.buf = none ∧ w.heap.Clear) ∨ w.heap.Only w.buf block
  | _ => w.heap.Only w.buf block ∧ w.bufSize = block.length

/-- The reader does what the server of a session does, whose buffer is a list. -/
structure Represents (calls : Calls) (stream : Nat → Option Char) (w : Reader) (v : Work) :
    Prop where
  pc : w.pc = v.pc
  len : w.len = v.len
  c : w.c = v.c
  allocs : w.heap.requests = v.allocs
  reads : w.reads = v.reads
  grants : w.heap.grants = fun n => (calls.alloc n).isSome
  owned : w.Owned v.buf v.pc
  stage : Stage v.buf v.len (w.line stream) v.pc
  begins : w.begins ≤ w.reads
  last : w.pc = .read → w.c = (w.line stream).getLast?.getD nul

variable {calls : Calls} {stream : Nat → Option Char} {w : Reader} {v : Work} {buf line : List Char}
  {len : Nat}

private theorem start_represents (calls : Calls) :
    Represents calls stream (start calls) .start where
  pc := rfl
  len := rfl
  c := rfl
  allocs := rfl
  reads := rfl
  grants := rfl
  owned := Heap.clear_empty _
  stage := trivial
  begins := Nat.le_refl 0
  last hpc := by cases hpc

theorem Represents.memory (h : Represents calls stream w v) {memory : Nat → Char}
    (hm : calls.alloc v.allocs = some memory) :
    w.heap.grants w.heap.requests = true ∧ calls.memory w.heap.requests = memory := by
  rw [h.grants, h.allocs]
  simp [Calls.memory, hm]

private theorem Represents.refused (h : Represents calls stream w v)
    (hm : calls.alloc v.allocs = none) :
    w.heap.grants w.heap.requests = false := by
  rw [h.grants, h.allocs]
  simp [hm]

private theorem Represents.move (h : Represents calls stream w v) {pc : WorkPc}
    (howned : w.Owned v.buf pc)
    (hstage : Stage v.buf v.len (w.line stream) pc) (hread : pc ≠ .read) :
    Represents calls stream { w with pc := pc } { v with pc := pc } :=
  ⟨rfl, h.len, h.c, h.allocs, h.reads, h.grants, howned, hstage, h.begins,
    fun hpc => absurd hpc hread⟩

/-- Both take a step to states that still correspond, or none. -/
def Lockstep (calls : Calls) (stream : Nat → Option Char) (next : Except Fault (Reader ⊕ Unit)) :
    Option (Work × List Char × List Char) → Prop
  | none => next = .ok (.inr ())
  | some (v, _, _) => ∃ w, next = .ok (.inl w) ∧ Represents calls stream w v

theorem step_malloc (h : Represents calls stream w v) (hpc : v.pc = .malloc) (input : List Char) :
    Lockstep calls stream (step calls stream w) (v.step calls input true) := by
  have hclear := h.owned
  rw [hpc] at hclear
  cases hm : calls.alloc v.allocs with
  | none =>
      have hmalloc := mallocWith_refused (fun n => (List.range Work.bufSize).map (calls.memory n))
        (h.refused hm)
      simp only [Work.step, hpc, hm]
      refine ⟨{ w with pc := .clean, heap := w.heap.refuse, buf := none }, ?_, ?_⟩
      · simp only [step, h.pc, hpc, mallocBlock]
        rw [bind_of_ok hmalloc]
        rfl
      · exact ⟨rfl, h.len, h.c, congrArg (· + 1) h.allocs, h.reads, h.grants, .inl ⟨rfl, hclear⟩,
          trivial, h.begins, fun hread => by cases hread⟩
  | some memory =>
      obtain ⟨hgranted, hmemory⟩ := h.memory hm
      obtain ⟨p, heap, hmalloc, honly, hgrants, hrequests⟩ :=
        mallocBlock_clear calls.memory hclear Work.bufSize hgranted
      rw [hmemory] at honly
      have hp : p ≠ none := by
        obtain ⟨a, rfl, -⟩ := honly
        exact Option.some_ne_none a
      have hsize : ((List.range Work.bufSize).map memory).length = Work.bufSize := by simp
      simp only [Work.step, hpc, hm]
      generalize (List.range Work.bufSize).map memory = block at honly hsize
      refine ⟨{ w with
        pc := .read, heap := heap, buf := p, bufSize := Work.bufSize, len := 0, c := nul,
        begins := w.reads }, ?_, ?_⟩
      · simp only [step, h.pc, hpc]
        rw [bind_of_ok hmalloc]
        dsimp only
        rw [if_neg hp]
        rfl
      · refine ⟨rfl, rfl, rfl, hrequests.trans (congrArg (· + 1) h.allocs), h.reads,
          hgrants.trans h.grants, ⟨honly, hsize.symm⟩, ?_, Nat.le_refl _, fun _ => ?_⟩
        · rw [line_malloc]
          · refine ⟨rfl, ⟨block, rfl, ?_⟩, Nat.le_of_eq hsize.symm⟩
            rw [hsize]
            decide
          · rfl
        · rw [line_malloc]
          · rfl
          · rfl

theorem Filling.set (hfilling : Filling buf len line) (c : Char) :
    len < buf.length ∧ ∃ behind, buf.set len c = line ++ [c] ++ behind ∧ 2 ≤ behind.length := by
  obtain ⟨hlen, ⟨behind, hbuf, hroom⟩, -⟩ := hfilling
  obtain ⟨x, behind, rfl⟩ : ∃ x more, behind = x :: more := by
    cases behind with
    | nil => simp at hroom
    | cons x more => exact ⟨x, more, rfl⟩
  refine ⟨?_, behind, ?_, Nat.le_of_succ_le_succ hroom⟩
  · rw [hbuf, hlen]
    simp
  · rw [hbuf, hlen]
    simp

private theorem stage_store {c : Char} (hlen : len = line.length + 1) {behind : List Char}
    (hbuf : buf = line ++ [c] ++ behind) (hroom : 3 ≤ behind.length)
    (hsize : Work.bufSize ≤ buf.length) :
    Stage buf len (line ++ [c]) (if c = '\n' then .line else .read) := by
  have hfilling : Filling buf len (line ++ [c]) :=
    ⟨by simpa using hlen, ⟨behind, hbuf, hroom⟩, hsize⟩
  split
  · next hc => exact ⟨hfilling, by simp [hc]⟩
  · exact hfilling

private theorem owned_of_only {c : Char} (honly : w.heap.Only w.buf buf)
    (hsize : w.bufSize = buf.length) :
    w.Owned buf (if c = '\n' then .line else .read) := by
  split
  · exact ⟨honly, hsize⟩
  · exact ⟨honly, hsize⟩

private theorem store_represents (h : Represents calls stream w v) (hpc : v.pc = .read) :
    let c := (stream v.reads).getD v.c
    ∃ w', { w with reads := w.reads + 1 }.store calls c = .ok (.inl w') ∧
      Represents calls stream w' ({ v with reads := v.reads + 1 }.store calls c) := by
  intro c
  have hline (w' : Reader) (hbegins : w'.begins = w.begins) (hreads : w'.reads = w.reads + 1) :
      w'.line stream = w.line stream ++ [c] := by
    rw [line_read stream w w' h.begins hbegins hreads, ← h.last (h.pc.trans hpc), h.reads, h.c]
  have hlast (w' : Reader) (hc : w'.c = c) (hbegins : w'.begins = w.begins)
      (hreads : w'.reads = w.reads + 1) : w'.c = (w'.line stream).getLast?.getD nul := by
    rw [hline w' hbegins hreads, hc, List.getLast?_concat]
    rfl
  have hnext : w.reads + 1 = v.reads + 1 := congrArg (· + 1) h.reads
  have hbegins : w.begins ≤ w.reads + 1 := Nat.le_succ_of_le h.begins
  have howned := h.owned
  have hfilling := h.stage
  rw [hpc] at howned hfilling
  obtain ⟨honly, hsize⟩ := howned
  have hlen := hfilling.len
  have hlarge := hfilling.size
  obtain ⟨hlt, behind, hset, hroom⟩ := hfilling.set c
  obtain ⟨heap, hstore, honly₁, hgrants, hrequests⟩ := storeAt_only honly c (h.len ▸ hlt)
  have hlength : (v.buf.set v.len c).length = v.buf.length := List.length_set
  rw [h.len] at hstore honly₁
  unfold store Work.store
  rw [h.len, bind_of_ok hstore]
  dsimp only
  rw [hlength, hsize]
  split
  · next hfull =>
      cases hm : calls.alloc v.allocs with
      | none =>
          have hrefused : heap.grants heap.requests = false := by
            rw [hgrants, hrequests]
            exact h.refused hm
          have hrealloc := reallocBlock_refused calls.memory honly₁ (v.buf.length * 2) hrefused
          refine ⟨{ w with
            pc := .clean, heap := heap.refuse, bufSize := v.buf.length, len := v.len + 1, c := c,
            reads := w.reads + 1 }, ?_, ?_⟩
          · rw [bind_of_ok hrealloc]
            rfl
          · exact ⟨rfl, rfl, rfl, congrArg (· + 1) (hrequests.trans h.allocs), hnext,
              hgrants.trans h.grants, .inr honly₁, trivial, hbegins, fun hread => by cases hread⟩
      | some memory =>
          obtain ⟨hgranted, hmemory⟩ := h.memory hm
          rw [← hgrants, ← hrequests] at hgranted
          obtain ⟨q, heap', hrealloc, hq, honly', hgrants', hrequests'⟩ :=
            reallocBlock_granted calls.memory honly₁ (v.buf.length * 2) hgranted
          rw [hrequests, hmemory, hlength, Nat.mul_two, Nat.add_sub_cancel] at honly'
          refine ⟨{ w with
            pc := if c = '\n' then .line else .read, heap := heap', buf := q,
            bufSize := v.buf.length * 2, len := v.len + 1, c := c, reads := w.reads + 1 }, ?_, ?_⟩
          · rw [bind_of_ok hrealloc]
            dsimp only
            rw [if_neg hq]
            rfl
          · have hgrown : 3 ≤ (behind ++ (List.range v.buf.length).map fun i =>
                memory (v.buf.length + i)).length := by
              rw [List.length_append, List.length_map, List.length_range]
              omega
            refine ⟨rfl, rfl, rfl, ?_, hnext, (hgrants'.trans hgrants).trans h.grants, ?_, ?_,
              hbegins, fun _ => hlast _ rfl rfl rfl⟩
            · exact hrequests'.trans (congrArg (· + 1) (hrequests.trans h.allocs))
            · refine owned_of_only honly' ?_
              show v.buf.length * 2 = (_ ++ _ : List Char).length
              rw [List.length_append, hlength, List.length_map, List.length_range, Nat.mul_two]
            · rw [hline]
              · refine stage_store (congrArg (· + 1) hlen) ?_ hgrown ?_
                · rw [← List.append_assoc, ← hset]
                · show _ ≤ (_ ++ _ : List Char).length
                  rw [List.length_append, hlength]
                  omega
              · rfl
              · rfl
  · next hroomy =>
      refine ⟨{ w with
        pc := if c = '\n' then .line else .read, heap := heap, bufSize := v.buf.length,
        len := v.len + 1, c := c, reads := w.reads + 1 }, rfl, ?_⟩
      refine ⟨rfl, rfl, rfl, hrequests.trans h.allocs, hnext, hgrants.trans h.grants, ?_, ?_,
        hbegins, fun _ => hlast _ rfl rfl rfl⟩
      · exact owned_of_only honly₁ hlength.symm
      · have htotal := congrArg List.length hset
        simp only [hlength, List.length_append, List.length_cons, List.length_nil] at htotal
        rw [hline]
        · refine stage_store (congrArg (· + 1) hlen) hset ?_
            (Nat.le_trans hlarge (Nat.le_of_eq hlength.symm))
          omega
        · rfl
        · rfl

private theorem textOf_split (hend : '\n' ∈ line) :
    ∃ d more, line = textOf line ++ d :: more ∧ (d = '\n' ∨ d = '\r') ∧
      ∀ c ∈ textOf line, c ≠ '\n' ∧ c ≠ '\r' := by
  have htext : ∀ c ∈ textOf line, c ≠ '\n' ∧ c ≠ '\r' := by
    intro c hc
    simpa [textOf] using List.mem_takeWhile_imp hc
  have hsplit : textOf line ++ line.dropWhile (fun c => c ≠ '\n' && c ≠ '\r') = line :=
    List.takeWhile_append_dropWhile
  cases hd : line.dropWhile (fun c => c ≠ '\n' && c ≠ '\r') with
  | nil =>
      rw [hd, List.append_nil] at hsplit
      rw [← hsplit] at hend
      exact absurd rfl (htext _ hend).1
  | cons d more =>
      have hstop := List.head?_dropWhile_not (fun c => c ≠ '\n' && c ≠ '\r') line
      rw [hd] at hstop hsplit
      refine ⟨d, more, hsplit.symm, ?_, htext⟩
      by_contra hne
      rw [not_or] at hne
      simp [hne.1, hne.2] at hstop

theorem step_line (h : Represents calls stream w v) (hpc : v.pc = .line) (input : List Char) :
    Lockstep calls stream (step calls stream w) (v.step calls input true) := by
  have howned := h.owned
  have hstage := h.stage
  rw [hpc] at howned hstage
  obtain ⟨honly, hsize⟩ := howned
  obtain ⟨⟨hlen, ⟨behind, hbuf, -⟩, hlarge⟩, hend⟩ := hstage
  have hequals := equals_only honly closeLine 0 (by
    have hshort : 0 + closeLine.length < Work.bufSize := by decide
    omega)
  rw [List.drop_zero] at hequals
  by_cases hclose : v.buf.take (closeLine.length + 1) = closeLine ++ [nul]
  · obtain ⟨heap, hfree, hclear, hgrants, hrequests⟩ := free_only honly
    rw [beq_iff_eq.mpr hclose] at hequals
    simp only [Work.step, hpc, if_pos hclose]
    refine ⟨{ w with pc := .returned, heap := heap }, ?_, ?_⟩
    · simp only [step, h.pc, hpc]
      rw [bind_of_ok hequals]
      dsimp only
      rw [if_pos rfl, bind_of_ok hfree]
      rfl
    · exact ⟨rfl, h.len, h.c, hrequests.trans h.allocs, h.reads, hgrants.trans h.grants, hclear,
        trivial, h.begins, fun hread => by cases hread⟩
  · obtain ⟨d, more, hsplit, hd, htext⟩ := textOf_split hend
    have hshorter : (textOf (w.line stream)).length < (w.line stream).length := by
      conv => rhs; rw [hsplit]
      simp
    have hblock : v.buf = textOf (w.line stream) ++ d :: (more ++ behind) := by
      rw [hbuf]
      conv => lhs; rw [hsplit]
      simp
    have hle : (textOf (w.line stream)).length ≤ v.len := by omega
    have hcut := Work.cut_first htext hd (more ++ behind) hle
    rw [← hblock] at hcut
    have honly₀ : w.heap.Only w.buf ([] ++ (textOf (w.line stream) ++ d :: (more ++ behind))) := by
      rwa [List.nil_append, ← hblock]
    obtain ⟨heap, hscan, honly', hgrants, hrequests⟩ :=
      scan_only htext hd [] honly₀ (n := w.len + 1) (by have := h.len; omega)
    rw [List.length_nil, Nat.zero_add] at hscan
    rw [List.nil_append] at honly'
    have hwrite := bytesAt_only honly' (textOf (w.line stream)).length (by simp)
    rw [beq_eq_false_iff_ne.mpr hclose] at hequals
    simp only [Work.step, hpc, if_neg hclose, hcut]
    refine ⟨{ w with pc := .colon, heap := heap, len := (textOf (w.line stream)).length }, ?_, ?_⟩
    · simp only [step, h.pc, hpc]
      rw [bind_of_ok hequals]
      dsimp only
      rw [if_neg Bool.false_ne_true, bind_of_ok hscan]
      dsimp only
      rw [Option.getD_some, bind_of_ok hwrite]
      rfl
    · refine ⟨rfl, rfl, h.c, hrequests.trans h.allocs, h.reads, hgrants.trans h.grants,
        ⟨honly', ?_⟩, ⟨rfl, hshorter, more ++ behind, rfl⟩, h.begins, fun hread => by cases hread⟩
      show w.bufSize = _
      rw [hsize, hblock]
      simp

private theorem step_opendir (h : Represents calls stream w v) (hpc : v.pc = .opendir)
    (input : List Char) :
    Lockstep calls stream (step calls stream w) (v.step calls input true) := by
  have howned := h.owned
  have hstage := h.stage
  rw [hpc] at howned hstage
  obtain ⟨behind, hbuf⟩ := hstage.bytes
  have hstring := stringAt_only howned.1 (by simp [hbuf])
  cases hdir : calls.opendir (cString v.buf) with
  | some names =>
      simp only [Work.step, hpc, hdir]
      refine ⟨{ w with pc := .entries names }, ?_, ?_⟩
      · simp only [step, h.pc, hpc]
        rw [bind_of_ok hstring]
        dsimp only
        rw [hdir]
        rfl
      · exact h.move howned trivial (by simp)
  | none =>
      simp only [Work.step, hpc, hdir]
      refine ⟨{ w with pc := .refuse }, ?_, ?_⟩
      · simp only [step, h.pc, hpc]
        rw [bind_of_ok hstring]
        dsimp only
        rw [hdir]
        rfl
      · exact h.move howned trivial (by simp)

private theorem step_free (h : Represents calls stream w v) (hpc : v.pc = .free)
    (input : List Char) :
    Lockstep calls stream (step calls stream w) (v.step calls input true) := by
  have howned := h.owned
  rw [hpc] at howned
  obtain ⟨heap, hfree, hclear, hgrants, hrequests⟩ := free_only howned.1
  simp only [Work.step, hpc]
  refine ⟨{ w with pc := .malloc, heap := heap }, ?_, ?_⟩
  · simp only [step, h.pc, hpc]
    rw [bind_of_ok hfree]
    rfl
  · exact ⟨rfl, h.len, h.c, hrequests.trans h.allocs, h.reads, hgrants.trans h.grants, hclear,
      trivial, h.begins, fun hread => by cases hread⟩

private theorem step_clean (h : Represents calls stream w v) (hpc : v.pc = .clean)
    (input : List Char) :
    Lockstep calls stream (step calls stream w) (v.step calls input true) := by
  have howned := h.owned
  rw [hpc] at howned
  obtain ⟨heap, hfree, hclear, hgrants, hrequests⟩ : ∃ heap, free w.buf w.heap = .ok ((), heap) ∧
      heap.Clear ∧ heap.grants = w.heap.grants ∧ heap.requests = w.heap.requests := by
    rcases howned with ⟨hnull, hclear⟩ | honly
    · rw [hnull]
      exact ⟨w.heap, rfl, hclear, rfl, rfl⟩
    · exact free_only honly
  simp only [Work.step, hpc]
  refine ⟨{ w with pc := .returned, heap := heap }, ?_, ?_⟩
  · simp only [step, h.pc, hpc]
    rw [bind_of_ok hfree]
    rfl
  · exact ⟨rfl, h.len, h.c, hrequests.trans h.allocs, h.reads, hgrants.trans h.grants, hclear,
      trivial, h.begins, fun hread => by cases hread⟩

theorem step_read (h : Represents calls stream w v) (hpc : v.pc = .read) :
    Lockstep calls stream (step calls stream w) (v.step calls (stream v.reads).toList true) := by
  have howned := h.owned
  rw [hpc] at howned
  cases hfail : calls.readFails v.reads with
  | true =>
      simp only [Work.step, hpc, hfail, if_true]
      refine ⟨{ w with pc := .clean, reads := w.reads + 1 }, ?_, ?_⟩
      · simp only [step, h.pc, hpc, h.reads, hfail, if_true]
      · exact ⟨rfl, h.len, h.c, h.allocs, congrArg (· + 1) h.reads, h.grants, .inr howned.1,
          trivial, Nat.le_succ_of_le h.begins, fun hread => by cases hread⟩
  | false =>
      have hstep : step calls stream w =
          { w with reads := w.reads + 1 }.store calls ((stream v.reads).getD v.c) := by
        simp only [step, h.pc, hpc, h.reads, h.c, hfail, Bool.false_eq_true, if_false]
      obtain ⟨w', hstore, hw'⟩ := store_represents h hpc
      rw [hstep, hstore]
      cases hbyte : stream v.reads with
      | none =>
          rw [hbyte] at hw'
          simp only [Work.step, hpc, hfail, Bool.false_eq_true, if_false, if_true,
            Option.toList_none]
          exact ⟨w', rfl, hw'⟩
      | some b =>
          rw [hbyte] at hw'
          simp only [Work.step, hpc, hfail, Bool.false_eq_true, if_false, Option.toList_some]
          exact ⟨w', rfl, hw'⟩

private theorem step_lockstep (h : Represents calls stream w v) :
    Lockstep calls stream (step calls stream w) (v.step calls (stream v.reads).toList true) := by
  have howned := h.owned
  have hstage := h.stage
  cases hpc : v.pc with
  | malloc => exact step_malloc h hpc _
  | read => exact step_read h hpc
  | line => exact step_line h hpc _
  | opendir => exact step_opendir h hpc _
  | free => exact step_free h hpc _
  | clean => exact step_clean h hpc _
  | returned =>
      simp only [Work.step, step, h.pc, hpc]
      rfl
  | colon =>
      rw [hpc] at howned hstage
      simp only [Work.step, step, h.pc, hpc]
      exact ⟨_, rfl, h.move howned hstage (by simp)⟩
  | entries names =>
      rw [hpc] at howned
      cases names with
      | nil =>
          simp only [Work.step, step, h.pc, hpc]
          exact ⟨_, rfl, h.move howned trivial (by simp)⟩
      | cons name names =>
          simp only [Work.step, step, h.pc, hpc]
          exact ⟨_, rfl, h.move howned trivial (by simp)⟩
  | entryName name names | entryEnd names | refuse =>
      rw [hpc] at howned
      simp only [Work.step, step, h.pc, hpc]
      exact ⟨_, rfl, h.move howned trivial (by simp)⟩

/-! ## Runs -/

/-- A step of the server of a session on the same stream. -/
def workStep (calls : Calls) (stream : Nat → Option Char) (v : Work) :
    Except Fault (Work ⊕ Unit) :=
  match v.step calls (stream v.reads).toList true with
  | none => .ok (.inr ())
  | some (v, _, _) => .ok (.inl v)

private theorem reader_refines_work {n : Nat}
    (h : roundAt (step calls stream) n (start calls) = some w) :
    ∃ v, roundAt (workStep calls stream) n .start = some v ∧ Represents calls stream w v := by
  refine roundAt_simulates ?_ (start_represents calls) h
  intro w v w' hw hstep
  have hlock : Lockstep calls stream (step calls stream w) _ := step_lockstep hw
  rw [hstep] at hlock
  unfold workStep
  cases hv : v.step calls (stream v.reads).toList true with
  | none =>
      rw [hv] at hlock
      cases hlock
  | some next =>
      obtain ⟨v', rest, sent⟩ := next
      rw [hv] at hlock
      obtain ⟨u, hu, huv⟩ := hlock
      cases hu
      exact ⟨v', rfl, huv⟩

/-- What holds of the buffer in a state of `do_work`, where `line` is what `read` has given. -/
structure Sound (calls : Calls) (stream : Nat → Option Char) (w : Reader) : Prop where
  /-- The next step accesses nothing outside of a live block, and frees nothing twice. -/
  noFault : ∃ next, step calls stream w = .ok next
  reading : w.pc = .read ∨ w.pc = .line → w.len + 3 ≤ w.bufSize ∧ w.len = (w.line stream).length ∧
    ∃ block, w.heap.Only w.buf block ∧ block.length = w.bufSize ∧ block.take w.len = w.line stream
  /-- The scan finds an end. -/
  ended : w.pc = .line → '\n' ∈ w.line stream
  cut : w.pc = .colon → w.len = (textOf (w.line stream)).length ∧ w.len < (w.line stream).length ∧
    ∃ behind, w.heap.Only w.buf (textOf (w.line stream) ++ nul :: behind)
  /-- Behind a call that failed the block is still live, if there is one, and is freed. -/
  clean : w.pc = .clean →
    ((w.buf = none ∧ w.heap.Clear) ∨ ∃ block, w.heap.Only w.buf block) ∧
      ∃ t, step calls stream w = .ok (.inl t) ∧ t.pc = .returned ∧ t.heap.Clear
  /-- Between two lines, and at the end, all that was allocated has been freed. -/
  released : w.pc = .malloc ∨ w.pc = .returned → w.heap.Clear

theorem Filling.reading (hfilling : Filling buf len line) :
    len + 3 ≤ buf.length ∧ len = line.length ∧ buf.take len = line := by
  obtain ⟨hlen, ⟨behind, hbuf, hroom⟩, -⟩ := hfilling
  refine ⟨?_, hlen, ?_⟩
  · rw [hbuf, List.length_append]
    omega
  · rw [hbuf, hlen, List.take_left]

private theorem Represents.sound (h : Represents calls stream w v) : Sound calls stream w where
  noFault := by
    have hlock : Lockstep calls stream (step calls stream w) _ := step_lockstep h
    cases hv : v.step calls (stream v.reads).toList true with
    | none =>
        rw [hv] at hlock
        exact ⟨_, hlock⟩
    | some next =>
        rw [hv] at hlock
        obtain ⟨t, ht, -⟩ := hlock
        exact ⟨_, ht⟩
  reading hpc := by
    have howned := h.owned
    have hstage := h.stage
    rw [← h.pc] at howned hstage
    obtain ⟨⟨honly, hsize⟩, hfilling⟩ :
        (w.heap.Only w.buf v.buf ∧ w.bufSize = v.buf.length) ∧
          Filling v.buf v.len (w.line stream) := by
      rcases hpc with hpc | hpc
      · rw [hpc] at howned hstage
        exact ⟨howned, hstage⟩
      · rw [hpc] at howned hstage
        exact ⟨howned, hstage.1⟩
    obtain ⟨hroom, hlen, htake⟩ := hfilling.reading
    rw [h.len, hsize]
    exact ⟨hroom, hlen, v.buf, honly, rfl, htake⟩
  ended hpc := by
    have hstage := h.stage
    rw [← h.pc, hpc] at hstage
    exact hstage.2
  cut hpc := by
    have howned := h.owned
    have hstage := h.stage
    rw [← h.pc, hpc] at howned hstage
    obtain ⟨hlen, hshorter, behind, hbuf⟩ := hstage
    refine ⟨h.len.trans hlen, ?_, behind, hbuf ▸ howned.1⟩
    rw [h.len, hlen]
    exact hshorter
  clean hpc := by
    have howned := h.owned
    rw [← h.pc, hpc] at howned
    refine ⟨howned.imp_right fun honly => ⟨v.buf, honly⟩, ?_⟩
    have hvpc : v.pc = .clean := h.pc.symm.trans hpc
    have hlock : Lockstep calls stream (step calls stream w) _ := step_clean h hvpc []
    simp only [Work.step, hvpc] at hlock
    obtain ⟨t, ht, hnext⟩ := hlock
    exact ⟨t, ht, hnext.pc, hnext.owned⟩
  released hpc := by
    have howned := h.owned
    rcases hpc with hpc | hpc
    · rwa [← h.pc, hpc] at howned
    · rwa [← h.pc, hpc] at howned

/-- The buffer of `do_work` is used and released as it should be, whatever is read and whatever
fails. -/
theorem do_work_buffer {n : Nat} (h : roundAt (step calls stream) n (start calls) = some w) :
    Sound calls stream w := by
  obtain ⟨v, -, hv⟩ := reader_refines_work h
  exact hv.sound

/-! ## A line that is longer than the first block -/

/-- The reader follows the server of a session. -/
private theorem Represents.follows (h : Represents calls stream w v) {n : Nat} {v' : Work}
    (hv : roundAt (workStep calls stream) n v = some v') :
    ∃ w', roundAt (step calls stream) n w = some w' ∧ Represents calls stream w' v' := by
  refine roundAt_simulates (R := fun v w => Represents calls stream w v) ?_ h hv
  intro v w v' hw hstep
  have hlock : Lockstep calls stream (step calls stream w) _ := step_lockstep hw
  unfold workStep at hstep
  cases hs : v.step calls (stream v.reads).toList true with
  | none =>
      rw [hs] at hstep
      cases hstep
  | some next =>
      obtain ⟨u, rest, sent⟩ := next
      rw [hs] at hstep hlock
      cases hstep
      exact hlock

private theorem workStep_byte {c : Char} (hpc : v.pc = .read)
    (hread : calls.readFails v.reads = false) (halloc : ∀ n, calls.alloc n ≠ none)
    (hbyte : stream v.reads = some c) :
    ∃ v', workStep calls stream v = .ok (.inl v') ∧ v'.reads = v.reads + 1 ∧
      v'.len = v.len + 1 ∧ v'.pc = if c = '\n' then .line else .read := by
  refine ⟨{ v with reads := v.reads + 1 }.store calls c, ?_, ?_⟩
  · simp only [workStep, Work.step, hpc, hread, hbyte, Bool.false_eq_true, if_false,
      Option.toList_some]
  · unfold Work.store
    dsimp only
    split
    · cases hm : calls.alloc v.allocs with
      | none => exact absurd hm (halloc v.allocs)
      | some memory => exact ⟨rfl, rfl, rfl⟩
    · exact ⟨rfl, rfl, rfl⟩

private theorem workStep_bytes (halloc : ∀ n, calls.alloc n ≠ none) {m : Nat}
    (hread : ∀ n < m, calls.readFails n = false) {c : Char} (hc : c ≠ '\n') (n : Nat)
    (hpc : v.pc = .read) (hn : v.reads + n ≤ m)
    (hbytes : ∀ i < n, stream (v.reads + i) = some c) :
    ∃ v', roundAt (workStep calls stream) n v = some v' ∧ v'.pc = .read ∧
      v'.reads = v.reads + n ∧ v'.len = v.len + n := by
  induction n generalizing v with
  | zero => exact ⟨v, rfl, hpc, rfl, rfl⟩
  | succ n ih =>
      obtain ⟨u, hstep, hreads, hlen, hu⟩ :=
        workStep_byte hpc (hread v.reads (by omega)) halloc (hbytes 0 (Nat.succ_pos n))
      rw [if_neg hc] at hu
      have hrest : ∀ i < n, stream (u.reads + i) = some c := by
        intro i hi
        rw [hreads, Nat.add_right_comm]
        exact hbytes (i + 1) (Nat.succ_lt_succ hi)
      obtain ⟨v', hrun, hpc', hreads', hlen'⟩ := ih hu (by omega) hrest
      exact ⟨v', (roundAt_next hstep).trans hrun, hpc', by omega, by omega⟩

private theorem length_bytesFrom (stream : Nat → Option Char) (begins n : Nat) :
    (bytesFrom stream begins n).length = n := by
  induction n with
  | zero => rfl
  | succ n ih => rw [bytesFrom, List.length_append, ih, List.length_singleton]

private theorem bytesFrom_replicate {begins : Nat} {c : Char} (n : Nat)
    (h : ∀ i < n, stream (begins + i) = some c) :
    bytesFrom stream begins n = List.replicate n c := by
  induction n with
  | zero => rfl
  | succ n ih =>
      rw [bytesFrom, ih fun i hi => h i (Nat.lt_succ_of_lt hi), h n (Nat.lt_succ_self n),
        List.replicate_succ']
      rfl

/-- The calls succeed up to the first `read` of the second line. -/
private def longCalls : Calls := { Calls.zeroed fun _ => none with readFails := fun n => n == 1032 }

private def longStream (n : Nat) : Option Char :=
  if n < 1030 then some 'a' else if n = 1030 then some '\r' else some '\n'

private theorem long_line :
    ∃ w v, roundAt (step longCalls longStream) 1033 (start longCalls) = some w ∧
      Represents longCalls longStream w v ∧ v.pc = .line ∧ v.reads = 1032 ∧ v.len = 1032 := by
  have halloc (n : Nat) : longCalls.alloc n ≠ none := Option.some_ne_none _
  have hread (n : Nat) (hn : n < 1032) : longCalls.readFails n = false :=
    beq_eq_false_iff_ne.mpr (Nat.ne_of_lt hn)
  have hstart : ∃ v, roundAt (workStep longCalls longStream) 1 .start = some v ∧ v.pc = .read ∧
      v.reads = 0 ∧ v.len = 0 := ⟨_, rfl, rfl, rfl, rfl⟩
  obtain ⟨v₀, hmalloc, hpc₀, hreads₀, hlen₀⟩ := hstart
  have htext : ∀ i < 1030, longStream (v₀.reads + i) = some 'a' := by
    intro i hi
    rw [hreads₀, Nat.zero_add]
    exact if_pos hi
  obtain ⟨v₁, hbytes, hpc₁, hreads₁, hlen₁⟩ :=
    workStep_bytes halloc hread (by decide) 1030 hpc₀ (by omega) htext
  have hreturn : longStream v₁.reads = some '\r' := by
    rw [hreads₁, hreads₀]
    rfl
  obtain ⟨v₂, hstep₂, hreads₂, hlen₂, hpc₂⟩ :=
    workStep_byte hpc₁ (hread v₁.reads (by omega)) halloc hreturn
  rw [if_neg (by decide)] at hpc₂
  have hend : longStream v₂.reads = some '\n' := by
    rw [hreads₂, hreads₁, hreads₀]
    rfl
  obtain ⟨v, hstep, hreads, hlen, hpc⟩ :=
    workStep_byte hpc₂ (hread v₂.reads (by omega)) halloc hend
  rw [if_pos rfl] at hpc
  have hrun : roundAt (workStep longCalls longStream) 1033 .start = some v := by
    calc roundAt (workStep longCalls longStream) (1 + (1030 + (1 + 1))) .start
        = roundAt (workStep longCalls longStream) (1030 + (1 + 1)) v₀ := roundAt_add hmalloc
      _ = roundAt (workStep longCalls longStream) (1 + 1) v₁ := roundAt_add hbytes
      _ = roundAt (workStep longCalls longStream) 1 v₂ := roundAt_next hstep₂
      _ = some v := roundAt_next hstep
  obtain ⟨w, hw, hrep⟩ := (start_represents longCalls).follows hrun
  exact ⟨w, v, hw, hrep, hpc, by omega, by omega⟩

private theorem line_long (h : Represents longCalls longStream w v) (hpc : v.pc = .line)
    (hreads : v.reads = 1032) (hlen : v.len = 1032) :
    w.line longStream = List.replicate 1030 'a' ++ ['\r'] ++ ['\n'] := by
  have hstage := h.stage
  rw [hpc] at hstage
  have hcount := hstage.1.len
  rw [line, length_bytesFrom, h.reads, hreads, hlen] at hcount
  have hbegins : w.begins = 0 := by omega
  have htext : bytesFrom longStream 0 1030 = List.replicate 1030 'a' := by
    refine bytesFrom_replicate 1030 fun i hi => ?_
    rw [Nat.zero_add]
    exact if_pos hi
  rw [line, hbegins, h.reads, hreads, Nat.sub_zero, bytesFrom, bytesFrom, htext]
  rfl

private theorem workStep_long (h : Represents longCalls longStream w v) (hpc : v.pc = .line)
    (hline : w.line longStream = List.replicate 1030 'a' ++ ['\r'] ++ ['\n'])
    (hlen : v.len = 1032) :
    ∃ buf, workStep longCalls longStream v =
      .ok (.inl { v with pc := .colon, buf := buf, len := 1030 }) := by
  have hstage := h.stage
  rw [hpc, hline] at hstage
  obtain ⟨behind, hbuf, -⟩ := hstage.1.bytes
  have hblock : v.buf = List.replicate 1030 'a' ++ '\r' :: '\n' :: behind := by
    rw [hbuf, List.append_assoc, List.append_assoc]
    rfl
  obtain ⟨more, hfirst⟩ : ∃ more, v.buf = 'a' :: more := by
    rw [hblock, List.replicate_succ]
    exact ⟨_, rfl⟩
  have hopen : v.buf.take (closeLine.length + 1) ≠ closeLine ++ [nul] := by
    rw [hfirst]
    simp [closeLine]
  have htext : ∀ c ∈ List.replicate 1030 'a', c ≠ '\n' ∧ c ≠ '\r' := by
    intro c hc
    rw [List.eq_of_mem_replicate hc]
    decide
  have hle : (List.replicate 1030 'a').length ≤ v.len := by
    rw [List.length_replicate, hlen]
    decide
  have hcut := Work.cut_first htext (.inr rfl) ('\n' :: behind) hle
  rw [← hblock, List.length_replicate] at hcut
  refine ⟨List.replicate 1030 'a' ++ nul :: '\n' :: behind, ?_⟩
  simp only [workStep, Work.step, hpc, if_neg hopen, hcut]

private theorem workStep_failing (hpc : v.pc = .colon) (hreads : v.reads = 1032) :
    ∃ u, roundAt (workStep longCalls longStream) 6 v = some u ∧ u.pc = .clean := by
  obtain ⟨pc, buf, len, c, allocs, reads⟩ := v
  obtain rfl : pc = .colon := hpc
  obtain rfl : reads = 1032 := hreads
  exact ⟨_, rfl, rfl⟩

/-- A line that the first block does not hold, its end, and the failing `read` behind it. -/
theorem do_work_buffer_long :
    ∃ grown cut failed : Reader,
      roundAt (step longCalls longStream) 1033 (start longCalls) = some grown ∧
      grown.pc = .line ∧ 1024 < grown.bufSize ∧ Sound longCalls longStream grown ∧
      roundAt (step longCalls longStream) 1034 (start longCalls) = some cut ∧
      cut.pc = .colon ∧ cut.len = 1030 ∧ Sound longCalls longStream cut ∧
      roundAt (step longCalls longStream) 1040 (start longCalls) = some failed ∧
      failed.pc = .clean ∧ Sound longCalls longStream failed := by
  obtain ⟨grown, v, hgrown, hv, hpc, hreads, hlen⟩ := long_line
  have hline := line_long hv hpc hreads hlen
  have hgrownPc : grown.pc = .line := hv.pc.trans hpc
  obtain ⟨buf, hstep⟩ := workStep_long hv hpc hline hlen
  have hfollowed (n : Nat) {u : Work}
      (hu : roundAt (workStep longCalls longStream) n v = some u) :
      ∃ t, roundAt (step longCalls longStream) (1033 + n) (start longCalls) = some t ∧
        Represents longCalls longStream t u := by
    obtain ⟨t, ht, hrep⟩ := hv.follows hu
    exact ⟨t, (roundAt_add hgrown).trans ht, hrep⟩
  have hfailing : ∃ u, roundAt (workStep longCalls longStream) 6
      { v with pc := .colon, buf := buf, len := 1030 } = some u ∧ u.pc = .clean :=
    workStep_failing rfl hreads
  obtain ⟨u, hfails, hu⟩ := hfailing
  obtain ⟨cut, hcut, hcutRep⟩ := hfollowed 1 (roundAt_next hstep)
  obtain ⟨failed, hfailed, hfailedRep⟩ := hfollowed 7 ((roundAt_next hstep).trans hfails)
  have hroom : 1024 < grown.bufSize := by
    have hslack := ((do_work_buffer hgrown).reading (.inr hgrownPc)).1
    have hcount := hv.len
    omega
  exact ⟨grown, cut, failed, hgrown, hgrownPc, hroom, do_work_buffer hgrown, hcut, hcutRep.pc,
    hcutRep.len, do_work_buffer hcut, hfailed, hfailedRep.pc.trans hu, do_work_buffer hfailed⟩

end Reader

end SyssoftLabs.Lab6
