import SyssoftLabs.Lab5.Orbit
import SyssoftLabs.Lab5.Progress

/-!
# What main prints

`main` of `multithread7` prints the shared string with `puts`, which reads one character after the
other up to the terminator. It locks the stream, but not the string.
-/

namespace SyssoftLabs.Lab5

open SyssoftLabs.Framework

variable {len : Nat}

/-- A thread of `count_capitalized`. -/
def Worker.counts : Worker len → Bool
  | .count _ => true
  | .reverse _ | .change _ => false

/-- The threads, and `main` with the characters that `puts` has read. -/
structure Program7 (len : Nat) where
  orbit : Orbit len
  puts : Option (List UInt8)
  lines : List (List UInt8)
deriving DecidableEq, Repr

/-- A step of the thread with an index, or of `main`. -/
inductive Turn
  | worker (i : Nat)
  | main
deriving DecidableEq, Repr

namespace Program7

def start (jobs : List Job) (toy : Toy len) : Program7 len := ⟨.start jobs toy, none, []⟩

/-- `flockfile`, a character, or the end of the line and `funlockfile`. -/
def stepMain (s : Program7 len) : Program7 len :=
  match s.puts with
  | none => { s with puts := some [] }
  | some line =>
      match s.orbit.toy.toList[line.length]? with
      | some c =>
          if c = 0 then { s with puts := none, lines := s.lines ++ [line] }
          else { s with puts := some (line ++ [c]) }
      | none => { s with puts := none, lines := s.lines ++ [line] }

def step (s : Program7 len) : Turn → Option (Program7 len)
  | .worker i => (s.orbit.step i).map fun orbit => { s with orbit := orbit }
  | .main => some s.stepMain

/-- `main` has read a character of the line. -/
def begun (s : Program7 len) : Bool := s.puts.any fun line => !line.isEmpty

/-- `main` reads while nobody has the string locked to write, and between the reads of a line
nobody takes that lock. -/
def Undisturbed (s : Program7 len) : Turn → Prop
  | .worker i => s.begun → ∀ w ∈ s.orbit.workers[i]?, w.counts
  | .main => s.puts.isSome → s.orbit.lock.writer = false

instance Undisturbed.decidable (s : Program7 len) : ∀ turn, Decidable (s.Undisturbed turn)
  | .worker i => inferInstanceAs (Decidable (s.begun → ∀ w ∈ s.orbit.workers[i]?, w.counts))
  | .main => inferInstanceAs (Decidable (s.puts.isSome → s.orbit.lock.writer = false))

end Program7

/-- The string, its reversal, its case swap, or the reversal of that. -/
def Snapshot (toy : Toy len) (line : List UInt8) : Prop :=
  line = toy.toList ∨ line = toy.reverse.toList ∨ line = (toy.map swapCase).toList ∨
    line = (toy.map swapCase).reverse.toList

private theorem snapshot_orbit (a b : Nat) (toy : Toy len) :
    Snapshot toy (orbit a b toy).toList := by
  rw [orbit]
  rcases Nat.mod_two_eq_zero_or_one a with ha | ha <;>
    rcases Nat.mod_two_eq_zero_or_one b with hb | hb <;> rw [ha, hb]
  · exact .inl rfl
  · exact .inr (.inr (.inl rfl))
  · exact .inr (.inl rfl)
  · exact .inr (.inr (.inr rfl))

private theorem swapCase_ne_zero (c : UInt8) : c ≠ 0 → swapCase c ≠ 0 := by
  apply forall_byte (p := fun c => c ≠ 0 → swapCase c ≠ 0)
  decide +kernel

private theorem snapshot_ne_zero {toy : Toy len} {line : List UInt8} (h0 : ∀ c ∈ toy.toList, c ≠ 0)
    (h : Snapshot toy line) : ∀ c ∈ line, c ≠ 0 := by
  have hswap : ∀ c ∈ (toy.map swapCase).toList, c ≠ 0 := by
    intro c hc
    rw [Vector.toList_map, List.mem_map] at hc
    obtain ⟨d, hd, rfl⟩ := hc
    exact swapCase_ne_zero d (h0 d hd)
  intro c hc
  rcases h with rfl | rfl | rfl | rfl
  · exact h0 c hc
  · rw [Vector.toList_reverse, List.mem_reverse] at hc
    exact h0 c hc
  · exact hswap c hc
  · rw [Vector.toList_reverse, List.mem_reverse] at hc
    exact hswap c hc

private theorem Orbit.step_count {s t : Orbit len} {i : Nat}
    (hcounts : ∀ w ∈ s.workers[i]?, w.counts) (h : s.step i = some t) :
    t.toy = s.toy ∧ (s.lock.writer = false → t.lock.writer = false) := by
  unfold Orbit.step at h
  obtain ⟨stage, hi⟩ : ∃ stage, s.workers[i]? = some (.count stage) := by
    cases hi : s.workers[i]? with
    | none =>
        rw [hi] at h
        cases h
    | some w =>
        cases w with
        | count stage => exact ⟨stage, rfl⟩
        | reverse inside => cases hcounts _ hi
        | change inside => cases hcounts _ hi
  rw [hi] at h
  cases stage with
  | outside =>
      obtain ⟨lock, hlock, rfl⟩ := Option.map_eq_some_iff.mp h
      rw [RwLock.acquire] at hlock
      split at hlock
      · cases hlock
      · cases hlock
        exact ⟨rfl, id⟩
  | inside l =>
      dsimp only at h
      split at h
      · cases h
        exact ⟨rfl, id⟩
      · cases h
        refine ⟨rfl, fun hfree => ?_⟩
        show s.lock.release.writer = false
        rw [RwLock.release, if_neg (by simp [hfree])]
        exact hfree
  | print cnt =>
      cases h
      exact ⟨rfl, id⟩

private theorem prefix_concat {α : Type} {line text : List α} {c : α} (h : line <+: text)
    (hc : text[line.length]? = some c) : line ++ [c] <+: text := by
  obtain ⟨rest, rfl⟩ := h
  rw [List.getElem?_append_right (Nat.le_refl _), Nat.sub_self] at hc
  cases rest with
  | nil => cases hc
  | cons d rest =>
      cases hc
      exact ⟨rest, by simp⟩

/-- The line read so far is the beginning of the string, which nobody writes once it is begun. -/
structure Program7.Steady (toy : Toy len) (s : Program7 len) : Prop where
  orbit : InOrbit toy s.orbit
  free : s.begun → s.orbit.lock.writer = false
  line : ∀ line, s.puts = some line → line <+: s.orbit.toy.toList
  lines : ∀ line ∈ s.lines, Snapshot toy line

namespace Program7

variable {toy : Toy len} {s t : Program7 len}

private theorem begun_of_puts {line : List UInt8} (h : s.puts = some line) (hline : line ≠ []) :
    s.begun = true := by
  simp [begun, h, hline]

private theorem not_begun_none (orbit : Orbit len) (lines : List (List UInt8)) :
    ¬(⟨orbit, none, lines⟩ : Program7 len).begun := by
  simp [begun]

theorem Steady.start (jobs : List Job) (toy : Toy len) : (start jobs toy).Steady toy where
  orbit := InOrbit.start jobs toy
  free := fun h => absurd h (not_begun_none _ _)
  line := fun line h => by cases h
  lines := fun line h => by cases h

theorem Steady.worker {i : Nat} (hs : s.Steady toy) (hok : s.Undisturbed (.worker i))
    (h : s.step (.worker i) = some t) : t.Steady toy := by
  obtain ⟨orbit, hstep, rfl⟩ := Option.map_eq_some_iff.mp h
  have hcount : s.begun → orbit.toy = s.orbit.toy ∧ orbit.lock.writer = false := by
    intro hbegun
    obtain ⟨htoy, hlock⟩ := Orbit.step_count (hok hbegun) hstep
    exact ⟨htoy, hlock (hs.free hbegun)⟩
  refine ⟨hs.orbit.step hstep, fun hbegun => (hcount hbegun).2, fun line hline => ?_, hs.lines⟩
  cases line with
  | nil => exact List.nil_prefix
  | cons c line =>
      have hbegun : s.begun := begun_of_puts hline (by simp)
      show c :: line <+: orbit.toy.toList
      rw [(hcount hbegun).1]
      exact hs.line _ hline

theorem Steady.main (h0 : ∀ c ∈ toy.toList, c ≠ 0) (hs : s.Steady toy)
    (hok : s.Undisturbed .main) : s.stepMain.Steady toy := by
  rw [stepMain]
  cases hputs : s.puts with
  | none =>
      refine ⟨hs.orbit, fun h => ?_, fun line hline => ?_, hs.lines⟩
      · simp [begun] at h
      · cases hline
        exact List.nil_prefix
  | some line =>
      have hfree : s.orbit.lock.writer = false := hok (by rw [hputs]; rfl)
      have hstring : Snapshot toy s.orbit.toy.toList := by
        rw [hs.orbit.string hfree]
        exact snapshot_orbit _ _ toy
      have hbegun := hs.line line hputs
      dsimp only
      cases hc : s.orbit.toy.toList[line.length]? with
      | some c =>
          dsimp only
          have hmem : c ∈ s.orbit.toy.toList := List.mem_of_getElem? hc
          rw [if_neg (snapshot_ne_zero h0 hstring c hmem)]
          refine ⟨hs.orbit, fun _ => hfree, fun next hnext => ?_, hs.lines⟩
          cases hnext
          exact prefix_concat hbegun hc
      | none =>
          dsimp only
          have hwhole : line = s.orbit.toy.toList :=
            hbegun.eq_of_length_le (List.getElem?_eq_none_iff.mp hc)
          refine ⟨hs.orbit, fun h => absurd h (not_begun_none _ _), fun next hnext => ?_,
            fun next hnext => ?_⟩
          · cases hnext
          · rcases List.mem_append.mp hnext with hnext | hnext
            · exact hs.lines next hnext
            · rw [List.mem_singleton.mp hnext, hwhole]
              exact hstring

/-- In runs in which nobody writes between the reads of a line, every line is a snapshot of the
string. -/
theorem lines_are_snapshots {jobs : List Job} {as : List Turn} (h0 : ∀ c ∈ toy.toList, c ≠ 0)
    (h : run step (Program7.start jobs toy) as = some s)
    (hok : Guarded step Undisturbed (Program7.start jobs toy) as) :
    ∀ line ∈ s.lines, Snapshot toy line := by
  have hs : s.Steady toy := by
    refine run_invariant_of_guarded (fun s a t hs hok ht => ?_) h hok (Steady.start jobs toy)
    cases a with
    | worker i => exact hs.worker hok ht
    | main =>
        cases ht
        exact hs.main h0 hok
  exact hs.lines

/-- `main` is at its line when `ab` is reversed, and prints `ba`. -/
theorem lines_are_snapshots_ab :
    ∃ s, run step (Program7.start [.reverse, .change] (#v[97, 98] : Toy 2))
        (.main :: (List.replicate 27 (.worker 0) ++ List.replicate 3 .main)) = some s ∧
      s.lines = [[98, 97]] ∧ ∀ line ∈ s.lines, Snapshot (#v[97, 98] : Toy 2) line := by
  have hok : Guarded step Undisturbed (Program7.start [.reverse, .change] (#v[97, 98] : Toy 2))
      (.main :: (List.replicate 27 (.worker 0) ++ List.replicate 3 .main)) := by decide +kernel
  have hrun : (run step (Program7.start [.reverse, .change] (#v[97, 98] : Toy 2))
      (.main :: (List.replicate 27 (.worker 0) ++ List.replicate 3 .main))).map lines =
        some [[98, 97]] := by decide +kernel
  obtain ⟨s, hs, hlines⟩ := Option.map_eq_some_iff.mp hrun
  exact ⟨s, hs, hlines, lines_are_snapshots (by decide +kernel) hs hok⟩

/-- `main` reads `bb` while `reverse` has written the first character of `ba`. -/
theorem lines_are_snapshots_fails :
    ¬ ∀ (as : List Turn) (s : Program7 2),
      run step (Program7.start [.reverse, .change] #v[97, 98]) as = some s →
        ∀ line ∈ s.lines, Snapshot (#v[97, 98] : Toy 2) line := by
  intro h
  have hrun : ((run step (Program7.start [.reverse, .change] (#v[97, 98] : Toy 2))
      (List.replicate 4 (.worker 0) ++ List.replicate 4 .main)).map lines) = some [[98, 98]] := by
    decide +kernel
  obtain ⟨s, hs, hlines⟩ := Option.map_eq_some_iff.mp hrun
  have hline := h _ s hs [98, 98] (by rw [hlines]; exact List.mem_singleton_self _)
  revert hline
  unfold Snapshot
  decide +kernel

/-! ## Sections between two reads -/

private theorem run_reads (h0 : ∀ c ∈ s.orbit.toy.toList, c ≠ 0) {line : List UInt8} {n : Nat}
    (hputs : s.puts = some line) (hn : line.length + n ≤ len) :
    run step s (List.replicate n .main) =
      some { s with puts := some (line ++ (s.orbit.toy.toList.drop line.length).take n) } := by
  induction n generalizing s line with
  | zero =>
      rw [List.replicate_zero, run_nil, List.take_zero, List.append_nil, ← hputs]
  | succ n ih =>
      have hlt : line.length < s.orbit.toy.toList.length := by
        rw [Vector.length_toList]
        omega
      have hread : s.step .main =
          some { s with puts := some (line ++ [s.orbit.toy.toList[line.length]]) } := by
        rw [step, stepMain, hputs]
        dsimp only
        rw [List.getElem?_eq_getElem hlt]
        dsimp only
        rw [if_neg (h0 _ (List.getElem_mem hlt))]
      have hlength : (line ++ [s.orbit.toy.toList[line.length]]).length = line.length + 1 := by
        rw [List.length_append, List.length_singleton]
      rw [List.replicate_succ, run_cons, hread, Option.bind_some,
        ih (s := { s with puts := some (line ++ [s.orbit.toy.toList[line.length]]) }) h0 rfl
          (by omega)]
      rw [hlength, List.drop_eq_getElem_cons hlt, List.take_succ_cons, List.append_assoc,
        List.singleton_append]

/-- The first thread is in the section of `reverse`, or out of it again. -/
structure Turning (toy : Toy len) (puts : Option (List UInt8)) (s : Program7 len) : Prop where
  puts : s.puts = puts
  lines : s.lines = []
  inside : (∃ l, s.orbit.workers = [.reverse (some l)] ∧
      (Lab5.reverse len).rest l s.orbit.toy = toy.reverse) ∨
    s.orbit.workers = [.reverse none] ∧ s.orbit.toy = toy.reverse

/-- The steps of the section that are left, with the unlock. -/
def turnsLeft (s : Program7 len) : Nat :=
  match s.orbit.workers with
  | [.reverse (some l)] => l.left + 1
  | _ => 0

theorem Turning.next {puts : Option (List UInt8)} (hs : s.Turning toy puts)
    (hin : s.orbit.workers ≠ [.reverse none]) :
    ∃ a t, s.step a = some t ∧ t.Turning toy puts ∧ t.turnsLeft < s.turnsLeft := by
  obtain ⟨⟨string, lock, workers, reversals, changes, printed⟩, puts', lines⟩ := s
  rcases hs.inside with ⟨l, hworkers, hrest⟩ | ⟨hworkers, -⟩
  · cases hworkers
    cases hstep : (Lab5.reverse len).step l string with
    | some after =>
        obtain ⟨l', string'⟩ := after
        refine ⟨.worker 0, ⟨⟨string', lock, [.reverse (some l')], reversals, changes, printed⟩,
          puts', lines⟩, ?_, ⟨hs.puts, hs.lines, .inl ⟨l', rfl, ?_⟩⟩, ?_⟩
        · simp [step, Orbit.step, writerStep, hstep, ends]
        · rw [← hrest]
          exact (Lab5.reverse len).rest_step _ _ _ _ hstep
        · exact Nat.succ_lt_succ (reverse_endsBy _ _ _ _ hstep)
    | none =>
        refine ⟨.worker 0, ⟨⟨string, lock.release, [.reverse none], reversals + 1, changes,
          printed⟩, puts', lines⟩, ?_, ⟨hs.puts, hs.lines, .inr ⟨rfl, ?_⟩⟩, Nat.succ_pos _⟩
        · simp [step, Orbit.step, writerStep, hstep, ends]
        · exact ((Lab5.reverse len).rest_end _ _ hstep).symm.trans hrest
  · exact absurd hworkers hin

theorem Turning.ends {puts : Option (List UInt8)} (hs : s.Turning toy puts) :
    ∃ t, Reachable step s t ∧ t.puts = puts ∧ t.lines = [] ∧ t.orbit.toy = toy.reverse := by
  have hend : ∃ t, Reachable step s t ∧ t.Turning toy puts ∧
      t.orbit.workers = [.reverse none] :=
    reachable_of_decreasing turnsLeft (fun s hs hin => hs.next hin) hs
  obtain ⟨t, hreach, ht, hout⟩ := hend
  refine ⟨t, hreach, ht.puts, ht.lines, ?_⟩
  rcases ht.inside with ⟨l, hworkers, -⟩ | ⟨-, hstring⟩
  · rw [hworkers] at hout
    cases hout
  · exact hstring

private theorem reachable_line (h0 : ∀ c ∈ s.orbit.toy.toList, c ≠ 0) {line : List UInt8}
    (hputs : s.puts = some line) (hline : line.length ≤ len) (hlines : s.lines = []) :
    ∃ t, Reachable step s t ∧ t.lines = [line ++ s.orbit.toy.toList.drop line.length] := by
  have htake : (s.orbit.toy.toList.drop line.length).take (len - line.length) =
      s.orbit.toy.toList.drop line.length := by
    apply List.take_of_length_le
    rw [List.length_drop, Vector.length_toList]
  have hreads := run_reads h0 hputs (Nat.add_sub_of_le hline).le
  rw [htake] at hreads
  refine ⟨_, Reachable.trans ⟨_, hreads⟩ (Reachable.single (a := .main) rfl), ?_⟩
  have hend : s.orbit.toy.toList[(line ++ s.orbit.toy.toList.drop line.length).length]? = none := by
    rw [List.getElem?_eq_none_iff, List.length_append, List.length_drop, Vector.length_toList]
    omega
  rw [stepMain]
  dsimp only
  rw [hend, hlines, List.nil_append]

/-- With a section of `reverse` between two reads, the line is the string up to the first of them
and its reversal from there on. -/
theorem line_torn (h0 : ∀ c ∈ toy.toList, c ≠ 0) {k : Nat} (hk : k ≤ len) :
    ∃ s, Reachable step (Program7.start [.reverse] toy) s ∧
      s.lines = [toy.toList.take k ++ toy.reverse.toList.drop k] := by
  have hlength : (toy.toList.take k).length = k := by
    rw [List.length_take, Vector.length_toList, Nat.min_eq_left hk]
  have hbegin : run step (Program7.start [.reverse] toy) (.main :: List.replicate k .main) =
      some ⟨.start [.reverse] toy, some (toy.toList.take k), []⟩ :=
    run_reads (s := ⟨.start [.reverse] toy, some [], []⟩) h0 rfl (by simpa using hk)
  have hturning : (⟨⟨toy, { RwLock.free with writer := true }, [.reverse (some (.loop 0 0))], 0, 0,
      []⟩, some (toy.toList.take k), []⟩ : Program7 len).Turning toy (some (toy.toList.take k)) :=
    ⟨rfl, rfl, .inl ⟨_, rfl, reverse_effect toy⟩⟩
  obtain ⟨t, hturned, hputs, hlines, hstring⟩ := hturning.ends
  have h0' : ∀ c ∈ t.orbit.toy.toList, c ≠ 0 := by
    rw [hstring]
    exact snapshot_ne_zero h0 (.inr (.inl rfl))
  obtain ⟨u, hprinted, hu⟩ := reachable_line h0' hputs (hlength.trans_le hk) hlines
  have hentered : Reachable step (Program7.start [.reverse] toy) t :=
    (Reachable.trans ⟨_, hbegin⟩ (Reachable.single (a := .worker 0) rfl)).trans hturned
  refine ⟨u, hentered.trans hprinted, ?_⟩
  rw [hu, hstring, hlength]

end Program7

end SyssoftLabs.Lab5
