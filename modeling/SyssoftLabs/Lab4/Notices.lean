import SyssoftLabs.Lab4.Jobs

/-!
# What the shell says about its jobs

The shell prints a number for every job that it starts in the background, and again when it has
found the job dead. It looks for one dead child before each line, and waits for every child in the
foreground at once, unless a signal interrupts it. The kernel gives a process id again only after
the process has been waited for. This is the shell that was started first: a child of its own that
goes on with the input is one of its children here, whatever that child then prints.
-/

namespace SyssoftLabs.Lab4

open SyssoftLabs.Framework

inductive Notice
  /-- `[id] pid`. -/
  | started (id : Nat) (pid : Int)
  /-- `[id] (pid pid) done`. -/
  | done (id : Nat) (pid : Int)
deriving DecidableEq, Repr

structure Child where
  pid : Int
  bg : Bool
  dead : Bool
deriving DecidableEq, Repr

/-- Where `main` stands. -/
inductive WatchPc
  /-- At the start of a round of the loop. -/
  | look
  /-- In the loop over the commands of a line. -/
  | commands
  /-- In the `waitpid` of `fork_and_exec`. -/
  | waiting (pid : Int)
deriving DecidableEq, Repr

/-- The shell and its children, those included that are dead and not waited for. -/
structure Watch where
  pc : WatchPc
  table : Table
  children : List Child
  notices : List Notice
  /-- The children in the foreground that a signal has kept from being waited for. -/
  missed : List Int

inductive WatchStep
  | fork (pid : Int) (bg : Bool)
  | die (pid : Int)
  /-- The `waitpid` of `fork_and_exec` returns. -/
  | wait
  /-- A handled signal ends it, and `fork_and_exec` returns what `st` happens to say. -/
  | interrupt
  /-- `waitpid` with `WNOHANG` gives this child. -/
  | found (pid : Int)
  | foundNone
  /-- The commands of the line are done. -/
  | next
deriving DecidableEq, Repr

namespace Watch

def start : Watch := ⟨.look, .start, [], [], []⟩

/-- `junk` is what new memory holds when the table grows. -/
def step (junk : Nat → Int) (s : Watch) : WatchStep → Option Watch
  | .fork pid bg =>
      if s.pc = .commands ∧ 0 < pid ∧ ∀ c ∈ s.children, c.pid ≠ pid then
        let children := s.children ++ [⟨pid, bg, false⟩]
        if bg then
          let (id, table) := s.table.launched junk pid
          some { s with
            table := table, children := children, notices := s.notices ++ [.started id pid] }
        else some { s with pc := .waiting pid, children := children }
      else none
  | .die pid =>
      some { s with
        children := s.children.map fun c => { c with dead := c.dead || c.pid == pid } }
  | .wait =>
      match s.pc with
      | .waiting pid =>
          if ∃ c ∈ s.children, c.pid = pid ∧ c.dead then
            some { s with pc := .commands, children := s.children.filter (·.pid ≠ pid) }
          else none
      | _ => none
  | .interrupt =>
      match s.pc with
      | .waiting pid => some { s with pc := .commands, missed := s.missed ++ [pid] }
      | _ => none
  | .found pid =>
      if s.pc = .look ∧ ∃ c ∈ s.children, c.pid = pid ∧ c.dead then
        let (id, table) := s.table.reaped pid
        some { s with
          pc := .commands, table := table, children := s.children.filter (·.pid ≠ pid),
          notices := s.notices ++ [.done id pid] }
      else none
  | .foundNone =>
      if s.pc = .look ∧ ∀ c ∈ s.children, ¬c.dead then some { s with pc := .commands } else none
  | .next => if s.pc = .commands then some { s with pc := .look } else none

end Watch

/-! ## The jobs that the notices tell of -/

/-- A notice read by one who keeps a list of the jobs. -/
def Notice.tell (live : Nat → Option Int) : Notice → Nat → Option Int
  | .started id pid => Function.update live id (some pid)
  | .done id _ => Function.update live id none

/-- The jobs that were started and not reported, by their numbers. -/
def told (notices : List Notice) : Nat → Option Int :=
  notices.foldl Notice.tell fun _ => none

@[simp] theorem told_nil : told [] = fun _ => none := rfl

@[simp] theorem told_concat (notices : List Notice) (n : Notice) :
    told (notices ++ [n]) = n.tell (told notices) := by
  rw [told, List.foldl_append]
  rfl

/-- A job is started under the least number that no other has, and reported under its own. What is
no job is reported under zero. -/
def Notice.Fits (notices : List Notice) : Notice → Prop
  | .started id _ => IsLeast {i | 0 < i ∧ told notices i = none} id
  | .done id pid => told notices id = some pid ∨ id = 0 ∧ ∀ i, told notices i ≠ some pid

/-! ## The children -/

/-- No two children have the same process id, unless they are alike. -/
structure Apart (children : List Child) : Prop where
  distinct : ∀ c ∈ children, ∀ d ∈ children, c.pid = d.pid → c.bg = d.bg
  positive : ∀ c ∈ children, 0 < c.pid

namespace Apart

variable {children : List Child} {c : Child}

theorem concat (h : Apart children) (hpos : 0 < c.pid) (hnew : ∀ d ∈ children, d.pid ≠ c.pid) :
    Apart (children ++ [c]) where
  distinct d hd e he heq := by
    rcases List.mem_append.mp hd with hd | hd <;> rcases List.mem_append.mp he with he | he
    · exact h.distinct d hd e he heq
    · rw [List.mem_singleton.mp he] at heq
      exact absurd heq (hnew d hd)
    · rw [List.mem_singleton.mp hd] at heq
      exact absurd heq.symm (hnew e he)
    · rw [List.mem_singleton.mp hd, List.mem_singleton.mp he]
  positive d hd := by
    rcases List.mem_append.mp hd with hd | hd
    · exact h.positive d hd
    · rw [List.mem_singleton.mp hd]
      exact hpos

theorem filter (h : Apart children) (p : Child → Bool) : Apart (children.filter p) where
  distinct d hd e he := h.distinct d (List.mem_filter.mp hd).1 e (List.mem_filter.mp he).1
  positive d hd := h.positive d (List.mem_filter.mp hd).1

theorem map (h : Apart children) {f : Child → Child} (hpid : ∀ c, (f c).pid = c.pid)
    (hbg : ∀ c, (f c).bg = c.bg) : Apart (children.map f) where
  distinct d hd e he heq := by
    obtain ⟨c, hc, rfl⟩ := List.mem_map.mp hd
    obtain ⟨c', hc', rfl⟩ := List.mem_map.mp he
    rw [hpid, hpid] at heq
    rw [hbg, hbg]
    exact h.distinct c hc c' hc' heq
  positive d hd := by
    obtain ⟨c, hc, rfl⟩ := List.mem_map.mp hd
    rw [hpid]
    exact h.positive c hc

end Apart

/-! ## The invariant -/

namespace Watch

variable {junk : Nat → Int} {s t : Watch} {pid : Int}

structure Sound (s : Watch) : Prop where
  consistent : Grown Notice.Fits s.notices
  table : s.table.Holds (told s.notices)
  /-- The jobs told of are the children in the background. -/
  jobs : ∀ pid, (∃ id, told s.notices id = some pid) ↔ ∃ c ∈ s.children, c.pid = pid ∧ c.bg = true
  /-- A child in the foreground is being waited for, or has been missed. -/
  foreground : ∀ c ∈ s.children, c.bg = false → s.pc = .waiting c.pid ∨ c.pid ∈ s.missed
  zeros : ∀ pid, .done 0 pid ∈ s.notices → pid ∈ s.missed
  waited : ∀ pid, s.pc = .waiting pid → ∃ c ∈ s.children, c.pid = pid ∧ c.bg = false
  apart : Apart s.children

theorem Sound.start : Sound start where
  consistent := Grown.nil
  table := Table.Holds.start
  jobs pid := by simp [Watch.start]
  foreground := by simp [Watch.start]
  zeros := by simp [Watch.start]
  waited := by simp [Watch.start]
  apart := ⟨by simp [Watch.start], by simp [Watch.start]⟩

theorem Sound.fork (hs : s.Sound) (hpc : s.pc = .commands) (hpid : 0 < pid)
    (hnew : ∀ c ∈ s.children, c.pid ≠ pid) :
    Sound { s with pc := .waiting pid, children := s.children ++ [⟨pid, false, false⟩] } where
  consistent := hs.consistent
  table := hs.table
  jobs p := by simp [hs.jobs p]
  foreground c hc hbg := by
    rcases List.mem_append.mp hc with hold | hlast
    · exact .inr ((hs.foreground c hold hbg).resolve_left (by simp [hpc]))
    · rw [List.mem_singleton.mp hlast]
      exact .inl rfl
  zeros := hs.zeros
  waited p hp := by
    cases hp
    exact ⟨_, List.mem_append_right _ (List.mem_singleton_self _), rfl, rfl⟩
  apart := hs.apart.concat hpid hnew

theorem Sound.launch (hs : s.Sound) (hpc : s.pc = .commands) (hpid : 0 < pid)
    (hnew : ∀ c ∈ s.children, c.pid ≠ pid) :
    Sound { s with
      table := (s.table.launched junk pid).2
      children := s.children ++ [⟨pid, true, false⟩]
      notices := s.notices ++ [.started (s.table.launched junk pid).1 pid] } := by
  have hfree : ∀ id, told s.notices id ≠ some pid := by
    intro id hid
    obtain ⟨c, hc, hcpid, -⟩ := (hs.jobs pid).mp ⟨id, hid⟩
    exact hnew c hc hcpid
  have hcontains := hs.table.contains_eq_false hpid hfree
  have hleast := hs.table.least junk pid
  have hnone : told s.notices (s.table.addJob junk pid).1 = none := hleast.1.2
  constructor
  · exact hs.consistent.concat hleast
  · rw [told_concat]
    exact hs.table.add hpid hcontains
  · intro p
    rw [told_concat]
    constructor
    · rintro ⟨id, hid⟩
      rw [Notice.tell, Function.update_apply] at hid
      split at hid
      · cases hid
        exact ⟨_, List.mem_append_right _ (List.mem_singleton_self _), rfl, rfl⟩
      · obtain ⟨c, hc, hp⟩ := (hs.jobs p).mp ⟨id, hid⟩
        exact ⟨c, List.mem_append_left _ hc, hp⟩
    · rintro ⟨c, hc, rfl, hbg⟩
      rcases List.mem_append.mp hc with hold | hlast
      · obtain ⟨id, hid⟩ := (hs.jobs c.pid).mpr ⟨c, hold, rfl, hbg⟩
        refine ⟨id, ?_⟩
        have hne : id ≠ (s.table.launched junk pid).1 := by
          rintro rfl
          exact absurd (hnone.symm.trans hid) (by simp)
        rw [Notice.tell, Function.update_of_ne hne, hid]
      · rw [List.mem_singleton.mp hlast]
        exact ⟨_, Function.update_self _ _ _⟩
  · intro c hc hbg
    rcases List.mem_append.mp hc with hold | hlast
    · exact hs.foreground c hold hbg
    · rw [List.mem_singleton.mp hlast] at hbg
      cases hbg
  · intro p hp
    rcases List.mem_append.mp hp with hold | hlast
    · exact hs.zeros p hold
    · cases List.mem_singleton.mp hlast
  · intro p hp
    cases hpc.symm.trans hp
  · exact hs.apart.concat hpid hnew

private theorem Sound.die (hs : s.Sound) (pid : Int) :
    Sound { s with
      children := s.children.map fun c => { c with dead := c.dead || c.pid == pid } } where
  consistent := hs.consistent
  table := hs.table
  jobs p := by simp [hs.jobs p]
  foreground c hc := by
    obtain ⟨d, hd, rfl⟩ := List.mem_map.mp hc
    exact hs.foreground d hd
  zeros := hs.zeros
  waited p hp := by
    obtain ⟨c, hc, hpid, hbg⟩ := hs.waited p hp
    exact ⟨_, List.mem_map_of_mem hc, hpid, hbg⟩
  apart := hs.apart.map (fun _ => rfl) fun _ => rfl

theorem Sound.wait (hs : s.Sound) (hpc : s.pc = .waiting pid) :
    Sound { s with pc := .commands, children := s.children.filter (·.pid ≠ pid) } where
  consistent := hs.consistent
  table := hs.table
  jobs p := by
    rw [hs.jobs p]
    obtain ⟨c, hc, hpid, hbg⟩ := hs.waited pid hpc
    constructor
    · rintro ⟨d, hd, rfl, hdbg⟩
      have hne : d.pid ≠ pid := by
        intro heq
        have hsame := hs.apart.distinct c hc d hd (hpid.trans heq.symm)
        rw [hbg, hdbg] at hsame
        cases hsame
      exact ⟨d, List.mem_filter.mpr ⟨hd, by simpa using hne⟩, rfl, hdbg⟩
    · rintro ⟨d, hd, hp⟩
      exact ⟨d, (List.mem_filter.mp hd).1, hp⟩
  foreground c hc hbg := by
    obtain ⟨hc, hne⟩ := List.mem_filter.mp hc
    have hother : s.pc ≠ .waiting c.pid := by
      rw [hpc]
      rintro ⟨⟩
      simp at hne
    exact .inr ((hs.foreground c hc hbg).resolve_left hother)
  zeros := hs.zeros
  waited p hp := by cases hp
  apart := hs.apart.filter _

theorem Sound.interrupt (hs : s.Sound) (hpc : s.pc = .waiting pid) :
    Sound { s with pc := .commands, missed := s.missed ++ [pid] } where
  consistent := hs.consistent
  table := hs.table
  jobs := hs.jobs
  foreground c hc hbg := by
    right
    rcases hs.foreground c hc hbg with hwaiting | hmissed
    · rw [hpc] at hwaiting
      cases hwaiting
      exact List.mem_append_right _ (List.mem_singleton_self _)
    · exact List.mem_append_left _ hmissed
  zeros p hp := List.mem_append_left _ (hs.zeros p hp)
  waited p hp := by cases hp
  apart := hs.apart

private theorem tell_done {notices : List Notice} {table : Table}
    (htable : table.Holds (told notices)) (hpid : 0 < pid) :
    (Notice.done (table.getJobId pid) pid).tell (told notices) =
      fun i => if told notices i = some pid then none else told notices i := by
  funext i
  rw [Notice.tell, Function.update_apply]
  by_cases hjob : told notices i = some pid
  · rw [if_pos hjob, if_pos (htable.getJobId hjob).symm]
  · rw [if_neg hjob]
    split
    · next hi =>
        cases htold : told notices i with
        | none => rfl
        | some p =>
            have hpos := (htable.positive i p htold).1
            rcases table.getJobId_spec hpid with ⟨hzero, -⟩ | ⟨-, hfound⟩
            · omega
            · rw [← hi] at hfound
              exact absurd (htable.live_of_getJob hpid hfound) hjob
    · rfl

/-- A dead job is reported under its number. -/
theorem Sound.found (hs : s.Sound) (hpc : s.pc = .look) {c : Child} (hc : c ∈ s.children) :
    Sound { s with
      pc := .commands
      table := (s.table.reaped c.pid).2
      children := s.children.filter (·.pid ≠ c.pid)
      notices := s.notices ++ [.done (s.table.reaped c.pid).1 c.pid] } := by
  have hpid := hs.apart.positive c hc
  have htell := tell_done hs.table hpid
  constructor
  · apply hs.consistent.concat
    cases hbg : c.bg with
    | true =>
        obtain ⟨id, hid⟩ := (hs.jobs c.pid).mpr ⟨c, hc, rfl, hbg⟩
        have hnumber : (s.table.reaped c.pid).1 = id := hs.table.getJobId hid
        exact .inl (hnumber ▸ hid)
    | false =>
        have hnone : ∀ i, told s.notices i ≠ some c.pid := by
          intro i hi
          obtain ⟨d, hd, hdpid, hdbg⟩ := (hs.jobs c.pid).mp ⟨i, hi⟩
          have hsame := hs.apart.distinct c hc d hd hdpid.symm
          rw [hbg, hdbg] at hsame
          cases hsame
        exact .inr ⟨hs.table.getJobId_absent hpid hnone, hnone⟩
  · rw [told_concat, Table.reaped, htell]
    exact hs.table.deleteByPid c.pid
  · intro p
    rw [told_concat, Table.reaped, htell]
    constructor
    · rintro ⟨i, hi⟩
      dsimp only at hi
      split at hi
      · cases hi
      · next hne =>
          obtain ⟨d, hd, rfl, hdbg⟩ := (hs.jobs p).mp ⟨i, hi⟩
          refine ⟨d, List.mem_filter.mpr ⟨hd, ?_⟩, rfl, hdbg⟩
          rw [hi] at hne
          simpa using hne
    · rintro ⟨d, hd, rfl, hdbg⟩
      obtain ⟨hd, hne⟩ := List.mem_filter.mp hd
      obtain ⟨i, hi⟩ := (hs.jobs d.pid).mpr ⟨d, hd, rfl, hdbg⟩
      refine ⟨i, ?_⟩
      dsimp only
      rw [if_neg, hi]
      rw [hi]
      simpa using hne
  · intro d hd hdbg
    exact .inr ((hs.foreground d (List.mem_filter.mp hd).1 hdbg).resolve_left (by simp [hpc]))
  · intro p hp
    rcases List.mem_append.mp hp with hold | hlast
    · exact hs.zeros p hold
    · obtain ⟨hzero, rfl⟩ := Notice.done.inj (List.mem_singleton.mp hlast)
      cases hbg : c.bg with
      | true =>
          obtain ⟨id, hid⟩ := (hs.jobs c.pid).mpr ⟨c, hc, rfl, hbg⟩
          have hnumber : (s.table.reaped c.pid).1 = id := hs.table.getJobId hid
          have hpos := (hs.table.positive id c.pid hid).1
          omega
      | false => exact (hs.foreground c hc hbg).resolve_left (by simp [hpc])
  · intro p hp
    cases hp
  · exact hs.apart.filter _

theorem Sound.goto (hs : s.Sound) {pc : WatchPc} (hold : ∀ pid, s.pc ≠ .waiting pid)
    (hnew : ∀ pid, pc ≠ .waiting pid) : Sound { s with pc := pc } where
  consistent := hs.consistent
  table := hs.table
  jobs := hs.jobs
  foreground c hc hbg := .inr ((hs.foreground c hc hbg).resolve_left (hold c.pid))
  zeros := hs.zeros
  waited p hp := absurd hp (hnew p)
  apart := hs.apart

theorem Sound.step {a : WatchStep} (hs : s.Sound) (h : s.step junk a = some t) : t.Sound := by
  cases a with
  | fork pid bg =>
      rw [Watch.step] at h
      split at h
      · next hok =>
          obtain ⟨hpc, hpid, hnew⟩ := hok
          cases bg with
          | true =>
              cases h
              exact hs.launch hpc hpid hnew
          | false =>
              cases h
              exact hs.fork hpc hpid hnew
      · cases h
  | die pid =>
      cases h
      exact hs.die pid
  | wait =>
      rw [Watch.step] at h
      split at h
      · next pid hpc =>
          split at h
          · cases h
            exact hs.wait hpc
          · cases h
      · cases h
  | interrupt =>
      rw [Watch.step] at h
      split at h
      · next pid hpc =>
          cases h
          exact hs.interrupt hpc
      · cases h
  | found pid =>
      rw [Watch.step] at h
      split at h
      · next hok =>
          obtain ⟨hpc, c, hc, rfl, -⟩ := hok
          cases h
          exact hs.found hpc hc
      · cases h
  | foundNone =>
      rw [Watch.step] at h
      split at h
      · next hok =>
          cases h
          exact hs.goto (by simp [hok.1]) (by simp)
      · cases h
  | next =>
      rw [Watch.step] at h
      split at h
      · next hpc =>
          cases h
          exact hs.goto (by simp [hpc]) (by simp)
      · cases h

/-- In every run of the shell a job is started under the least number that no unreported job has,
and reported at most once, under the number of its start. The number zero is left to the children in
the foreground that were missed. The jobs not reported are the children in the background, dead or
alive. -/
theorem notices_pair (h : Reachable (step junk) Watch.start s) :
    (∀ before id pid after, s.notices = before ++ .started id pid :: after →
      IsLeast {i | 0 < i ∧ told before i = none} id) ∧
    (∀ before id pid after, s.notices = before ++ .done id pid :: after →
      told before id = some pid ∨
        id = 0 ∧ pid ∈ s.missed ∧ ∀ i, told before i ≠ some pid) ∧
    ∀ pid, (∃ id, told s.notices id = some pid) ↔
      ∃ c ∈ s.children, c.pid = pid ∧ c.bg = true := by
  have hs : s.Sound := h.invariant (fun _ _ _ hs hstep => hs.step hstep) Sound.start
  refine ⟨fun before id pid after heq => hs.consistent before (.started id pid) after heq, ?_,
    hs.jobs⟩
  intro before id pid after heq
  refine (hs.consistent before (.done id pid) after heq).imp_right ?_
  rintro ⟨rfl, hnone⟩
  exact ⟨rfl, hs.zeros pid (by simp [heq]), hnone⟩

/-- The second job is still there when the number of the first one is given to a third, and a child
in the foreground is found dead after a signal. -/
theorem notices_pair_again :
    ∃ s, run (step fun _ => 5) Watch.start [.foundNone, .fork 7 true, .fork 9 true, .fork 10 false,
        .interrupt, .next, .die 7, .found 7, .fork 11 true, .next, .die 10, .found 10] = some s ∧
      s.notices = [.started 1 7, .started 2 9, .done 1 7, .started 1 11, .done 0 10] ∧
      10 ∈ s.missed ∧ ∃ id, told s.notices id = some 9 := by
  have hrun : (run (step fun _ => 5) Watch.start [.foundNone, .fork 7 true, .fork 9 true,
      .fork 10 false, .interrupt, .next, .die 7, .found 7, .fork 11 true, .next, .die 10,
      .found 10]).map (fun s => (s.notices, s.children)) =
      some ([.started 1 7, .started 2 9, .done 1 7, .started 1 11, .done 0 10],
        [⟨9, true, false⟩, ⟨11, true, false⟩]) := by decide +kernel
  obtain ⟨s, hs, hend⟩ := Option.map_eq_some_iff.mp hrun
  obtain ⟨hnotices, hchildren⟩ := Prod.mk.inj hend
  obtain ⟨-, hdone, hjobs⟩ := notices_pair ⟨_, hs⟩
  have hzero := hdone [.started 1 7, .started 2 9, .done 1 7, .started 1 11] 0 10 [] hnotices
  have hmissed := (hzero.resolve_left (by simp [Notice.tell, told])).2.1
  exact ⟨s, hs, hnotices, hmissed,
    (hjobs 9).mpr ⟨⟨9, true, false⟩, by simp [hchildren], rfl, rfl⟩⟩

end Watch

end SyssoftLabs.Lab4
