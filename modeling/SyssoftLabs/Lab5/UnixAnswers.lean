import Mathlib.Data.List.Pairwise
import SyssoftLabs.Lab5.UnixServer

/-!
# What the clients of the socket get

A connection gets the state of the server once at the most, and no two connections get the state of
the same second.
-/

namespace SyssoftLabs.Lab5

variable {Load : Type}

open SyssoftLabs.Framework

/-- What the server has written to the connection. -/
def Connection.written (c : Connection Load) : List (Status Load) := c.received ++ c.sent

private theorem flatten_set_last {α : Type*} {l : List (List α)} {i : Nat} (hi : i < l.length)
    (hempty : ∀ j w, i ≤ j → l[j]? = some w → w = []) (w : List α) :
    (l.set i w).flatten = l.flatten ++ w := by
  induction l generalizing i with
  | nil => cases hi
  | cons x l ih =>
      cases i with
      | zero =>
          have hx : x = [] := hempty 0 x (Nat.le_refl 0) rfl
          have hl : l.flatten = [] := by
            apply List.flatten_eq_nil_iff.mpr
            intro y hy
            obtain ⟨j, hj⟩ := List.mem_iff_getElem?.mp hy
            exact hempty (j + 1) y (Nat.zero_le _) hj
          simp [hx, hl]
      | succ i =>
          have hrest := ih (Nat.lt_of_succ_lt_succ hi)
            fun j y hij hj => hempty (j + 1) y (Nat.succ_le_succ hij) hj
          simp [hrest]

/-- The times of a list of answers increase, and none is later than now. -/
structure Rising (now : Int) (times : List Int) : Prop where
  ordered : times.Pairwise (· < ·)
  past : ∀ time ∈ times, 0 < time ∧ time ≤ now

theorem Rising.later {now later : Int} {times : List Int} (h : Rising now times)
    (hle : now ≤ later) : Rising later times where
  ordered := h.ordered
  past time htime := by
    have hpast := h.past time htime
    omega

theorem Rising.concat {now : Int} {times : List Int} (h : Rising now times) (hpos : 0 < now)
    (hfresh : ∀ time ∈ times, time < now) : Rising now (times ++ [now]) where
  ordered := by
    apply List.pairwise_append.mpr
    refine ⟨h.ordered, List.pairwise_singleton _ _, fun time htime other hother => ?_⟩
    rw [List.mem_singleton.mp hother]
    exact hfresh time htime
  past time htime := by
    rcases List.mem_append.mp htime with hold | hnew
    · exact h.past time hold
    · rw [List.mem_singleton.mp hnew]
      exact ⟨hpos, Int.le_refl _⟩

namespace UnixServer

/-- What the server has written to each connection. -/
def written (s : UnixServer Load) : List (List (Status Load)) :=
  s.connections.map Connection.written

/-- The states that the server has written, in the order of the connections. -/
def answers (s : UnixServer Load) : List (Status Load) := s.written.flatten

/-- The state belongs to the server. -/
def Own (startTime : Int) (pid uid gid : Nat) (state : Status Load) : Prop :=
  state.startTime = startTime ∧ state.pid = pid ∧ state.uid = uid ∧ state.gid = gid

/-- The answers are states of the server, in the order of its seconds, and the connection that it
serves comes behind all those that have one. -/
structure Answered (startTime : Int) (pid uid gid : Nat) (s : UnixServer Load) : Prop where
  worked : 0 ≤ s.state.workingTime
  own : Own startTime pid uid gid s.state
  owns : ∀ state ∈ s.answers, Own startTime pid uid gid state
  once : ∀ w ∈ s.written, w.length ≤ 1
  rising : Rising s.state.workingTime (s.answers.map Status.workingTime)
  behind : ∀ i w, (s.next ≤ i ∨ s.pc = .update i ∨ s.pc = .write i) → s.written[i]? = some w →
    w = []
  serving : ∀ cfd, s.pc = .update cfd ∨ s.pc = .write cfd → s.next = cfd + 1
  fresh : ∀ cfd, s.pc = .write cfd → 0 < s.state.workingTime ∧
    ∀ time ∈ s.answers.map Status.workingTime, time < s.state.workingTime

variable {startTime : Int} {pid uid gid : Nat} {loadavg : Vector Load 3} {s t : UnixServer Load}
  {a : UnixAction Load} {cfd i : Nat}

theorem Answered.start (startTime : Int) (pid uid gid : Nat) (loadavg : Vector Load 3) :
    Answered startTime pid uid gid (start startTime pid uid gid loadavg) := by
  constructor <;> simp [UnixServer.start, Own, written, answers, Rising.mk]

/-! ## Steps -/

private theorem written_set (d : Connection Load) :
    (s.connections.set i d).map Connection.written = s.written.set i d.written := by
  simp [written, List.map_set]

private theorem written_same {c d : Connection Load} (hc : s.connections[i]? = some c)
    (hd : d.written = c.written) :
    (s.connections.set i d).map Connection.written = s.written := by
  obtain ⟨hi, rfl⟩ := List.getElem?_eq_some_iff.mp hc
  rw [written_set, hd]
  apply List.ext_getElem
  · simp
  · intro j hj hj'
    rw [List.getElem_set]
    split
    · next heq =>
        subst heq
        simp [written]
    · rfl

private theorem step_update {currentTime : Int} (hpc : s.pc = .update cfd)
    (h : step s (.server currentTime loadavg) = some t) :
    t = s ∨ s.state.workingTime < currentTime - s.state.startTime ∧
      t = { s with
        pc := .write cfd
        state := { s.state with
          workingTime := currentTime - s.state.startTime, loadavg := loadavg } } := by
  simp only [step, hpc, update] at h
  by_cases hlater : currentTime - s.state.startTime > s.state.workingTime
  · rw [if_pos hlater] at h
    cases h
    exact Or.inr ⟨hlater, rfl⟩
  · rw [if_neg hlater] at h
    cases h
    left
    rw [← hpc]

theorem Answered.same (hs : Answered startTime pid uid gid s)
    {connections : List (Connection Load)}
    (hwritten : connections.map Connection.written = s.written) :
    Answered startTime pid uid gid { s with connections := connections } := by
  have heq : written { s with connections := connections } = s.written := hwritten
  have hanswers : answers { s with connections := connections } = s.answers := by
    rw [answers, heq, answers]
  constructor
  · exact hs.worked
  · exact hs.own
  · rw [hanswers]
    exact hs.owns
  · rw [heq]
    exact hs.once
  · rw [hanswers]
    exact hs.rising
  · rw [heq]
    exact hs.behind
  · exact hs.serving
  · rw [hanswers]
    exact hs.fresh

theorem Answered.leave (hs : Answered startTime pid uid gid s) {pc : UnixPc}
    {connections : List (Connection Load)} (hupdate : ∀ cfd, pc ≠ .update cfd)
    (hwrite : ∀ cfd, pc ≠ .write cfd)
    (hwritten : connections.map Connection.written = s.written) :
    Answered startTime pid uid gid { s with pc := pc, connections := connections } where
  worked := hs.worked
  own := hs.own
  owns := (hs.same hwritten).owns
  once := (hs.same hwritten).once
  rising := (hs.same hwritten).rising
  behind i w hi hw := by
    apply (hs.same hwritten).behind i w _ hw
    left
    rcases hi with hi | hi | hi
    · exact hi
    · exact absurd hi (hupdate i)
    · exact absurd hi (hwrite i)
  serving cfd h := by
    rcases h with h | h
    · exact absurd h (hupdate cfd)
    · exact absurd h (hwrite cfd)
  fresh cfd h := absurd h (hwrite cfd)

theorem Answered.connect (hs : Answered startTime pid uid gid s) :
    Answered startTime pid uid gid
      { s with connections := s.connections ++ [⟨true, true, [], []⟩] } := by
  have heq : written { s with connections := s.connections ++ [⟨true, true, [], []⟩] } =
      s.written ++ [[]] := by
    simp [written, Connection.written]
  have hanswers : answers { s with connections := s.connections ++ [⟨true, true, [], []⟩] } =
      s.answers := by
    simp [answers, heq]
  constructor
  · exact hs.worked
  · exact hs.own
  · rw [hanswers]
    exact hs.owns
  · rw [heq]
    intro w hw
    rcases List.mem_append.mp hw with hold | hnew
    · exact hs.once w hold
    · simp [List.mem_singleton.mp hnew]
  · rw [hanswers]
    exact hs.rising
  · rw [heq]
    intro i w hi hw
    by_cases hlt : i < s.written.length
    · rw [List.getElem?_append_left hlt] at hw
      exact hs.behind i w hi hw
    · rw [List.getElem?_append_right (Nat.not_lt.mp hlt)] at hw
      simpa using List.mem_of_getElem? hw
  · exact hs.serving
  · rw [hanswers]
    exact hs.fresh

theorem Answered.accept (hs : Answered startTime pid uid gid s) :
    Answered startTime pid uid gid { s with pc := .update s.next, next := s.next + 1 } where
  worked := hs.worked
  own := hs.own
  owns := hs.owns
  once := hs.once
  rising := hs.rising
  behind i w hi hw := by
    apply hs.behind i w _ hw
    simp only [UnixPc.update.injEq, reduceCtorEq, or_false] at hi
    omega
  serving cfd h := by
    simp only [UnixPc.update.injEq, reduceCtorEq, or_false] at h
    exact congrArg (· + 1) h
  fresh cfd h := by cases h

theorem Answered.update {currentTime : Int} (hs : Answered startTime pid uid gid s)
    (hpc : s.pc = .update cfd) (hlater : s.state.workingTime < currentTime - s.state.startTime)
    (loadavg : Vector Load 3) :
    Answered startTime pid uid gid { s with
      pc := .write cfd
      state := { s.state with
        workingTime := currentTime - s.state.startTime, loadavg := loadavg } } where
  worked := Int.le_of_lt (Int.lt_of_le_of_lt hs.worked hlater)
  own := hs.own
  owns := hs.owns
  once := hs.once
  rising := hs.rising.later (Int.le_of_lt hlater)
  behind i w hi hw := by
    apply hs.behind i w _ hw
    simpa [hpc] using hi
  serving i h := by
    apply hs.serving i
    simpa [hpc] using h
  fresh i h := by
    refine ⟨Int.lt_of_le_of_lt hs.worked hlater, fun time htime => ?_⟩
    exact Int.lt_of_le_of_lt (hs.rising.past time htime).2 hlater

theorem Answered.write (hs : Answered startTime pid uid gid s) (hpc : s.pc = .write cfd)
    {serverOpen : Bool} {sent received : List (Status Load)}
    (hc : s.connections[cfd]? = some ⟨true, serverOpen, sent, received⟩) :
    Answered startTime pid uid gid { s with
      pc := .close cfd
      connections :=
        s.connections.set cfd ⟨true, serverOpen, sent ++ [s.state], received⟩ } := by
  have hold : s.written[cfd]? = some (received ++ sent) := by
    simp [written, hc, Connection.written]
  have hnone : received ++ sent = [] := hs.behind cfd _ (Or.inr (Or.inr hpc)) hold
  have hnext := hs.serving cfd (Or.inr hpc)
  have heq : written { s with
      pc := .close cfd
      connections := s.connections.set cfd ⟨true, serverOpen, sent ++ [s.state], received⟩ } =
      s.written.set cfd [s.state] := by
    have hone : Connection.written ⟨true, serverOpen, sent ++ [s.state], received⟩ = [s.state] := by
      rw [Connection.written, ← List.append_assoc, hnone, List.nil_append]
    exact (written_set _).trans (by rw [hone])
  have hanswers : answers { s with
      pc := .close cfd
      connections := s.connections.set cfd ⟨true, serverOpen, sent ++ [s.state], received⟩ } =
      s.answers ++ [s.state] := by
    rw [answers, heq]
    apply flatten_set_last (List.getElem?_eq_some_iff.mp hold).1
    intro j w hj hw
    apply hs.behind j w _ hw
    by_cases hjc : j = cfd
    · subst hjc
      exact Or.inr (Or.inr hpc)
    · exact Or.inl (by omega)
  obtain ⟨hpos, hfresh⟩ := hs.fresh cfd hpc
  constructor
  · exact hs.worked
  · exact hs.own
  · rw [hanswers]
    intro state hstate
    rcases List.mem_append.mp hstate with hold | hnew
    · exact hs.owns state hold
    · rw [List.mem_singleton.mp hnew]
      exact hs.own
  · rw [heq]
    intro w hw
    rcases List.mem_or_eq_of_mem_set hw with hold | rfl
    · exact hs.once w hold
    · exact Nat.le_refl 1
  · rw [hanswers, List.map_append]
    exact hs.rising.concat hpos hfresh
  · rw [heq]
    intro i w hi hw
    simp only [reduceCtorEq, or_false] at hi
    have hne : cfd ≠ i := by omega
    rw [List.getElem?_set_ne hne] at hw
    exact hs.behind i w (Or.inl hi) hw
  · intro i h
    simp at h
  · intro i h
    cases h

theorem Answered.step (hs : Answered startTime pid uid gid s) (h : s.step a = some t) :
    Answered startTime pid uid gid t := by
  cases a with
  | connect =>
      rw [step_connect h]
      exact hs.connect
  | read i =>
      rcases step_read h with rfl | ⟨serverOpen, state, sent, received, hc, rfl⟩
      · exact hs
      · apply hs.same
        apply written_same hc
        simp [Connection.written]
  | close i =>
      obtain ⟨serverOpen, sent, received, hc, rfl⟩ := step_close h
      exact hs.same (written_same hc rfl)
  | server currentTime loadavg =>
      rcases step_server h with ⟨-, rfl⟩ | ⟨cfd, pc, state, hpc, -, -⟩ |
        ⟨cfd, serverOpen, sent, received, hpc, hc, rfl⟩ | ⟨cfd, c, -, -, -, rfl⟩ |
        ⟨cfd, -, rfl⟩
      · exact hs.accept
      · rcases step_update hpc h with rfl | ⟨hlater, rfl⟩
        · exact hs
        · exact hs.update hpc hlater loadavg
      · exact hs.write hpc hc
      · apply hs.leave (by simp) (by simp)
        simp [written, Function.comp_def, Connection.written]
      · apply hs.leave (by simp) (by simp)
        apply List.ext_getElem?
        intro j
        rw [List.getElem?_map, List.getElem?_modify, written, List.getElem?_map]
        cases s.connections[j]? with
        | none => rfl
        | some c =>
            by_cases hj : cfd = j
            · simp [hj, Connection.written]
            · simp [hj]

/-- Whatever the clients do and however many of them there are, a client gets a state once at the
most, it is a state of the server, and no later connection gets one of the same second or of an
earlier one. -/
theorem clients_get_later_seconds (h : Reachable step (start startTime pid uid gid loadavg) s) :
    (∀ c ∈ s.connections, (c.received ++ c.sent).length ≤ 1) ∧
    (∀ c ∈ s.connections, ∀ state ∈ c.received ++ c.sent, 0 < state.workingTime ∧
      state.startTime = startTime ∧ state.pid = pid ∧ state.uid = uid ∧ state.gid = gid) ∧
    ((s.connections.flatMap fun c => c.received ++ c.sent).map Status.workingTime).Pairwise
      (· < ·) := by
  have hs : Answered startTime pid uid gid s :=
    h.invariant (fun _ _ _ hs hstep => hs.step hstep) (Answered.start startTime pid uid gid loadavg)
  have hanswers : s.answers = s.connections.flatMap fun c => c.received ++ c.sent := by
    rw [answers, written, ← List.flatMap_def]
    rfl
  refine ⟨fun c hc => hs.once _ (List.mem_map_of_mem hc), fun c hc state hstate => ?_, ?_⟩
  · have hmem : state ∈ s.answers := by
      rw [hanswers]
      exact List.mem_flatMap.mpr ⟨c, hc, hstate⟩
    exact ⟨(hs.rising.past _ (List.mem_map_of_mem hmem)).1, hs.owns state hmem⟩
  · rw [← hanswers]
    exact hs.rising.ordered

/-- Two clients that are there in the first second. -/
theorem clients_get_later_seconds_two :
    ∃ s, run step (start 0 7 0 0 #v[0, 0, 0]) [.connect, .connect, .server 0 #v[0, 0, 0],
        .server 1 #v[5, 0, 0], .server 1 #v[5, 0, 0], .server 1 #v[5, 0, 0],
        .server 1 #v[5, 0, 0], .server 1 #v[5, 0, 0], .server 2 #v[4, 0, 0],
        .server 2 #v[4, 0, 0], .read 1] = some s ∧
      s.connections.map Connection.written =
        [[⟨0, 1, 7, 0, 0, #v[5, 0, 0]⟩], [⟨0, 2, 7, 0, 0, #v[4, 0, 0]⟩]] ∧
      ((s.connections.flatMap fun c => c.received ++ c.sent).map Status.workingTime).Pairwise
        (· < ·) := by
  have hrun : (run step (start 0 7 0 0 #v[0, 0, 0]) [.connect, .connect, .server 0 #v[0, 0, 0],
      .server 1 #v[5, 0, 0], .server 1 #v[5, 0, 0], .server 1 #v[5, 0, 0],
      .server 1 #v[5, 0, 0], .server 1 #v[5, 0, 0], .server 2 #v[4, 0, 0],
      .server 2 #v[4, 0, 0], .read 1]).map (fun s => s.connections.map Connection.written) =
      some [[⟨0, 1, 7, 0, 0, #v[5, 0, 0]⟩], [⟨0, 2, 7, 0, 0, #v[4, 0, 0]⟩]] := by decide
  obtain ⟨s, hs, hwritten⟩ := Option.map_eq_some_iff.mp hrun
  exact ⟨s, hs, hwritten, (clients_get_later_seconds ⟨_, hs⟩).2.2⟩

end UnixServer

end SyssoftLabs.Lab5
