import SyssoftLabs.Lab6.Session.Answers

/-!
# Client and server in step

The bytes between the two belong to one argument at a time. Every state of a session is at a known
place of the request or of the answer to the current argument, with a known number of steps to come.
-/

namespace SyssoftLabs.Lab6

open SyssoftLabs.Framework Work

variable {opendir : List Char → Option (List (List Char))} {args : List (List Char)}
  {arg : List Char}

/-! ## Answers end with their only NUL -/

/-- The names in a directory are strings. -/
def PlainNames (opendir : List Char → Option (List (List Char))) : Prop :=
  ∀ path names, opendir path = some names → ∀ name ∈ names, nul ∉ name

/-- The answer without its NUL. -/
def body (opendir : List Char → Option (List (List Char))) (arg : List Char) : List Char :=
  arg ++ [':', '\n'] ++
    match opendir arg with
    | some names => names.flatMap fun name => '\t' :: (name ++ ['\n'])
    | none => errorLine

private theorem answer_eq (opendir : List Char → Option (List (List Char))) (arg : List Char) :
    answer opendir arg = body opendir arg ++ [nul] := by
  unfold answer body listing
  cases opendir arg with
  | none => simp
  | some names => simp

private theorem nul_notMem_body (hnames : PlainNames opendir) (harg : nul ∉ arg) :
    nul ∉ body opendir arg := by
  have hcolon : nul ∉ [':', '\n'] := by decide
  unfold body
  rw [List.mem_append, List.mem_append, not_or, not_or]
  refine ⟨⟨harg, hcolon⟩, ?_⟩
  cases hdir : opendir arg with
  | none =>
      simp only
      decide
  | some names =>
      simp only [List.mem_flatMap, not_exists, not_and]
      intro name hname
      have hplain := hnames arg names hdir name hname
      have htab : nul ≠ '\t' := by decide
      have hline : nul ≠ '\n' := by decide
      simp [hplain, htab, hline]

private theorem answer_whole {current rest : List Char} (hcurrent : nul ∉ current)
    (hbody : nul ∉ body opendir arg) (h : current ++ nul :: rest = answer opendir arg) :
    rest = [] := by
  rw [answer_eq] at h
  have hsame : current = body opendir arg := by
    rw [← cString_append hcurrent rest, h, cString_append hbody]
  rw [hsame] at h
  simpa using h

/-! ## The places of a session -/

/-- How many steps a session takes that has these arguments before it, with a server in `read`. -/
def sessionSteps (opendir : List Char → Option (List (List Char))) : List (List Char) → Nat
  | [] => 10
  | arg :: args =>
      (arg.length + 3) + (answer opendir arg).length + (3 + listingSteps (opendir arg)) + 1 +
        sessionSteps opendir args

/-- A session over `args` stands here, so many steps before its end. -/
inductive InStep (opendir : List Char → Option (List (List Char))) (args : List (List Char)) :
    Session → Nat → Prop
  /-- Between two arguments. -/
  | next (w : Work) (k : Nat) (done rest : List (List Char)) (hargs : args = done ++ rest)
      (hreads : w.Reads [] k) :
      InStep opendir args ⟨⟨.next, rest, done.map (answer opendir), []⟩, w, [], []⟩
        (k + sessionSteps opendir rest)
  | lineEnd (w : Work) (k : Nat) (done rest : List (List Char)) (arg p input : List Char)
      (hargs : args = done ++ arg :: rest) (hreads : w.Reads p k) (hline : p ++ input = arg) :
      InStep opendir args ⟨⟨.lineEnd, arg :: rest, done.map (answer opendir), []⟩, w, input, []⟩
        (k + (input.length + 2) + (answer opendir arg).length + (3 + listingSteps (opendir arg)) +
          1 + sessionSteps opendir rest)
  /-- The request is complete, but not yet read. -/
  | asked (w : Work) (k : Nat) (done rest : List (List Char)) (arg p input : List Char)
      (hargs : args = done ++ arg :: rest) (hreads : w.Reads p k)
      (hline : p ++ input = arg ++ ['\n']) :
      InStep opendir args ⟨⟨.read, arg :: rest, done.map (answer opendir), []⟩, w, input, []⟩
        (k + input.length + (answer opendir arg).length + (3 + listingSteps (opendir arg)) + 1 +
          sessionSteps opendir rest)
  | answering (w : Work) (m : Nat) (done rest : List (List Char))
      (arg current sent left : List Char) (hargs : args = done ++ arg :: rest)
      (hanswers : w.Answers opendir left m)
      (hparts : current ++ (sent ++ left) = answer opendir arg)
      (hcurrent : nul ∉ current) :
      InStep opendir args ⟨⟨.read, arg :: rest, done.map (answer opendir), current⟩, w, [], sent⟩
        (sent.length + left.length + m + 1 + sessionSteps opendir rest)
  /-- The answer is sent, but not yet read. -/
  | answered (w : Work) (k : Nat) (done rest : List (List Char)) (arg current sent : List Char)
      (hargs : args = done ++ arg :: rest) (hreads : w.Reads [] k)
      (hparts : current ++ sent = answer opendir arg) (hcurrent : nul ∉ current)
      (hmore : sent ≠ []) :
      InStep opendir args ⟨⟨.read, arg :: rest, done.map (answer opendir), current⟩, w, [], sent⟩
        (sent.length + k + sessionSteps opendir rest)
  | closing (w : Work) (k : Nat) (p input : List Char) (hreads : w.Reads p k)
      (hline : p ++ input = ['/', '/', 'c', 'l', 'o', 's', 'e'] ++ ['\n', nul]) :
      InStep opendir args ⟨⟨.closed, [], args.map (answer opendir), []⟩, w, input, []⟩
        (k + input.length)
  | leaving (w : Work) (hpc : w.pc = .line) (hbuf : w.Filled closeLine) :
      InStep opendir args ⟨⟨.closed, [], args.map (answer opendir), []⟩, w, [nul], []⟩ 1
  | left (w : Work) (hpc : w.pc = .returned) (hbuf : w.Filled closeLine) :
      InStep opendir args ⟨⟨.closed, [], args.map (answer opendir), []⟩, w, [nul], []⟩ 0

variable {s t : Session} {n : Nat}

theorem InStep.start (opendir : List Char → Option (List (List Char))) (args : List (List Char)) :
    InStep opendir args (Session.start args) (1 + sessionSteps opendir args) :=
  .next Work.start 1 [] args rfl (.malloc rfl)

/-! ## Steps of the server -/

variable {client : ClientState} {w : Work} {input sent : List Char}

theorem step_server {calls : Calls}
    (h : Session.step calls ⟨client, w, input, sent⟩ .server = some t) :
    ∃ w' input' out, w.step calls input (client.pc = .closed) = some (w', input', out) ∧
      t = ⟨client, w', input', sent ++ out⟩ := by
  simp only [Session.step, Option.map_eq_some_iff] at h
  obtain ⟨⟨w', input', out⟩, hw, ht⟩ := h
  exact ⟨w', input', out, hw, ht.symm⟩

theorem InStep.server_step (hrequests : ∀ arg ∈ args, Request arg) (h : InStep opendir args s n)
    (hstep : Session.step (Calls.zeroed opendir) s .server = some t) :
    ∃ m, n = m + 1 ∧ InStep opendir args t m := by
  cases h with
  | next w k done rest hargs hreads =>
      obtain ⟨w', input', out, hw, rfl⟩ := step_server hstep
      obtain ⟨rfl, ⟨p', k', hp, hk, hreads'⟩ | ⟨hinput, -⟩⟩ := hreads.step (by simp) hw
      · obtain ⟨rfl, rfl⟩ : p' = [] ∧ input' = [] := by simpa using hp
        exact ⟨_, by omega, .next w' k' done rest hargs hreads'⟩
      · exact absurd hinput (by simp)
  | lineEnd w k done rest arg p input hargs hreads hline =>
      obtain ⟨w', input', out, hw, rfl⟩ := step_server hstep
      obtain ⟨rfl, ⟨p', k', hp, hk, hreads'⟩ | ⟨rfl, -⟩⟩ := hreads.step (by simp) hw
      · exact ⟨_, by omega, .lineEnd w' k' done rest arg p' input' hargs hreads' (hp ▸ hline)⟩
      · have harg : Request arg := hrequests arg (by simp [hargs])
        exact absurd (by simp [← hline]) harg.noLineFeed
  | asked w k done rest arg p input hargs hreads hline =>
      obtain ⟨w', input', out, hw, rfl⟩ := step_server hstep
      obtain ⟨rfl, ⟨p', k', hp, hk, hreads'⟩ | ⟨rfl, rfl, hfilled, hpc⟩⟩ :=
        hreads.step (by simp) hw
      · exact ⟨_, by omega, .asked w' k' done rest arg p' input' hargs hreads' (hp ▸ hline)⟩
      · have harg : Request arg := hrequests arg (by simp [hargs])
        obtain ⟨rfl, -, rfl⟩ :=
          (List.append_cons_inj_of_notMem harg.noLineFeed List.not_mem_nil).1 hline.symm
        refine ⟨_, ?_, .answering w' _ done rest arg [] [] _ hargs (.line arg hpc hfilled harg)
          (List.nil_append _) List.not_mem_nil⟩
        simp only [List.length_cons, List.length_nil]
        omega
  | answering w m done rest arg current sent left hargs hanswers hparts hcurrent =>
      obtain ⟨w', input', out, hw, rfl⟩ := step_server hstep
      have hmore : left ≠ [] := hanswers.ne_nil
      obtain ⟨rfl, left', rfl, ⟨m', rfl, hanswers'⟩ | ⟨rfl, rfl, hpc⟩⟩ := hanswers.step hw
      · refine ⟨_, ?_, .answering w' m' done rest arg current (sent ++ out) left' hargs
          hanswers' ?_ hcurrent⟩
        · simp only [List.length_append]
          omega
        · simpa using hparts
      · refine ⟨_, ?_, .answered w' 2 done rest arg current (sent ++ out) hargs (.free hpc)
          ?_ hcurrent ?_⟩
        · simp only [List.length_append, List.length_nil]
          omega
        · simpa using hparts
        · simpa using fun _ => hmore
  | answered w k done rest arg current sent hargs hreads hparts hcurrent hmore =>
      obtain ⟨w', input', out, hw, rfl⟩ := step_server hstep
      obtain ⟨rfl, ⟨p', k', hp, hk, hreads'⟩ | ⟨hinput, -⟩⟩ := hreads.step (by simp) hw
      · obtain ⟨rfl, rfl⟩ : p' = [] ∧ input' = [] := by simpa using hp
        rw [List.append_nil]
        exact ⟨_, by omega,
          .answered w' k' done rest arg current sent hargs hreads' hparts hcurrent hmore⟩
      · exact absurd hinput (by simp)
  | closing w k p input hreads hline =>
      obtain ⟨w', input', out, hw, rfl⟩ := step_server hstep
      have hmore : input ≠ [] := hreads.ne_nil hline
      obtain ⟨rfl, ⟨p', k', hp, hk, hreads'⟩ | ⟨rfl, rfl, hfilled, hpc⟩⟩ :=
        hreads.step (fun _ => hmore) hw
      · exact ⟨_, hk, .closing w' k' p' input' hreads' (hp ▸ hline)⟩
      · obtain ⟨rfl, -, rfl⟩ :=
          (List.append_cons_inj_of_notMem (by decide) (by decide)).1 hline.symm
        exact ⟨1, rfl, .leaving w' hpc hfilled⟩
  | leaving w hpc hbuf =>
      obtain ⟨w', input', out, hw, rfl⟩ := step_server hstep
      rw [step_close _ hpc hbuf] at hw
      cases hw
      exact ⟨0, rfl, .left _ rfl hbuf⟩
  | left w hpc hbuf =>
      obtain ⟨w', input', out, hw, rfl⟩ := step_server hstep
      simp [Work.step, hpc] at hw

/-! ## Steps of the client -/

private theorem client_read {client : ClientState} {calls : Calls} (hpc : client.pc = .read)
    (hw : w.pc ≠ .returned)
    (hstep : Session.step calls ⟨client, w, input, sent⟩ .client = some t) :
    ∃ b rest, sent = b :: rest ∧
      t = ⟨if b = nul then client.finish (client.current ++ [b])
        else { client with current := client.current ++ [b] }, w, input, rest⟩ := by
  simp only [Session.step, ClientState.step, hpc, hw, decide_false] at hstep
  cases sent with
  | nil => simp at hstep
  | cons b rest =>
      refine ⟨b, rest, rfl, ?_⟩
      by_cases hb : b = nul
      · simp only [if_pos hb, Option.map_some, Option.some_inj, List.append_nil] at hstep
        rw [if_pos hb, hstep]
      · simp only [if_neg hb, Option.map_some, Option.some_inj, List.append_nil] at hstep
        rw [if_neg hb, ← hstep, hpc]

private theorem step_client_closed {calls : Calls} (hpc : client.pc = .closed) :
    Session.step calls ⟨client, w, input, sent⟩ .client = none := by
  simp [Session.step, ClientState.step, hpc]

theorem InStep.client_step (hrequests : ∀ arg ∈ args, Request arg) (hnames : PlainNames opendir)
    (h : InStep opendir args s n)
    (hstep : Session.step (Calls.zeroed opendir) s .client = some t) :
    ∃ m, n = m + 1 ∧ InStep opendir args t m := by
  cases h with
  | next w k done rest hargs hreads =>
      cases rest with
      | nil =>
          simp only [Session.step, ClientState.step, Option.map_some, Option.some_inj] at hstep
          rw [← hstep, ← List.append_nil done, ← hargs]
          exact ⟨_, rfl, .closing w k [] (closeLine ++ [nul]) hreads rfl⟩
      | cons arg rest =>
          simp only [Session.step, ClientState.step, Option.map_some, Option.some_inj] at hstep
          rw [← hstep]
          refine ⟨_, ?_, .lineEnd w k done rest arg [] arg hargs hreads rfl⟩
          simp only [sessionSteps]
          omega
  | lineEnd w k done rest arg p input hargs hreads hline =>
      simp only [Session.step, ClientState.step, Option.map_some, Option.some_inj] at hstep
      rw [← hstep]
      refine ⟨_, ?_, .asked w k done rest arg p (input ++ ['\n']) hargs hreads ?_⟩
      · simp only [List.length_append, List.length_singleton]
        omega
      · rw [← List.append_assoc, hline]
  | asked w k done rest arg p input hargs hreads hline =>
      obtain ⟨b, sent, hsent, -⟩ := client_read rfl hreads.not_returned hstep
      exact absurd hsent (by simp)
  | answering w m done rest arg current sent left hargs hanswers hparts hcurrent =>
      obtain ⟨b, sent, rfl, rfl⟩ := client_read rfl hanswers.not_returned hstep
      have hbody : nul ∉ body opendir arg :=
        nul_notMem_body hnames (hrequests arg (by simp [hargs])).noNul
      by_cases hb : b = nul
      · subst hb
        have hrest : sent ++ left = [] := answer_whole hcurrent hbody hparts
        exact absurd (List.append_eq_nil_iff.1 hrest).2 hanswers.ne_nil
      · rw [if_neg hb]
        refine ⟨_, ?_, .answering w m done rest arg (current ++ [b]) sent left hargs hanswers
          ?_ ?_⟩
        · simp only [List.length_cons]
          omega
        · simpa using hparts
        · simpa [hcurrent] using Ne.symm hb
  | answered w k done rest arg current sent hargs hreads hparts hcurrent hmore =>
      obtain ⟨b, sent, rfl, rfl⟩ := client_read rfl hreads.not_returned hstep
      have hbody : nul ∉ body opendir arg :=
        nul_notMem_body hnames (hrequests arg (by simp [hargs])).noNul
      by_cases hb : b = nul
      · subst hb
        obtain rfl : sent = [] := answer_whole hcurrent hbody hparts
        rw [if_pos rfl]
        have hdone : done.map (answer opendir) ++ [current ++ [nul]] =
            (done ++ [arg]).map (answer opendir) := by
          rw [hparts, List.map_append, List.map_singleton]
        simp only [ClientState.finish, hdone]
        refine ⟨_, ?_, .next w k (done ++ [arg]) rest ?_ hreads⟩
        · simp only [List.length_singleton]
          omega
        · simpa using hargs
      · rw [if_neg hb]
        have hmore' : sent ≠ [] := by
          rintro rfl
          rw [answer_eq, List.append_singleton_inj] at hparts
          exact hb hparts.2
        refine ⟨_, ?_, .answered w k done rest arg (current ++ [b]) sent hargs hreads ?_ ?_
          hmore'⟩
        · simp only [List.length_cons]
          omega
        · simpa using hparts
        · simpa [hcurrent] using Ne.symm hb
  | closing w k p input hreads hline => simp [step_client_closed] at hstep
  | leaving w hpc hbuf => simp [step_client_closed] at hstep
  | left w hpc hbuf => simp [step_client_closed] at hstep

/-! ## Runs -/

/-- A run of a session takes the steps that are counted, one after the other. -/
theorem InStep.run (hrequests : ∀ arg ∈ args, Request arg) (hnames : PlainNames opendir)
    {as : List Peer} (h : InStep opendir args s n)
    (hrun : run (Session.step (Calls.zeroed opendir)) s as = some t) :
    ∃ m, n = as.length + m ∧ InStep opendir args t m := by
  induction as generalizing s n with
  | nil =>
      cases hrun
      exact ⟨n, (Nat.zero_add n).symm, h⟩
  | cons peer as ih =>
      rw [run_cons, Option.bind_eq_some_iff] at hrun
      obtain ⟨u, hu, hrun⟩ := hrun
      have hstep : ∃ m, n = m + 1 ∧ InStep opendir args u m := by
        cases peer with
        | client => exact h.client_step hrequests hnames hu
        | server => exact h.server_step hrequests hu
      obtain ⟨m, rfl, hm⟩ := hstep
      obtain ⟨k, rfl, hk⟩ := ih hm hrun
      refine ⟨k, ?_, hk⟩
      rw [List.length_cons]
      omega

theorem InStep.enabled (h : InStep opendir args s n) (hpc : s.server.pc ≠ .returned) :
    ∃ peer t, Session.step (Calls.zeroed opendir) s peer = some t := by
  have server {u : Work × List Char × List Char}
      (hu : s.server.step (Calls.zeroed opendir) s.toServer (s.client.pc = .closed) = some u) :
      ∃ peer t, Session.step (Calls.zeroed opendir) s peer = some t := by
    refine ⟨.server, ⟨s.client, u.1, u.2.1, s.toClient ++ u.2.2⟩, ?_⟩
    simp [Session.step, hu]
  cases h with
  | next w k done rest hargs hreads =>
      refine ⟨.client, ?_⟩
      cases rest with
      | nil => simp [Session.step, ClientState.step]
      | cons arg rest => simp [Session.step, ClientState.step]
  | lineEnd w k done rest arg p input hargs hreads hline =>
      exact ⟨.client, by simp [Session.step, ClientState.step]⟩
  | asked w k done rest arg p input hargs hreads hline =>
      obtain ⟨u, hu⟩ := hreads.enabled opendir (fun _ => hreads.ne_nil hline) false
      exact server hu
  | answering w m done rest arg current sent left hargs hanswers hparts hcurrent =>
      obtain ⟨u, hu⟩ := hanswers.enabled [] false
      exact server hu
  | answered w k done rest arg current sent hargs hreads hparts hcurrent hmore =>
      obtain ⟨b, sent, rfl⟩ := List.exists_cons_of_ne_nil hmore
      refine ⟨.client, ?_⟩
      by_cases hb : b = nul
      · simp [Session.step, ClientState.step, hb]
      · simp [Session.step, ClientState.step, hb]
  | closing w k p input hreads hline =>
      obtain ⟨u, hu⟩ := hreads.enabled opendir (fun _ => hreads.ne_nil hline) true
      exact server hu
  | leaving w hpc' hbuf =>
      exact server (step_close _ hpc' hbuf _ _)
  | left w hpc' hbuf => exact absurd hpc' hpc

/-- What the client has read, what is on its way to it, and how the two end, when these are the
answers to its arguments. -/
structure Session.Follows (s : Session) (answers : List (List Char)) : Prop where
  /-- The read loops that have ended have read an answer each. -/
  finished : s.client.finished <+: answers
  /-- The read loop at work is inside its own answer, and what is on the way belongs to it. -/
  reading : s.client.pc = .read → ∃ rest, s.toClient ++ rest ≠ [] ∧
    answers[s.client.finished.length]? = some (s.client.current ++ s.toClient ++ rest)
  /-- Outside of the read loop nothing of an answer is left. -/
  between : s.client.pc ≠ .read → s.toClient = []
  closed : s.client.pc = .closed → s.client.finished = answers
  /-- The server returns after the last answer, through `//close`. -/
  returned : s.server.pc = .returned → s.client.pc = .closed ∧ cString s.server.buf = closeLine

private theorem answers_current {done rest : List (List Char)}
    (hargs : args = done ++ arg :: rest) :
    (args.map (answer opendir))[(done.map (answer opendir)).length]? =
      some (answer opendir arg) := by
  rw [hargs, List.map_append, List.getElem?_append_right (Nat.le_refl _)]
  simp

private theorem answers_finished {done rest : List (List Char)} (hargs : args = done ++ rest) :
    done.map (answer opendir) <+: args.map (answer opendir) := by
  rw [hargs, List.map_append]
  exact List.prefix_append _ _

theorem InStep.follows (h : InStep opendir args s n) : s.Follows (args.map (answer opendir)) := by
  cases h with
  | next w k done rest hargs hreads =>
      refine ⟨answers_finished hargs, by simp, fun _ => rfl, by simp, fun hpc => ?_⟩
      exact absurd hpc hreads.not_returned
  | lineEnd w k done rest arg p input hargs hreads hline =>
      refine ⟨answers_finished hargs, by simp, fun _ => rfl, by simp, fun hpc => ?_⟩
      exact absurd hpc hreads.not_returned
  | asked w k done rest arg p input hargs hreads hline =>
      refine ⟨answers_finished hargs, fun _ => ⟨answer opendir arg, ?_, answers_current hargs⟩,
        by simp, by simp, fun hpc => absurd hpc hreads.not_returned⟩
      simp [answer_eq]
  | answering w m done rest arg current sent left hargs hanswers hparts hcurrent =>
      refine ⟨answers_finished hargs, fun _ => ⟨left, ?_, ?_⟩, by simp, by simp,
        fun hpc => absurd hpc hanswers.not_returned⟩
      · simpa using fun _ => hanswers.ne_nil
      · rw [List.append_assoc, hparts]
        exact answers_current hargs
  | answered w k done rest arg current sent hargs hreads hparts hcurrent hmore =>
      refine ⟨answers_finished hargs, fun _ => ⟨[], ?_, ?_⟩, by simp, by simp,
        fun hpc => absurd hpc hreads.not_returned⟩
      · simpa using hmore
      · rw [List.append_nil, hparts]
        exact answers_current hargs
  | closing w k p input hreads hline =>
      exact ⟨List.prefix_rfl, by simp, fun _ => rfl, fun _ => rfl,
        fun hpc => absurd hpc hreads.not_returned⟩
  | leaving w hpc hbuf =>
      exact ⟨List.prefix_rfl, by simp, fun _ => rfl, fun _ => rfl, by simp [hpc]⟩
  | left w hpc hbuf =>
      refine ⟨List.prefix_rfl, by simp, fun _ => rfl, fun _ => rfl, fun _ => ⟨rfl, ?_⟩⟩
      obtain ⟨-, z, hz, hbuf⟩ := hbuf
      obtain ⟨y, rfl⟩ : ∃ y, z = y + 1 := ⟨z - 1, by omega⟩
      rw [hbuf, List.replicate_succ]
      exact cString_append (by decide) _

/-- In every interleaving the i-th read loop of the client reads the answer to the i-th argument, up
to the only NUL of it. Every session ends, and ends with the server's return. -/
theorem client_follows_server (hrequests : ∀ arg ∈ args, Request arg)
    (hnames : PlainNames opendir) {as : List Peer}
    (h : run (Session.step (Calls.zeroed opendir)) (Session.start args) as = some s) :
    s.Follows (args.map (answer opendir)) ∧
      (∀ arg ∈ args, ∃ text, answer opendir arg = text ++ [nul] ∧ nul ∉ text) ∧
      as.length ≤ 1 + sessionSteps opendir args ∧
      ((∀ peer, Session.step (Calls.zeroed opendir) s peer = none) → s.server.pc = .returned) := by
  obtain ⟨m, hm, hs⟩ := (InStep.start opendir args).run hrequests hnames h
  refine ⟨hs.follows, ?_, by omega, ?_⟩
  · intro arg harg
    exact ⟨body opendir arg, answer_eq opendir arg,
      nul_notMem_body hnames (hrequests arg harg).noNul⟩
  · intro hstuck
    by_contra hpc
    obtain ⟨peer, t, ht⟩ := hs.enabled hpc
    rw [hstuck peer] at ht
    exact absurd ht (by simp)

/-- A directory `a` with the entry `b`, and no other. -/
def oneEntry (path : List Char) : Option (List (List Char)) :=
  if path = ['a'] then some [['b']] else none

theorem plainNames_oneEntry : PlainNames oneEntry := by
  intro path names hpath name hname
  unfold oneEntry at hpath
  split at hpath
  · rw [Option.some_inj] at hpath
    rw [← hpath, List.mem_singleton] at hname
    rw [hname]
    decide
  · exact absurd hpath (by simp)

/-- The answers to two arguments, the second of which is no directory. -/
theorem client_follows_server_whole :
    ∃ s, run (Session.step (Calls.zeroed oneEntry)) (Session.start [['a'], ['x']])
        (List.replicate 2 .client ++ List.replicate 12 .server ++ List.replicate 9 .client ++
          List.replicate 8 .server ++ List.replicate 14 .client ++ List.replicate 9 .server) =
        some s ∧
      s.client.finished = [['a', ':', '\n', '\t', 'b', '\n', nul],
        ['x', ':', '\n', '\t', '<', 'e', 'r', 'r', 'o', 'r', '>', '\n', nul]] ∧
      s.Follows ([['a'], ['x']].map (answer oneEntry)) ∧
      54 ≤ 1 + sessionSteps oneEntry [['a'], ['x']] := by
  have hrequests : ∀ arg ∈ [['a'], ['x']], Request arg := by
    intro arg harg
    obtain rfl | rfl : arg = ['a'] ∨ arg = ['x'] := by simpa using harg
    · exact ⟨by decide, by decide, by decide, by decide⟩
    · exact ⟨by decide, by decide, by decide, by decide⟩
  have hrun : (run (Session.step (Calls.zeroed oneEntry)) (Session.start [['a'], ['x']])
      (List.replicate 2 .client ++ List.replicate 12 .server ++ List.replicate 9 .client ++
        List.replicate 8 .server ++ List.replicate 14 .client ++ List.replicate 9 .server)).map
      (fun s => s.client.finished) = some [['a', ':', '\n', '\t', 'b', '\n', nul],
        ['x', ':', '\n', '\t', '<', 'e', 'r', 'r', 'o', 'r', '>', '\n', nul]] := by decide +kernel
  obtain ⟨s, hs, hfinished⟩ := Option.map_eq_some_iff.mp hrun
  obtain ⟨hfollows, -, hle, -⟩ := client_follows_server hrequests plainNames_oneEntry hs
  exact ⟨s, hs, hfinished, hfollows, hle⟩

end SyssoftLabs.Lab6
