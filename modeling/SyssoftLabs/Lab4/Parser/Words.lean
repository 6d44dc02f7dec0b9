import SyssoftLabs.Lab4.Parser.Printing
import SyssoftLabs.Lab4.Parser.Scan

/-!
# The words of an accepted line

Every word of an accepted vector goes into exactly one command, as an argument or as the name of a
file. The separators are left out, except where the parser takes one for the name of a file.
-/

namespace SyssoftLabs.Lab4

open SyssoftLabs.Framework

/-- The names of the files a command is redirected to, the output first. -/
def Cmd.files (c : Cmd) : List (Option CStr) :=
  (if c.redirect then [c.rfilename] else []) ++ if c.redirectIn then [c.rifilename] else []

/-- All tokens a command holds: its arguments, then its files. -/
def Cmd.listing (c : Cmd) : List (Option CStr) := c.argv.take c.argc ++ c.files

/-- A choice of tokens that leaves out separators only. -/
structure Kept (chosen ts : List CStr) : Prop where
  sublist : chosen.Sublist ts
  words : chosen.filter isWord = ts.filter isWord

theorem Kept.refl (ts : List CStr) : Kept ts ts := ⟨.refl ts, rfl⟩

theorem Kept.append {chosen ts chosen' ts' : List CStr} (h : Kept chosen ts)
    (h' : Kept chosen' ts') : Kept (chosen ++ chosen') (ts ++ ts') := by
  constructor
  · exact h.sublist.append h'.sublist
  · rw [List.filter_append, List.filter_append, h.words, h'.words]

private theorem Kept.separators {ts : List CStr} (h : ∀ t ∈ ts, startsSeparator t = true) :
    Kept [] ts := by
  constructor
  · exact List.nil_sublist ts
  · rw [List.filter_nil, eq_comm, List.filter_eq_nil_iff]
    intro t ht
    simp [isWord, h t ht]

theorem Kept.operand (op file : CStr) (h : startsSeparator op = true) :
    Kept [file] [op, file] := by
  have hop : Kept [] [op] := .separators (by simpa using h)
  exact hop.append (.refl [file])

/-! ## Operands -/

namespace Scan

/-- The tokens that are read as names of files. -/
def operands (σ : Scan) : List CStr → List CStr
  | [] => []
  | t :: ts =>
      match σ.next t with
      | none => []
      | some τ => if τ = .outputFile ∨ τ = .inputFile then t :: operands τ ts else operands τ ts

private theorem operands_cons {σ τ : Scan} {t : CStr} (ts : List CStr) (h : σ.next t = some τ)
    (hτ : ¬ (τ = .outputFile ∨ τ = .inputFile)) : σ.operands (t :: ts) = τ.operands ts := by
  simp only [operands, h, if_neg hτ]

private theorem operands_file {σ τ : Scan} {t : CStr} (ts : List CStr) (h : σ.next t = some τ)
    (hτ : τ = .outputFile ∨ τ = .inputFile) : σ.operands (t :: ts) = t :: τ.operands ts := by
  simp only [operands, h, if_pos hτ]

private theorem operands_words {ws : List CStr} (rest : List CStr)
    (hws : ∀ t ∈ ws, isWord t = true) :
    Scan.word.operands (ws ++ rest) = Scan.word.operands rest := by
  induction ws with
  | nil => rfl
  | cons t ws ih =>
      have ht : Scan.word.next t = some .word := by simp [Scan.next, hws t List.mem_cons_self]
      rw [List.cons_append, operands_cons _ ht (by decide)]
      exact ih fun u hu => hws u (List.mem_cons_of_mem t hu)

end Scan

private theorem operands_closesAt {σ : Scan} {ts : List CStr} (h : ClosesAt σ ts) :
    σ.operands ts = Scan.gap.operands (ts.dropWhile startsSeparator) := by
  induction ts generalizing σ with
  | nil => rfl
  | cons t ts ih =>
      obtain ⟨hnext, -⟩ := next_closesAt h
      cases hw : isWord t with
      | true =>
          have hs : ¬ startsSeparator t = true := by simpa [isWord] using hw
          have hgap : Scan.gap.next t = some .word := by simp [Scan.next, hw]
          rw [hw, if_pos rfl] at hnext
          rw [List.dropWhile_cons_of_neg hs, Scan.operands_cons ts hnext (by decide),
            Scan.operands_cons ts hgap (by decide)]
      | false =>
          have hs : startsSeparator t = true := by simpa [isWord] using hw
          rw [hw, if_neg Bool.false_ne_true] at hnext
          rw [List.dropWhile_cons_of_pos hs, ← ih (σ := .gap) trivial,
            Scan.operands_cons ts hnext (by decide)]

/-! ## One round -/

/-- The names of files that the tokens in front of `rest` give to a command. -/
structure Named (σ τ : Scan) (ts rest : List CStr) (files chosen : List CStr) : Prop where
  taken : ∃ front, ts = front ++ rest ∧ Kept chosen front
  operands : σ.operands ts = files ++ τ.operands rest

private theorem redirectOutput_files {c c' : Cmd} {ts rest : List CStr} (hc : c.redirect = false)
    (hin : c.redirectIn = false) (hts : ∀ t, ts.head? = some t → isWord t = false ∧ t ≠ ['|'])
    (h : redirectOutput c ts = some (c', rest)) :
    c'.redirectIn = false ∧ ∃ σ chosen, BeforeInput σ rest ∧ c'.files = chosen.map some ∧
      Named .word σ ts rest chosen chosen := by
  rcases redirectOutput_cases c ts with
    ⟨hr, hgt⟩ | ⟨hr, -⟩ | ⟨file, rest', hne, rfl, hr⟩ | ⟨file, rest', rfl, hr⟩
  · rw [hr] at h
    cases h
    refine ⟨hin, .word, [], .inl ⟨rfl, fun t ht => ?_⟩, by simp [Cmd.files, hc, hin],
      ⟨[], rfl, .refl []⟩, rfl⟩
    exact ⟨(hts t ht).1, (hts t ht).2, fun ho => hgt (ho ▸ ht)⟩
  · rw [hr] at h
    cases h
  · rw [hr] at h
    cases h
    have hfile : Scan.output.next file = some .outputFile := if_neg hne
    refine ⟨hin, .outputFile, [file], .inr rfl, by simp [Cmd.files, hin],
      ⟨[['>'], file], rfl, .operand _ _ rfl⟩, ?_⟩
    rw [Scan.operands_cons _ (rfl : Scan.word.next ['>'] = some .output) (by decide),
      Scan.operands_file _ hfile (.inl rfl)]
    rfl
  · rw [hr] at h
    cases h
    have happend : Kept [file] ([['>']] ++ [['>'], file]) :=
      (Kept.separators (by decide)).append (.operand _ _ rfl)
    refine ⟨hin, .outputFile, [file], .inr rfl, by simp [Cmd.files, hin], ⟨_, rfl, happend⟩, ?_⟩
    rw [Scan.operands_cons _ (rfl : Scan.word.next ['>'] = some .output) (by decide),
      Scan.operands_cons _ (rfl : Scan.output.next ['>'] = some .append) (by decide),
      Scan.operands_file _ (rfl : Scan.append.next file = some .outputFile) (.inl rfl)]
    rfl

private theorem redirectInput_files {c c' : Cmd} {ts rest chosen : List CStr} {σ : Scan}
    (hσ : BeforeInput σ ts) (hin : c.redirectIn = false) (hfiles : c.files = chosen.map some)
    (h : redirectInput c ts = some (c', rest)) :
    ∃ τ more, ClosesAt τ rest ∧ c'.files = (chosen ++ more).map some ∧
      Named σ τ ts rest more more := by
  rcases redirectInput_cases c ts with ⟨hr, hlt⟩ | ⟨hr, -⟩ | ⟨file, rest', rfl, hr⟩
  · rw [hr] at h
    cases h
    exact ⟨σ, [], hσ.closesAt hlt, by rw [hfiles, List.append_nil], ⟨[], rfl, .refl []⟩, rfl⟩
  · rw [hr] at h
    cases h
  · rw [hr] at h
    cases h
    refine ⟨.inputFile, [file], trivial, ?_, ⟨[['<'], file], rfl, .operand _ _ rfl⟩, ?_⟩
    · rw [List.map_append, ← hfiles]
      simp [Cmd.files, hin]
    · rw [Scan.operands_cons _ hσ.next (by decide),
        Scan.operands_file _ (rfl : Scan.input.next file = some .inputFile) (.inr rfl)]
      rfl

private theorem endRound_files {c c' : Cmd} {ts rest : List CStr} {marks : Bool}
    (hc : c.redirect = false) (hin : c.redirectIn = false)
    (hts : ∀ t, ts.head? = some t → isWord t = false ∧ t ≠ ['|'])
    (h : endRound c ts = .next c' marks rest) :
    ∃ chosen, c'.files = chosen.map some ∧ Named .word .gap ts rest chosen chosen := by
  obtain ⟨c₁, ts₁, c₂, ts₂, hout, hinput, -, rfl, rfl⟩ := endRound_next h
  obtain ⟨hin₁, σ, chosen, hσ, hfiles, ⟨front, rfl, hkept⟩, hoperands⟩ :=
    redirectOutput_files hc hin hts hout
  obtain ⟨τ, more, hτ, hfiles', ⟨front', rfl, hkept'⟩, hoperands'⟩ :=
    redirectInput_files hσ hin₁ hfiles hinput
  have hbg : ∀ c : Cmd, (if marks then { c with bg := true } else c).files = c.files := by
    intro c
    cases marks <;> rfl
  have hskip : Kept [] (ts₂.takeWhile startsSeparator) :=
    .separators (List.all_eq_true.mp List.all_takeWhile)
  refine ⟨chosen ++ more, ?_, ⟨front ++ (front' ++ ts₂.takeWhile startsSeparator), ?_, ?_⟩, ?_⟩
  · rw [hbg, hfiles']
  · rw [List.append_assoc, List.append_assoc, List.takeWhile_append_dropWhile]
  · have hall := hkept.append (hkept'.append hskip)
    rwa [List.append_nil] at hall
  · rw [hoperands, hoperands', operands_closesAt hτ, List.append_assoc]

private theorem round_listing {pipeNext marks : Bool} {ts rest : List CStr} {c : Cmd}
    (hne : ts ≠ []) (hword : ∀ t, ts.head? = some t → isWord t = true)
    (h : round pipeNext ts = .next c marks rest) :
    ∃ files chosen, c.files = files.map some ∧ c.listing = chosen.map some ∧
      Named .gap .gap ts rest files chosen := by
  obtain ⟨hargc, hargv, -, -⟩ := round_words h
  have hwords : c.argv.take c.argc = (ts.takeWhile isWord).map some := by
    rw [hargc, hargv, List.take_left' (List.length_map some)]
  have hsplit : ts.takeWhile isWord ++ ts.dropWhile isWord = ts := List.takeWhile_append_dropWhile
  have hstart : Scan.gap.operands ts = Scan.word.operands (ts.dropWhile isWord) := by
    obtain ⟨t, ts', rfl⟩ := List.exists_cons_of_ne_nil hne
    have ht := hword t rfl
    have hnext : Scan.gap.next t = some .word := by simp [Scan.next, ht]
    have hin := Scan.operands_words (ts'.dropWhile isWord)
      (List.all_eq_true.mp (List.all_takeWhile (p := isWord) (l := ts')))
    rw [List.takeWhile_append_dropWhile] at hin
    rw [List.dropWhile_cons_of_pos ht, ← hin, Scan.operands_cons ts' hnext (by decide)]
  have hrest : ∃ chosen, c.files = chosen.map some ∧
      Named .word .gap (ts.dropWhile isWord) rest chosen chosen := by
    rcases round_cases h with ⟨hd, rfl, -, rfl⟩ | ⟨u, us, hd, hu, rfl, -, rfl⟩ |
      ⟨t, tail, hd, hp, hend⟩
    · rw [hd]
      exact ⟨[], rfl, ⟨[], rfl, .refl []⟩, rfl⟩
    · rw [hd]
      have hpipe : Scan.pipe.next u = some .word := by simp [Scan.next, hu]
      have hgap : Scan.gap.next u = some .word := by simp [Scan.next, hu]
      refine ⟨[], rfl, ⟨[['|']], rfl, .separators (by decide)⟩, ?_⟩
      rw [Scan.operands_cons _ (rfl : Scan.word.next ['|'] = some .pipe) (by decide),
        Scan.operands_cons _ hpipe (by decide), List.nil_append,
        Scan.operands_cons _ hgap (by decide)]
    · rw [hd]
      have hsep := startsSeparator_of_dropWhile hd
      apply endRound_files rfl rfl _ hend
      intro v hv
      cases hv
      exact ⟨by simp [isWord, hsep], hp⟩
  obtain ⟨files, hfiles, ⟨front, hdrop, hkept⟩, hoperands⟩ := hrest
  refine ⟨files, ts.takeWhile isWord ++ files, hfiles, ?_,
    ⟨ts.takeWhile isWord ++ front, ?_, ?_⟩, hstart.trans hoperands⟩
  · rw [Cmd.listing, hwords, hfiles, List.map_append]
  · rw [List.append_assoc, ← hdrop, hsplit]
  · exact (Kept.refl _).append hkept

/-! ## The whole vector -/

/-- The parts of an accepted vector, round by round. -/
inductive Accepts : Bool → List CStr → List Part → Prop
  | nil (pipeNext : Bool) : Accepts pipeNext [] []
  | next {pipeNext marks : Bool} {t : CStr} {ts rest : List CStr} {c : Cmd} {parts : List Part}
      (word : isWord t = true) (first : round pipeNext (t :: ts) = .next c marks rest)
      (others : Accepts c.piped rest parts) :
      Accepts pipeNext (t :: ts)
        (⟨c, marks, (t :: ts).take ((t :: ts).length - rest.length)⟩ :: parts)

theorem parse_accepts {pipeNext : Bool} {ts : List CStr} {parts : List Part}
    (hword : ∀ t, ts.head? = some t → isWord t = true)
    (h : parse pipeNext ts = (.accepted, parts)) : Accepts pipeNext ts parts := by
  induction hn : ts.length using Nat.strongRecOn generalizing pipeNext ts parts with
  | ind n ih =>
      cases ts with
      | nil =>
          rw [parse_nil] at h
          cases h
          exact .nil pipeNext
      | cons t ts =>
          have hne : t :: ts ≠ [] := List.cons_ne_nil t ts
          cases hr : round pipeNext (t :: ts) with
          | next c marks rest =>
              rw [parse_next hne hr, Prod.mk.injEq] at h
              obtain ⟨hverdict, rfl⟩ := h
              have hrest := ih rest.length (hn ▸ round_rest hne hr) (round_rest_word hr)
                (Prod.ext hverdict rfl) rfl
              exact .next (hword t rfl) hr hrest
          | dropped =>
              rw [parse_dropped hne hr] at h
              cases h
          | dangling =>
              rw [parse_dangling hne hr] at h
              cases h

/-- The commands hold the words of the vector, and as files the operands. -/
theorem Accepts.listing {pipeNext : Bool} {ts : List CStr} {parts : List Part}
    (h : Accepts pipeNext ts parts) :
    parts.flatMap (fun p => p.cmd.files) = (Scan.gap.operands ts).map some ∧
      ∃ chosen, parts.flatMap (fun p => p.cmd.listing) = chosen.map some ∧ Kept chosen ts := by
  induction h with
  | nil => exact ⟨rfl, [], rfl, .refl []⟩
  | next word first others ih =>
      obtain ⟨hoperands, chosen, hlisting, hkept⟩ := ih
      obtain ⟨files, taken, hfiles, htaken, ⟨front, hts, hfront⟩, hnamed⟩ :=
        round_listing (List.cons_ne_nil _ _) (fun u hu => by cases hu; exact word) first
      refine ⟨?_, taken ++ chosen, ?_, ?_⟩
      · rw [List.flatMap_cons, hfiles, hoperands, hnamed, List.map_append]
      · rw [List.flatMap_cons, htaken, hlisting, List.map_append]
      · rw [hts]
        exact hfront.append hkept

/-- A command has an argument, and its arguments are words. -/
def Cmd.Worded (c : Cmd) : Prop :=
  0 < c.argc ∧ ∃ words : List CStr, c.argv.take c.argc = words.map some ∧
    ∀ w ∈ words, isWord w = true

private theorem Accepts.worded {pipeNext : Bool} {ts : List CStr} {parts : List Part}
    (h : Accepts pipeNext ts parts) : ∀ p ∈ parts, p.cmd.Worded := by
  induction h with
  | nil => exact fun p hp => absurd hp List.not_mem_nil
  | @next pipeNext marks t ts rest c parts word first others ih =>
      intro p hp
      rcases List.mem_cons.mp hp with rfl | hp
      · obtain ⟨hargc, hargv, -, -⟩ := round_words first
        refine ⟨?_, (t :: ts).takeWhile isWord, ?_, List.all_eq_true.mp List.all_takeWhile⟩
        · rw [hargc, List.takeWhile_cons_of_pos word]
          exact Nat.succ_pos _
        · rw [hargc, hargv, List.take_left' (List.length_map some)]
      · exact ih p hp

private theorem settle_flatMap {α : Type} {parts : List Part} (f : Cmd → List α)
    (hf : ∀ c : Cmd, f { c with bg := true } = f c) :
    (settle parts).flatMap f = parts.flatMap fun p => f p.cmd := by
  rw [List.flatMap_def, List.flatMap_def, settle_map f hf]

/-- `make_cmdv` returns, and an accepted vector leaves its tokens in the commands, in order and
without its separators, of which only the name of a file may be one. -/
theorem makeCmdv_words (ts : List CStr) (heap : Heap Cmd) (commands : Nat → Ptr)
    (hword : ∀ t, ts.head? = some t → isWord t = true) :
    ∃ b t, makeCmdv (ts.map some ++ [none]) heap (Function.update commands 0 none) = .ok (b, t) ∧
      (b = true ↔ (Scan.gap.ending 0 ts).1 = .accepted) ∧
      (b = true → ∃ (cmds : List Cmd) (chosen : List CStr), Lists t cmds ∧
        cmds.flatMap Cmd.listing = chosen.map some ∧ Kept chosen ts ∧
        cmds.flatMap Cmd.files = (Scan.gap.operands ts).map some ∧ ∀ c ∈ cmds, c.Worded) := by
  have hrun := makeCmdv_parse ts heap (Function.update commands 0 none) hword
    (Function.update_self ..)
  have hending := ending_parse false ts 0 hword
  cases hp : parse false ts with
  | mk verdict parts =>
      rw [hp] at hrun hending
      rw [hending]
      cases verdict with
      | accepted =>
          obtain ⟨t, hok, -, hc⟩ := hrun
          have haccepts := parse_accepts hword hp
          obtain ⟨hfiles, chosen, hlisting, hkept⟩ := haccepts.listing
          refine ⟨true, t, hok, Iff.rfl.trans (by simp), fun _ => ⟨settle parts, chosen,
            hc.lists (settle_length parts), ?_, hkept, ?_, ?_⟩⟩
          · rw [settle_flatMap Cmd.listing fun _ => rfl, hlisting]
          · rw [settle_flatMap Cmd.files fun _ => rfl, hfiles]
          · intro c hc
            have hmem := List.mem_map_of_mem (f := Cmd.Worded) hc
            rw [settle_map Cmd.Worded fun _ => rfl] at hmem
            obtain ⟨p, hp, heq⟩ := List.mem_map.mp hmem
            rw [← heq]
            exact haccepts.worded p hp
      | dropped =>
          obtain ⟨t, hok, -⟩ := hrun
          exact ⟨false, t, hok, by simp, fun h => by cases h⟩
      | dangling =>
          obtain ⟨t, c, hok, -⟩ := hrun
          exact ⟨false, t, hok, by simp, fun h => by cases h⟩

/-! ## The names of files -/

/-- The commands hold the tokens of the vector, the names of files as they are read later. -/
def KeepsWords (mem : Arena nul) (ts : List CStr) (t : Parser) : Prop :=
  ∃ (cmds : List Cmd) (chosen : List CStr), Lists t cmds ∧
    (cmds.map (Cmd.later mem)).flatMap Cmd.listing = chosen.map some ∧ chosen.Sublist ts ∧
    chosen.filter isWord = ts.filter isWord ∧ ∀ c ∈ cmds, c.Worded

theorem later_files (mem : Arena nul) (c : Cmd) :
    (c.later mem).files = c.files.map (Option.map (laterName mem)) := by
  rw [Cmd.files, Cmd.files, Cmd.later]
  cases c.redirect <;> cases c.redirectIn <;> rfl

theorem later_listing (mem : Arena nul) (c : Cmd) :
    (c.later mem).listing = c.argv.take c.argc ++ c.files.map (Option.map (laterName mem)) := by
  rw [Cmd.listing, later_files]
  rfl

private theorem later_listing_of_fits {mem : Arena nul} {c : Cmd}
    (h : ∀ file, some file ∈ c.files → mem.Fits (file.length - 1) file) :
    (c.later mem).listing = c.listing := by
  rw [later_listing, Cmd.listing, List.append_cancel_left_eq]
  have hsame : c.files.map (Option.map (laterName mem)) = c.files.map id := by
    apply List.map_congr_left
    intro name hname
    cases name with
    | none => rfl
    | some file => exact congrArg some (Arena.kept_of_fits (h file hname))
  rw [hsame, List.map_id]

private theorem KeepsWords.laterName_mem {mem : Arena nul} {ts : List CStr} {t : Parser}
    {cmds : List Cmd} (h : KeepsWords mem ts t) (hlists : Lists t cmds)
    (hfiles : cmds.flatMap Cmd.files = (Scan.gap.operands ts).map some) {file : CStr}
    (hfile : file ∈ Scan.gap.operands ts) : laterName mem file ∈ ts := by
  obtain ⟨cmds', chosen, hlists', hlisting, hsub, -, -⟩ := h
  cases hlists.unique hlists'
  have hmem : some file ∈ cmds.flatMap Cmd.files := by
    rw [hfiles]
    exact List.mem_map_of_mem hfile
  obtain ⟨c, hc, hname⟩ := List.mem_flatMap.mp hmem
  have hlater : some (laterName mem file) ∈ chosen.map some := by
    rw [← hlisting]
    refine List.mem_flatMap.mpr ⟨_, List.mem_map_of_mem hc, ?_⟩
    rw [later_listing]
    exact List.mem_append_right _ (List.mem_map_of_mem (f := Option.map _) hname)
  obtain ⟨name, hchosen, hsame⟩ := List.mem_map.mp hlater
  rw [Option.some.injEq] at hsame
  exact hsame ▸ hsub.subset hchosen

/-- The words of a vector are kept, whatever stands behind the blocks, if and only if the vector is
rejected or the block of every operand has room for its terminator. -/
theorem parser_keeps_words_iff (a : Allocator) (ts : List CStr) (heap : Heap Cmd)
    (commands : Nat → Ptr) (hword : ∀ t, ts.head? = some t → isWord t = true) :
    (∀ mem : Arena nul, mem.toAllocator = a → ∃ b t,
        makeCmdv (ts.map some ++ [none]) heap (Function.update commands 0 none) = .ok (b, t) ∧
          (b = true → KeepsWords mem ts t)) ↔
      ((Scan.gap.ending 0 ts).1 ≠ .accepted ∨
        ∀ file ∈ Scan.gap.operands ts, a.Fits (file.length - 1) file) := by
  obtain ⟨b, t, hok, hverdict, haccepted⟩ := makeCmdv_words ts heap commands hword
  constructor
  · intro h
    rw [or_iff_not_imp_left, not_not, ← hverdict]
    intro hb file hfile
    obtain ⟨cmds, -, hlists, -, -, hfiles, -⟩ := haccepted hb
    have hone : nul ≠ '1' := by decide
    obtain ⟨b', t', hok', hkeeps⟩ := h (a.filled hone (ts.flatten.length + 1)) rfl
    cases hok.symm.trans hok'
    have hmem := (hkeeps hb).laterName_mem hlists hfiles hfile
    have hlength := (List.sublist_flatten_of_mem hmem).length_le
    by_contra hfits
    have hlost : ¬ (a.filled hone (ts.flatten.length + 1)).Fits (file.length - 1) file := hfits
    rw [laterName, Arena.length_kept hlost] at hlength
    have hlong : ((a.filled hone (ts.flatten.length + 1)).behind (file.length - 1)).length =
        ts.flatten.length + 1 := List.length_replicate
    omega
  · rintro h mem rfl
    refine ⟨b, t, hok, fun hb => ?_⟩
    obtain ⟨cmds, chosen, hlists, hlisting, hkept, hfiles, hworded⟩ := haccepted hb
    have hfits := h.resolve_left (not_not_intro (hverdict.mp hb))
    refine ⟨cmds, chosen, hlists, ?_, hkept.sublist, hkept.words, hworded⟩
    rw [← hlisting, List.flatMap_map]
    apply List.flatMap_congr
    intro c hc
    apply later_listing_of_fits
    intro file hfile
    have hmem : some file ∈ cmds.flatMap Cmd.files := List.mem_flatMap.mpr ⟨c, hc, hfile⟩
    rw [hfiles] at hmem
    obtain ⟨operand, hoperand, hsame⟩ := List.mem_map.mp hmem
    exact Option.some.inj hsame ▸ hfits operand hoperand

/-- An operator as the name of a file, and a name of 24 bytes in front of another one. -/
theorem parser_keeps_words_iff_operator_file :
    (∀ mem : Arena nul, mem.toAllocator = Allocator.aligned → ∃ b t,
        makeCmdv ([['a'], ['>'], ['&'], ['b']].map some ++ [none]) (Heap.empty fun _ => true)
          (Function.update (fun _ => none) 0 none) = .ok (b, t) ∧
        (b = true → KeepsWords mem [['a'], ['>'], ['&'], ['b']] t)) ∧
      ¬ ∀ mem : Arena nul, mem.toAllocator = Allocator.aligned → ∃ b t,
        makeCmdv ([['a'], ['>'], longWord, ['<'], ['b']].map some ++ [none])
          (Heap.empty fun _ => true) (Function.update (fun _ => none) 0 none) = .ok (b, t) ∧
        (b = true → KeepsWords mem [['a'], ['>'], longWord, ['<'], ['b']] t) := by
  have hstart : ∀ (ts : List CStr) (t : CStr), (['a'] :: ts).head? = some t → isWord t = true := by
    intro ts t ht
    cases ht
    rfl
  constructor
  · exact (parser_keeps_words_iff Allocator.aligned [['a'], ['>'], ['&'], ['b']] _ _
      (hstart _)).mpr (.inr (by decide))
  · rw [parser_keeps_words_iff Allocator.aligned [['a'], ['>'], longWord, ['<'], ['b']] _ _
      (hstart _)]
    decide

/-- The tokens of `a > f < b`, with a name of 24 bytes for `f`. -/
theorem parser_keeps_words_fails :
    ¬ ∀ (mem : Arena nul) (ts : List CStr) (heap : Heap Cmd) (commands : Nat → Ptr),
      (∀ t, ts.head? = some t → isWord t = true) → ∃ b t,
        makeCmdv (ts.map some ++ [none]) heap (Function.update commands 0 none) = .ok (b, t) ∧
          (b = true → KeepsWords mem ts t) := by
  intro h
  have hstart : ∀ t, [['a'], ['>'], longWord, ['<'], ['b']].head? = some t → isWord t = true := by
    intro t ht
    cases ht
    rfl
  obtain ⟨b, t, hok, hkeeps⟩ := h lengthBehind [['a'], ['>'], longWord, ['<'], ['b']]
    (Heap.empty fun _ => true) (fun _ => none) hstart
  obtain ⟨b', t', hok', hverdict, haccepted⟩ := makeCmdv_words
    [['a'], ['>'], longWord, ['<'], ['b']] (Heap.empty fun _ => true) (fun _ => none) hstart
  cases hok.symm.trans hok'
  have hb : b = true := hverdict.mpr rfl
  obtain ⟨cmds, -, hlists, -, -, hfiles, -⟩ := haccepted hb
  have hoperand : longWord ∈ Scan.gap.operands [['a'], ['>'], longWord, ['<'], ['b']] := by decide
  have hmem := (hkeeps hb).laterName_mem hlists hfiles hoperand
  exact absurd hmem (by decide)

end SyssoftLabs.Lab4
