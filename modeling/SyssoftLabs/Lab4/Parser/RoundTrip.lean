import SyssoftLabs.Lab4.Parser.Words

/-!
# Words and file names that fill their blocks

A printed line is parsed back into its commands unless a word, or the name of a file, leaves no room
for its terminator.
-/

namespace SyssoftLabs.Lab4

open SyssoftLabs.Framework

/-- The files of a pipeline. -/
def Redirections.files (r : Redirections) : List Word :=
  (r.output.map Prod.snd).toList ++ r.input.toList

def lineFiles (ps : List Pipeline) : List Word := ps.flatMap fun p => p.redirections.files

/-- Cutting and parsing the printed line gives its commands, as they are read later. -/
def Reparsed (mem : Arena nul) (σ : Scope) (fuel : Nat) (ps : List Pipeline) (bare : Bool)
    (gaps : Nat → Blank × List Blank) (tail : List Char) (heap : Heap Cmd)
    (commands : Nat → Ptr) : Prop :=
  ∃ args t cmds,
    getSplitted mem σ fuel (layout gaps (lineTokens bare ps) ++ nul :: tail) = .ok args ∧
      makeCmdv args heap (Function.update commands 0 none) = .ok (true, t) ∧ Lists t cmds ∧
      cmds.map (Cmd.later mem) = lineCmds ps

/-! ## The files of the commands -/

private theorem stageCmd_files (first last : Bool) (s : Simple) (r : Redirections)
    (background : Bool) :
    (stageCmd first last s r background).files = r.files.map fun f => some f.chars := by
  obtain ⟨output, input⟩ := r
  cases output <;> cases input <;> rfl

private theorem stageCmds_files (first : Bool) (p : Pipeline) (stages : List Simple) :
    (stageCmds first p stages).flatMap Cmd.files =
      p.redirections.files.map fun f => some f.chars := by
  induction stages generalizing first with
  | nil =>
      rw [stageCmds, List.flatMap_singleton, stageCmd_files]
  | cons s stages ih =>
      rw [stageCmds, List.flatMap_cons, stageCmd_files, ih]
      rfl

private theorem lineCmds_files (ps : List Pipeline) :
    (lineCmds ps).flatMap Cmd.files = (lineFiles ps).map fun f => some f.chars := by
  rw [lineCmds, List.flatMap_assoc, lineFiles, List.map_flatMap]
  exact List.flatMap_congr fun p _ => stageCmds_files true p p.init

private theorem lineCmds_names {ps : List Pipeline} {c : Cmd} (hc : c ∈ lineCmds ps) {file : CStr}
    (h : c.rfilename = some file ∨ c.rifilename = some file) : some file ∈ c.files := by
  obtain ⟨p, -, hp⟩ := List.mem_flatMap.mp hc
  have hstage : ∃ first last s r background, c = stageCmd first last s r background := by
    have hall : ∀ (first : Bool) (stages : List Simple), c ∈ stageCmds first p stages →
        ∃ first last s r background, c = stageCmd first last s r background := by
      intro first stages
      induction stages generalizing first with
      | nil =>
          intro hmem
          exact ⟨_, _, _, _, _, List.mem_singleton.mp hmem⟩
      | cons s stages ih =>
          intro hmem
          rcases List.mem_cons.mp hmem with rfl | hmem
          · exact ⟨_, _, _, _, _, rfl⟩
          · exact ih _ hmem
    exact hall true p.init hp
  obtain ⟨first, last, s, ⟨output, input⟩, background, rfl⟩ := hstage
  cases output <;> cases input <;> rcases h with h | h <;> cases h <;>
    simp [Cmd.files, stageCmd]

private theorem later_of_fits {mem : Arena nul} {c : Cmd}
    (h : ∀ file, c.rfilename = some file ∨ c.rifilename = some file →
      mem.Fits (file.length - 1) file) : c.later mem = c := by
  have hkept : ∀ name : Option CStr, (∀ file, name = some file → mem.Fits (file.length - 1) file) →
      name.map (laterName mem) = name := by
    intro name hname
    cases name with
    | none => rfl
    | some file => exact congrArg some (Arena.kept_of_fits (hname file rfl))
  rw [Cmd.later, hkept c.rfilename fun file hf => h file (.inl hf),
    hkept c.rifilename fun file hf => h file (.inr hf)]

theorem lineCmds_later {mem : Arena nul} {ps : List Pipeline}
    (hfiles : ∀ file ∈ lineFiles ps, mem.Fits (file.chars.length - 1) file.chars) {c : Cmd}
    (hc : c ∈ lineCmds ps) : c.later mem = c := by
  apply later_of_fits
  intro file hname
  have hmem : some file ∈ (lineCmds ps).flatMap Cmd.files :=
    List.mem_flatMap.mpr ⟨c, hc, lineCmds_names hc hname⟩
  rw [lineCmds_files] at hmem
  obtain ⟨f, hf, hchars⟩ := List.mem_map.mp hmem
  exact Option.some.inj hchars ▸ hfiles f hf

private theorem startsSeparator_copied (mem : Arena nul) {token : CStr} (hne : token ≠ []) :
    startsSeparator (copied mem token) = startsSeparator token := by
  obtain ⟨c, w, rfl⟩ := List.exists_cons_of_ne_nil hne
  obtain ⟨tail, htail⟩ := prefix_copied mem (c :: w)
  rw [← htail]
  rfl

section

variable {a : Allocator} {c : Char} {hc : nul ≠ c} {n : Nat}

private theorem fits_of_length_copied {token : CStr}
    (h : (copied (a.filled hc n) token).length < n) :
    a.Fits token.length token := by
  have hlong : ∀ m, ((a.filled hc n).behind m).length = n := fun _ => List.length_replicate
  have houter : (a.filled hc n).Fits (token.length + 1)
      ((a.filled hc n).kept token.length token) := by
    by_contra hfits
    have hlength := Arena.length_kept hfits
    rw [hlong, ← copied] at hlength
    omega
  by_contra hfits
  have hlost : ¬ (a.filled hc n).Fits token.length token := hfits
  have hlength := Arena.length_kept hlost
  rw [copied, Arena.kept_of_fits houter] at h
  rw [hlong] at hlength
  omega

private theorem laterName_of_length {file : CStr}
    (h : (laterName (a.filled hc n) file).length < n) :
    laterName (a.filled hc n) file = file := by
  apply Arena.kept_of_fits
  by_contra hfits
  have hlength := Arena.length_kept hfits
  have hlong : ((a.filled hc n).behind (file.length - 1)).length = n := List.length_replicate
  rw [laterName] at h
  omega

end

/-! ## The words of the line -/

section

variable {σ : Scope} {fuel : Nat} {ps : List Pipeline} {bare : Bool}
  {gaps : Nat → Blank × List Blank} {tail : List Char} {heap : Heap Cmd} {commands : Nat → Ptr}

private theorem lineTokens_head (bare : Bool) (ps : List Pipeline) :
    ∀ t, (lineTokens bare ps).head? = some t → isWord t = true := by
  intro t ht
  cases ps with
  | nil => cases ht
  | cons p ps =>
      obtain ⟨u, us, h, hu⟩ := lineTokens_cons bare p ps
      rw [h] at ht
      cases ht
      exact hu

private theorem copied_head (mem : Arena nul) (bare : Bool) (ps : List Pipeline) :
    ∀ t, ((lineTokens bare ps).map (copied mem)).head? = some t → isWord t = true := by
  intro t ht
  rw [List.head?_map, Option.map_eq_some_iff] at ht
  obtain ⟨u, hu, rfl⟩ := ht
  have hne := (lineTokens_isToken bare ps u (List.mem_of_head? hu)).ne_nil
  rw [isWord, startsSeparator_copied mem hne]
  exact lineTokens_head bare ps u hu

private theorem lineCmds_listing (bare : Bool) (ps : List Pipeline) {t : CStr}
    (ht : some t ∈ (lineCmds ps).flatMap Cmd.listing) : t ∈ lineTokens bare ps := by
  obtain ⟨u, hok, hlists⟩ := makeCmdv_lineTokens bare ps (Heap.empty fun _ => true) fun _ => none
  obtain ⟨b, u', hok', -, haccepted⟩ := makeCmdv_words (lineTokens bare ps)
    (Heap.empty fun _ => true) (fun _ => none) (lineTokens_head bare ps)
  cases hok.symm.trans hok'
  obtain ⟨cmds, chosen, hlists', hlisting, hkept, -, -⟩ := haccepted rfl
  rw [hlists.unique hlists', hlisting] at ht
  obtain ⟨v, hv, hsame⟩ := List.mem_map.mp ht
  exact Option.some.inj hsame ▸ hkept.sublist.subset hv

private theorem fits_of_reparsed {a : Allocator} {c : Char} {hc : nul ≠ c}
    (hroom : (lineTokens bare ps).length < argsSize)
    (hfuel : (layout gaps (lineTokens bare ps)).length < fuel)
    (h : Reparsed (a.filled hc ((lineTokens bare ps).flatten.length + 1)) σ fuel ps bare gaps tail
      heap commands) :
    ∀ t ∈ lineTokens bare ps, a.Fits t.length t := by
  obtain ⟨args, t, cmds, hsplit, hok, hlists, hlater⟩ := h
  have hlayout := getSplitted_layout (a.filled hc ((lineTokens bare ps).flatten.length + 1)) σ gaps
    tail (lineTokens_isToken bare ps) (Nat.le_of_lt hroom) hfuel
  cases hsplit.symm.trans hlayout
  obtain ⟨b, t', hok', -, haccepted⟩ := makeCmdv_words _ heap commands
    (copied_head (a.filled hc ((lineTokens bare ps).flatten.length + 1)) bare ps)
  cases hok.symm.trans hok'
  obtain ⟨cmds', chosen, hlists', hlisting, hkept, -, -⟩ := haccepted rfl
  cases hlists.unique hlists'
  intro w hw
  have htoken := lineTokens_isToken bare ps w hw
  cases hword : isWord w with
  | false =>
      cases htoken with
      | word hne hplain => exact absurd (Word.isWord ⟨w, hne, hplain⟩) (by simp [hword])
      | separator _ => exact a.fits_singleton _ _
  | true =>
      have hcopied : isWord (copied (a.filled hc ((lineTokens bare ps).flatten.length + 1)) w) =
          true := by
        rw [isWord, startsSeparator_copied _ htoken.ne_nil]
        exact hword
      have hchosen : copied (a.filled hc ((lineTokens bare ps).flatten.length + 1)) w ∈ chosen := by
        have hmem := List.mem_filter.mpr ⟨List.mem_map_of_mem hw, hcopied⟩
        rw [← hkept.words] at hmem
        exact List.mem_of_mem_filter hmem
      have hlisted := List.mem_map_of_mem (f := some) hchosen
      rw [← hlisting] at hlisted
      obtain ⟨d, hd, hmem⟩ := List.mem_flatMap.mp hlisted
      have hshort : ∀ u : CStr,
          some u ∈ (d.later (a.filled hc ((lineTokens bare ps).flatten.length + 1))).listing →
          u.length < (lineTokens bare ps).flatten.length + 1 := by
        intro u hu
        have hline : some u ∈ (lineCmds ps).flatMap Cmd.listing := by
          rw [← hlater]
          exact List.mem_flatMap.mpr ⟨_, List.mem_map_of_mem hd, hu⟩
        have hle := (List.sublist_flatten_of_mem (lineCmds_listing bare ps hline)).length_le
        exact Nat.lt_succ_of_le hle
      suffices hcopy : (copied (a.filled hc ((lineTokens bare ps).flatten.length + 1)) w).length <
          (lineTokens bare ps).flatten.length + 1 from fits_of_length_copied hcopy
      rw [Cmd.listing, List.mem_append] at hmem
      rw [later_listing] at hshort
      rcases hmem with hmem | hmem
      · exact hshort _ (List.mem_append_left _ hmem)
      · have hname := hshort _ (List.mem_append_right _
          (List.mem_map_of_mem (f := Option.map (laterName _)) hmem))
        rw [← laterName_of_length hname]
        exact hname

private theorem reparsed_iff {mem : Arena nul} (hroom : (lineTokens bare ps).length < argsSize)
    (hfuel : (layout gaps (lineTokens bare ps)).length < fuel)
    (hfits : ∀ t ∈ lineTokens bare ps, mem.Fits t.length t) :
    Reparsed mem σ fuel ps bare gaps tail heap commands ↔
      (lineCmds ps).map (Cmd.later mem) = lineCmds ps := by
  have hsplit := getSplitted_layout mem σ gaps tail (lineTokens_isToken bare ps)
    (Nat.le_of_lt hroom) hfuel
  rw [map_copied_of_fits hfits] at hsplit
  obtain ⟨t, hok, hlists⟩ := makeCmdv_lineTokens bare ps heap commands
  constructor
  · rintro ⟨args, t', cmds, hsplit', hok', hlists', hlater⟩
    cases hsplit.symm.trans hsplit'
    cases hok.symm.trans hok'
    cases hlists.unique hlists'
    exact hlater
  · intro h
    exact ⟨_, t, _, hsplit, hok, hlists, h⟩

private theorem fits_of_later {mem : Arena nul} (hbehind : ∀ n, 1 < (mem.behind n).length)
    (h : (lineCmds ps).map (Cmd.later mem) = lineCmds ps) :
    ∀ file ∈ lineFiles ps, mem.Fits (file.chars.length - 1) file.chars := by
  have hsame : ∀ c ∈ lineCmds ps, c.later mem = c := by
    apply List.map_eq_map_iff.mp
    rw [h, List.map_id']
  intro file hfile
  have hmem : some file.chars ∈ (lineCmds ps).flatMap Cmd.files := by
    rw [lineCmds_files]
    exact List.mem_map_of_mem (f := fun f : Word => some f.chars) hfile
  obtain ⟨c, hc, hname⟩ := List.mem_flatMap.mp hmem
  have hlater := later_files mem c
  rw [hsame c hc] at hlater
  have hfixed : ∀ name ∈ c.files, name.map (laterName mem) = name := by
    apply List.map_eq_map_iff.mp
    rw [← hlater, List.map_id']
  have hkept := Option.some.inj (hfixed _ hname)
  have hone := hbehind (file.chars.length - 1)
  have hpos := List.length_pos_iff.mpr file.nonempty
  exact (Arena.kept_eq_self_iff (by omega)).mp hkept

end

/-- The printed line is parsed back into its commands, whatever blanks surround its tokens, whatever
lies behind the line in its buffer, whatever the array of commands held before and whatever stands
behind the blocks, if and only if the block of every word and of every file name has room for its
terminator. -/
theorem parse_print_iff (a : Allocator) (σ : Scope) (ps : List Pipeline) (bare : Bool)
    (gaps : Nat → Blank × List Blank) (tail : List Char) (heap : Heap Cmd) (commands : Nat → Ptr)
    (fuel : Nat) (hroom : (lineTokens bare ps).length < argsSize)
    (hfuel : (layout gaps (lineTokens bare ps)).length < fuel) :
    (∀ mem : Arena nul, mem.toAllocator = a →
        Reparsed mem σ fuel ps bare gaps tail heap commands) ↔
      (∀ t ∈ lineTokens bare ps, a.Fits t.length t) ∧
        ∀ file ∈ lineFiles ps, a.Fits (file.chars.length - 1) file.chars := by
  have hone : nul ≠ '1' := by decide
  constructor
  · intro h
    have hfits := fits_of_reparsed hroom hfuel
      (h (a.filled hone ((lineTokens bare ps).flatten.length + 1)) rfl)
    have hiff : Reparsed (a.filled hone 2) σ fuel ps bare gaps tail heap commands ↔ _ :=
      reparsed_iff hroom hfuel hfits
    have hlater := hiff.mp (h _ rfl)
    have hbehind : ∀ n, 1 < ((a.filled hone 2).behind n).length := fun _ => Nat.one_lt_two
    exact ⟨hfits, fits_of_later hbehind hlater⟩
  · rintro ⟨hfits, hfiles⟩ mem rfl
    rw [reparsed_iff hroom hfuel hfits]
    have hsame : (lineCmds ps).map (Cmd.later mem) = (lineCmds ps).map id :=
      List.map_congr_left fun c hc => lineCmds_later hfiles hc
    rw [hsame, List.map_id]

/-- A line of one word. -/
def wordLine (w : Word) : List Pipeline :=
  [⟨[], ⟨[w], List.cons_ne_nil _ _⟩, .none, false, fun h => absurd h Bool.false_ne_true⟩]

def longLine : List Pipeline := wordLine ⟨longWord, List.cons_ne_nil _ _, longWord_plain⟩

/-- Two short pipelines, and a word of 24 bytes. -/
theorem parse_print_iff_sample :
    (∀ mem : Arena nul, mem.toAllocator = Allocator.aligned →
        Reparsed mem ⟨[], fun _ => none⟩ 14 sampleLine true (fun _ => (⟨' ', rfl⟩, [])) []
          (Heap.empty fun _ => true) fun _ => some 7) ∧
      ¬ ∀ mem : Arena nul, mem.toAllocator = Allocator.aligned →
        Reparsed mem ⟨[], fun _ => none⟩ 25 longLine true (fun _ => (⟨' ', rfl⟩, [])) []
          (Heap.empty fun _ => true) fun _ => none := by
  constructor
  · exact (parse_print_iff Allocator.aligned _ _ _ _ _ _ _ _ (by decide) (by decide)).mpr
      ⟨by decide, by decide⟩
  · rw [parse_print_iff Allocator.aligned _ _ _ _ _ _ _ _ (by decide) (by decide)]
    decide

/-- A line of one word of 24 bytes. -/
theorem parse_print_fails :
    ¬ ∀ (mem : Arena nul) (σ : Scope) (fuel : Nat) (ps : List Pipeline) (bare : Bool)
        (gaps : Nat → Blank × List Blank) (tail : List Char) (heap : Heap Cmd)
        (commands : Nat → Ptr), (lineTokens bare ps).length < argsSize →
        (layout gaps (lineTokens bare ps)).length < fuel →
        Reparsed mem σ fuel ps bare gaps tail heap commands := by
  intro h
  obtain ⟨args, t, cmds, hsplit, hok, hlists, hlater⟩ := h lengthBehind ⟨[], fun _ => none⟩ 25
    longLine true (fun _ => (⟨' ', rfl⟩, [])) [] (Heap.empty fun _ => true) (fun _ => none)
    (by decide) (by decide)
  let w : Word := ⟨longWord ++ ['1'], List.cons_ne_nil _ _, List.all_eq_true.mp (by decide)⟩
  have hlonger : getSplitted lengthBehind ⟨[], fun _ => none⟩ 25
      (layout (fun _ => (⟨' ', rfl⟩, [])) (lineTokens true longLine) ++ nul :: []) =
        .ok ((lineTokens true (wordLine w)).map some ++ [none]) := by decide +kernel
  cases hsplit.symm.trans hlonger
  obtain ⟨t', hok', hlists'⟩ := makeCmdv_lineTokens true (wordLine w) (Heap.empty fun _ => true)
    fun _ => none
  cases hok.symm.trans hok'
  rw [hlists.unique hlists'] at hlater
  exact absurd hlater (by decide)

end SyssoftLabs.Lab4
