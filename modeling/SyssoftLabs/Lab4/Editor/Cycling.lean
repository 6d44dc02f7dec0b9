import SyssoftLabs.Lab4.Editor.Completion

/-!
# Cycling through a directory

The count of the tabs that came before chooses an entry of the directory, and is reduced by the
number of entries only above that number. In a prefix without a space the path is taken to start
behind the first byte.
-/

namespace SyssoftLabs.Lab4

open SyssoftLabs.Framework

/-! ## Directories -/

/-- What the directory lists, in the order of `readdir`. -/
structure Directory where
  names : List FileName
  dot : names.countP (·.val = ['.']) = 1
  dotdot : names.countP (·.val = ['.', '.']) = 1

/-- The entries apart from `.` and `..`. -/
def others (names : List FileName) : List FileName :=
  names.filter fun name => name.val ≠ ['.'] ∧ name.val ≠ ['.', '.']

private theorem others_cons_of_dots {name : FileName} (h : name.val = ['.'] ∨ name.val = ['.', '.'])
    (names : List FileName) : others (name :: names) = others names := by
  apply List.filter_cons_of_neg
  rcases h with h | h <;> simp [h]

private theorem others_cons_of_not {name : FileName}
    (h : ¬ (name.val = ['.'] ∨ name.val = ['.', '.']))
    (names : List FileName) : others (name :: names) = name :: others names := by
  apply List.filter_cons_of_pos
  simpa using h

private theorem length_others (names : List FileName) :
    names.length = (others names).length + names.countP (·.val = ['.']) +
      names.countP (·.val = ['.', '.']) := by
  induction names with
  | nil => rfl
  | cons name names ih =>
      rw [List.length_cons, List.countP_cons, List.countP_cons, ih]
      by_cases hdot : name.val = ['.']
      · simp [others_cons_of_dots (.inl hdot), hdot]
        omega
      by_cases hdotdot : name.val = ['.', '.']
      · simp [others_cons_of_dots (.inr hdotdot), hdotdot]
        omega
      · simp [others_cons_of_not (not_or.mpr ⟨hdot, hdotdot⟩), hdot, hdotdot]
        omega

private theorem Directory.length_names (directory : Directory) :
    directory.names.length = (others directory.names).length + 2 := by
  rw [length_others, directory.dot, directory.dotdot]

/-! ## The search for an entry -/

/-- `n + 1` on a `size_t`. -/
def sizeSucc (n : Nat) : Nat := if n = sizeMax then 0 else n + 1

/-- The second loop over the directory: `dp` was read last, and `names` are still to be read. At
`.` and `..` the counter goes back, from zero to the largest number. -/
def searchFrom (skipCount : Nat) (dp : Option FileName) (i : Nat) :
    List FileName → Option FileName
  | [] => if i ≤ skipCount then none else dp
  | name :: names =>
      if i ≤ skipCount then
        let i := if name.val = ['.'] ∨ name.val = ['.', '.'] then sizePred i else i
        searchFrom skipCount (some name) (sizeSucc i) names
      else dp

private theorem sizeSucc_of_lt {n : Nat} (hn : n < sizeMax) : sizeSucc n = n + 1 :=
  if_neg (Nat.ne_of_lt hn)

private theorem sizeSucc_sizePred {n : Nat} (hn : n ≤ sizeMax) : sizeSucc (sizePred n) = n := by
  unfold sizeSucc sizePred
  split
  · next h => rw [if_pos rfl, h]
  · rw [if_neg (by omega)]
    omega

private theorem searchFrom_eq {skipCount : Nat} (hskip : skipCount < sizeMax)
    (names : List FileName) (dp : Option FileName) (i : Nat) :
    searchFrom skipCount dp i names =
      if i ≤ skipCount then (others names)[skipCount - i]? else dp := by
  induction names generalizing dp i with
  | nil => rfl
  | cons name names ih =>
      rw [searchFrom]
      split
      · next hi =>
          dsimp only
          rw [ih]
          by_cases hdots : name.val = ['.'] ∨ name.val = ['.', '.']
          · rw [if_pos hdots, sizeSucc_sizePred (by omega), if_pos hi, others_cons_of_dots hdots]
          · rw [if_neg hdots, sizeSucc_of_lt (by omega), others_cons_of_not hdots]
            split
            · have hsub : skipCount - i = skipCount - (i + 1) + 1 := by omega
              rw [hsub, List.getElem?_cons_succ]
            · have hsub : skipCount - i = 0 := by omega
              rw [hsub]
              rfl
      · rfl

/-- The loop stops at the entry. -/
theorem readEntry_eq_search {skipCount : Nat} (hskip : skipCount < sizeMax)
    (names : List FileName) : readEntry names skipCount = searchFrom skipCount none 0 names := by
  rw [searchFrom_eq hskip, if_pos (Nat.zero_le _)]
  rfl

/-! ## What is completed -/

/-- Both loops find what `opendir` gives. -/
def Listing.fixed (opendir : CStr → Option Directory) : Listing where
  counted path := (opendir path).map Directory.names
  searched path := (opendir path).map Directory.names

/-- The entry at the count, where the entries come again and again. -/
def Directory.entry (directory : Directory) (skipCount : Nat) : Option FileName :=
  (others directory.names)[skipCount % (others directory.names).length]?

/-- The entry that the loops come to: a count that is the number of the entries is not reduced. -/
def Directory.taken (directory : Directory) (skipCount : Nat) : Option FileName :=
  if skipCount = (others directory.names).length then none else directory.entry skipCount

/-- The entry of the directory that is found behind the first one, to whose number of entries the
count is reduced. -/
def Directory.takenFrom (first second : Directory) (skipCount : Nat) : Option FileName :=
  let n := (others first.names).length
  if n = 0 then none
  else (others second.names)[if n < skipCount then skipCount % n else skipCount]?

/-- Where the last word of a prefix starts. -/
def wordStart (pre : CStr) : Nat := (lastIndex ' ' pre).elim 0 (· + 1)

def lastWord (pre : CStr) : CStr := pre.drop (wordStart pre)

/-- The completion that goes through the entries in turn. -/
def cycled (opendir : CStr → Option Directory) (pre : CStr) (skipCount : Nat) : CStr :=
  match basedir (lastWord pre) with
  | none => pre
  | some d =>
      match (opendir d).bind (·.entry skipCount) with
      | none => pre
      | some name => pre.take (wordStart pre) ++ (d ++ name.val)

/-- A name in the place of the text behind the slash, which stays if there is none. -/
def inPlace (name : Option FileName) (text : CStr) : CStr := name.elim text (·.val)

/-- After a space the count is not the number of the entries, or the first of them is there already.
Without a space the path has no slash, or the directory behind its first byte has the same entry to
put there. -/
def Cycling (opendir : CStr → Option Directory) (pre : CStr) (skipCount : Nat) : Prop :=
  match basedir (lastWord pre) with
  | none => True
  | some d =>
      let text := (lastWord pre).drop d.length
      match lastIndex ' ' pre with
      | some _ => ∀ directory, opendir d = some directory →
          skipCount = (others directory.names).length →
            inPlace (others directory.names).head? text = text
      | none =>
          inPlace ((basedir pre.tail).bind fun d => (opendir d).bind (·.taken skipCount)) text =
            inPlace ((opendir d).bind (·.entry skipCount)) text

/-- The path that is completed: without a space it starts behind the first byte. -/
def completedPath (pre : CStr) : CStr := pre.drop ((lastIndex ' ' pre).getD 0 + 1)

/-- What comes to stand behind the slash of `d` when `junk` has got behind the slash by the time the
directory is opened again. -/
def behindSlash (opendir : CStr → Option Directory) (d junk : CStr) (skipCount : Nat)
    (text : CStr) : CStr :=
  match (opendir d).bind fun first => (opendir (d ++ junk)).bind (first.takenFrom · skipCount) with
  | none => text
  | some name => junk ++ name.val

/-- The block of the directory part has room for its terminator, or what stands behind the block
makes no difference, so that nothing is completed there. -/
def Reopened (a : Allocator) (opendir : CStr → Option Directory) (pre : CStr) (skipCount : Nat) :
    Prop :=
  match basedir (completedPath pre) with
  | none => True
  | some d => a.Fits d.length d ∨ ∀ junk, nul ∉ junk →
      behindSlash opendir d junk skipCount ((completedPath pre).drop d.length) =
        behindSlash opendir d [] skipCount ((completedPath pre).drop d.length)

section

variable {opendir : CStr → Option Directory} {pre path d : CStr} {c : Char}

private theorem basedir_cons (c : Char) (path : CStr) :
    basedir (c :: path) =
      match basedir path with
      | some d => some (c :: d)
      | none => if c = '/' then some [c] else none := by
  unfold basedir
  rw [lastIndex]
  cases lastIndex '/' path with
  | some i => rfl
  | none =>
      dsimp only [Option.map_none]
      split <;> rfl

private theorem append_drop_basedir (h : basedir path = some d) :
    d ++ path.drop d.length = path := by
  obtain ⟨text, rfl⟩ := basedir_isPrefix h
  rw [List.drop_left]

private theorem sizePred_length_names (directory : Directory) :
    sizePred (sizePred directory.names.length) = (others directory.names).length := by
  rw [directory.length_names]
  rfl

private theorem readEntry_names (directory : Directory) (skipCount : Nat) :
    readEntry directory.names (if (others directory.names).length < skipCount then
      skipCount % (others directory.names).length else skipCount) = directory.taken skipCount := by
  change (others directory.names)[_]? = _
  rw [Directory.taken]
  rcases Nat.lt_trichotomy skipCount (others directory.names).length with hlt | heq | hgt
  · rw [if_neg (by omega), if_neg (by omega), Directory.entry, Nat.mod_eq_of_lt hlt]
  · rw [if_neg (by omega), if_pos heq, heq]
    exact List.getElem?_eq_none (Nat.le_refl _)
  · rw [if_pos hgt, if_neg (by omega)]
    rfl

private theorem taken_empty {directory : Directory} (hnone : (others directory.names).length = 0)
    (skipCount : Nat) : directory.taken skipCount = none := by
  rw [Directory.taken]
  split
  · rfl
  · rw [Directory.entry, List.length_eq_zero_iff.mp hnone]
    rfl

private theorem takenFrom_self (directory : Directory) (skipCount : Nat) :
    directory.takenFrom directory skipCount = directory.taken skipCount := by
  rw [Directory.takenFrom]
  split
  · next hnone => exact (taken_empty hnone skipCount).symm
  · exact readEntry_names directory skipCount

private theorem behindSlash_nil (opendir : CStr → Option Directory) (d : CStr) (skipCount : Nat)
    (text : CStr) :
    behindSlash opendir d [] skipCount text =
      inPlace ((opendir d).bind (·.taken skipCount)) text := by
  rw [behindSlash, List.append_nil]
  cases opendir d with
  | none => rfl
  | some directory =>
      simp only [Option.bind_some, takenFrom_self]
      cases directory.taken skipCount <;> rfl

private theorem exists_junk (mem : Arena nul) (d : CStr) :
    ∃ junk, nul ∉ junk ∧ mem.kept d.length d = d ++ junk ∧ (mem.Fits d.length d → junk = []) := by
  by_cases hfits : mem.Fits d.length d
  · exact ⟨[], List.not_mem_nil, by rw [Arena.kept_of_fits hfits, List.append_nil], fun _ => rfl⟩
  · refine ⟨mem.behind d.length, mem.clean _, ?_, fun h => absurd h hfits⟩
    rw [Arena.kept, if_neg hfits, List.take_of_length_le (mem.le_usable _)]

private theorem complete_noSlash {mem : Arena nul} {found : Listing} (hpre : pre ≠ [])
    (hbase : basedir (completedPath pre) = none) (skipCount : Nat) :
    complete mem found pre skipCount = .ok pre := by
  rw [completedPath] at hbase
  simp only [complete, if_neg hpre, hbase]

private theorem complete_slash {mem : Arena nul} {junk : CStr} (hpre : pre ≠ [])
    (hbase : basedir (completedPath pre) = some d) (hkept : mem.kept d.length d = d ++ junk)
    (skipCount : Nat) :
    complete mem (Listing.fixed opendir) pre skipCount =
      .ok (pre.take ((lastIndex ' ' pre).getD 0 + 1) ++
        (d ++ behindSlash opendir d junk skipCount ((completedPath pre).drop d.length))) := by
  have hsame : pre.take ((lastIndex ' ' pre).getD 0 + 1) ++
      (d ++ (completedPath pre).drop d.length) = pre := by
    rw [append_drop_basedir hbase, completedPath, List.take_append_drop]
  rw [completedPath] at hbase
  simp only [complete, if_neg hpre, hbase, hkept]
  rw [behindSlash]
  cases hopen : opendir d with
  | none => simpa [Listing.fixed, hopen] using hsame.symm
  | some first =>
      simp only [Listing.fixed, hopen, Option.map_some, sizePred_length_names, Option.bind_some]
      by_cases hnone : (others first.names).length = 0
      · have hempty : ∀ second, first.takenFrom second skipCount = none := fun _ => if_pos hnone
        rw [if_pos hnone]
        cases opendir (d ++ junk) with
        | none => rw [Option.bind_none, hsame]
        | some second => rw [Option.bind_some, hempty, hsame]
      · rw [if_neg hnone]
        cases opendir (d ++ junk) with
        | none => rw [Option.map_none, Option.bind_none, Option.bind_none, hsame]
        | some second =>
            have htaken : first.takenFrom second skipCount =
                readEntry second.names (if (others first.names).length < skipCount then
                  skipCount % (others first.names).length else skipCount) := if_neg hnone
            rw [Option.map_some, Option.bind_some, Option.bind_some, htaken]
            cases readEntry second.names _ with
            | none => rw [hsame]
            | some name => simp only [List.append_assoc]

/-- What the prefix becomes when the block has room. -/
def completed (opendir : CStr → Option Directory) (pre : CStr) (skipCount : Nat) : CStr :=
  match basedir (completedPath pre) with
  | none => pre
  | some d => pre.take ((lastIndex ' ' pre).getD 0 + 1) ++
      (d ++ behindSlash opendir d [] skipCount ((completedPath pre).drop d.length))

private theorem cycled_eq (opendir : CStr → Option Directory) (pre : CStr) (skipCount : Nat) :
    cycled opendir pre skipCount =
      match basedir (lastWord pre) with
      | none => pre
      | some d => pre.take (wordStart pre) ++ (d ++
          inPlace ((opendir d).bind (·.entry skipCount)) ((lastWord pre).drop d.length)) := by
  unfold cycled
  cases hbase : basedir (lastWord pre) with
  | none => rfl
  | some d =>
      dsimp only
      cases (opendir d).bind (·.entry skipCount) with
      | none =>
          change pre = pre.take (wordStart pre) ++ (d ++ (lastWord pre).drop d.length)
          rw [append_drop_basedir hbase, lastWord, List.take_append_drop]
      | some name => rfl

private theorem inPlace_taken_iff (directory : Directory) (skipCount : Nat) (text : CStr) :
    inPlace (directory.taken skipCount) text = inPlace (directory.entry skipCount) text ↔
      (skipCount = (others directory.names).length →
        inPlace (others directory.names).head? text = text) := by
  rw [Directory.taken]
  split
  · next heq =>
      rw [Directory.entry, heq, Nat.mod_self, ← List.head?_eq_getElem?, eq_comm]
      exact ⟨fun h _ => h, fun h => h rfl⟩
  · next hne => exact iff_of_true rfl fun heq => absurd heq hne

end

private theorem completed_eq_iff (opendir : CStr → Option Directory) {pre : CStr} (hpre : pre ≠ [])
    (skipCount : Nat) :
    completed opendir pre skipCount = cycled opendir pre skipCount ↔
      Cycling opendir pre skipCount := by
  rw [completed, completedPath, cycled_eq, Cycling]
  simp only [behindSlash_nil]
  cases hspace : lastIndex ' ' pre with
  | some i =>
      have hstart : wordStart pre = i + 1 := by
        rw [wordStart, hspace]
        rfl
      rw [lastWord, hstart, Option.getD_some]
      cases hbase : basedir (pre.drop (i + 1)) with
      | none => exact Iff.of_eq (eq_self pre)
      | some d =>
          dsimp only
          rw [List.append_cancel_left_eq, List.append_cancel_left_eq]
          cases hopen : opendir d with
          | none => simp
          | some directory =>
              rw [Option.bind_some, Option.bind_some, inPlace_taken_iff]
              simp
  | none =>
      have hstart : wordStart pre = 0 := by
        rw [wordStart, hspace]
        rfl
      rw [lastWord, hstart, Option.getD_none, Nat.zero_add, List.drop_zero, List.take_zero]
      obtain ⟨c, path, rfl⟩ := List.exists_cons_of_ne_nil hpre
      rw [List.drop_one, List.tail_cons, basedir_cons]
      cases hbase : basedir path with
      | some d => simp
      | none =>
          by_cases hslash : c = '/'
          · simp [hslash, inPlace]
          · simp [hslash]

/-- `complete` goes through the entries in turn, whatever stands behind the block of the directory
part, exactly where the count and the start of the path are not missed and the directory is opened
again under its own name. -/
theorem complete_cycles_iff (a : Allocator) (opendir : CStr → Option Directory) (pre : CStr)
    (hpre : pre ≠ []) (skipCount : Nat) :
    (∀ mem : Arena nul, mem.toAllocator = a →
        complete mem (Listing.fixed opendir) pre skipCount =
          .ok (cycled opendir pre skipCount)) ↔
      Cycling opendir pre skipCount ∧ Reopened a opendir pre skipCount := by
  rw [← completed_eq_iff opendir hpre, completed, Reopened]
  cases hbase : basedir (completedPath pre) with
  | none =>
      simp only [complete_noSlash hpre hbase, Except.ok.injEq, and_true]
      exact ⟨fun h => h ⟨a, fun _ => [], fun _ => List.not_mem_nil⟩ rfl, fun h _ _ => h⟩
  | some d =>
      dsimp only
      have hanother : ∀ {junk : CStr} (hjunk : nul ∉ junk), ¬ a.Fits d.length d →
          (⟨a, fun _ => junk, fun _ => hjunk⟩ : Arena nul).kept d.length d = d ++ junk := by
        intro junk hjunk hfits
        rw [Arena.kept, if_neg hfits, List.take_of_length_le (a.le_usable _)]
      constructor
      · intro h
        have hexact : pre.take ((lastIndex ' ' pre).getD 0 + 1) ++
            (d ++ behindSlash opendir d [] skipCount ((completedPath pre).drop d.length)) =
              cycled opendir pre skipCount := by
          by_cases hfits : a.Fits d.length d
          · have hrun := h ⟨a, fun _ => [], fun _ => List.not_mem_nil⟩ rfl
            have hkept : (⟨a, fun _ => [], fun _ => List.not_mem_nil⟩ : Arena nul).kept d.length d =
                d ++ [] := (Arena.kept_of_fits hfits).trans (List.append_nil d).symm
            rw [complete_slash hpre hbase hkept] at hrun
            exact Except.ok.inj hrun
          · have hrun := h ⟨a, fun _ => [], fun _ => List.not_mem_nil⟩ rfl
            rw [complete_slash hpre hbase (hanother List.not_mem_nil hfits)] at hrun
            exact Except.ok.inj hrun
        refine ⟨hexact, or_iff_not_imp_left.mpr fun hfits junk hjunk => ?_⟩
        have hrun := h ⟨a, fun _ => junk, fun _ => hjunk⟩ rfl
        rw [complete_slash hpre hbase (hanother hjunk hfits), Except.ok.injEq, ← hexact,
          List.append_cancel_left_eq, List.append_cancel_left_eq] at hrun
        exact hrun
      · rintro ⟨hexact, hreopened⟩ mem rfl
        obtain ⟨junk, hjunk, hkept, hnone⟩ := exists_junk mem d
        rw [complete_slash hpre hbase hkept, ← hexact]
        rcases hreopened with hfits | hsame
        · rw [hnone hfits]
        · rw [hsame junk hjunk]

/-- `d_name`. -/
def fileName (buffer : List Char) : FileName := ⟨cString buffer, nul_notMem_cString buffer⟩

/-- The directory `d` holds the files `b` and `c`. -/
def twoEntries (d path : CStr) : Option Directory :=
  let names := [['b'], ['.'], ['c'], ['.', '.']].map fileName
  if path = d then some ⟨names, rfl, rfl⟩ else none

/-- A directory part that fills its block. -/
def longPath : CStr := '/' :: List.replicate 22 'w' ++ ['/']

/-- The third count takes the second file; in a directory with a longer name nothing is found. -/
theorem complete_cycles_iff_three :
    (∀ mem : Arena nul, mem.toAllocator = Allocator.aligned →
        complete mem (Listing.fixed (twoEntries ['/'])) ['x', ' ', '/'] 3 =
          .ok (cycled (twoEntries ['/']) ['x', ' ', '/'] 3)) ∧
      cycled (twoEntries ['/']) ['x', ' ', '/'] 3 = ['x', ' ', '/', 'c'] ∧
      ¬ ∀ mem : Arena nul, mem.toAllocator = Allocator.aligned →
        complete mem (Listing.fixed (twoEntries longPath)) ('x' :: ' ' :: longPath) 0 =
          .ok (cycled (twoEntries longPath) ('x' :: ' ' :: longPath) 0) := by
  refine ⟨(complete_cycles_iff Allocator.aligned _ _ (by decide) 3).mpr ⟨?_, .inl (by decide)⟩,
    by decide, ?_⟩
  · change ∀ directory, twoEntries ['/'] ['/'] = some directory →
      3 = (others directory.names).length → inPlace (others directory.names).head? [] = []
    rintro directory hopen hcount
    cases hopen
    exact absurd hcount (by decide)
  · rw [complete_cycles_iff Allocator.aligned _ _ (by decide) 0]
    rintro ⟨-, hfits | hsame⟩
    · exact absurd hfits (by decide)
    · exact absurd (hsame ['1'] (by decide)) (by decide)

/-- The count of the two files leaves the prefix as it is, and so does a directory part of 24
bytes. -/
theorem complete_cycles_fails :
    (¬ ∀ (mem : Arena nul) (opendir : CStr → Option Directory) (pre : CStr), pre ≠ [] →
      ∀ skipCount : Nat, complete mem (Listing.fixed opendir) pre skipCount =
        .ok (cycled opendir pre skipCount)) ∧
      complete lengthBehind (Listing.fixed (twoEntries ['/'])) ['x', ' ', '/'] 2 ≠
        .ok (cycled (twoEntries ['/']) ['x', ' ', '/'] 2) ∧
      complete lengthBehind (Listing.fixed (twoEntries longPath)) ('x' :: ' ' :: longPath) 0 ≠
        .ok (cycled (twoEntries longPath) ('x' :: ' ' :: longPath) 0) := by
  have hcount : complete lengthBehind (Listing.fixed (twoEntries ['/'])) ['x', ' ', '/'] 2 ≠
      .ok (cycled (twoEntries ['/']) ['x', ' ', '/'] 2) := by decide
  refine ⟨fun h => hcount (h _ _ _ (by decide) _), hcount, by decide⟩

end SyssoftLabs.Lab4
