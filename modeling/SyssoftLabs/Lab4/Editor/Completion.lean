import SyssoftLabs.Lab4.Editor.Model
import SyssoftLabs.Lab4.Parser.Commands

/-!
# Completion of a path

`complete` takes the last word before the cursor for a path and puts an entry of its directory in
place of what follows the last slash, whatever that was.
-/

namespace SyssoftLabs.Lab4

open SyssoftLabs.Framework

/-- The name of a directory entry. -/
abbrev FileName := { name : CStr // nul ∉ name }

/-- The names that `readdir` gives for a path, when the entries are counted and when one of them is
chosen; `none` where `opendir` fails. -/
structure Listing where
  counted : CStr → Option (List FileName)
  searched : CStr → Option (List FileName)

def lastIndex (c : Char) : CStr → Option Nat
  | [] => none
  | d :: s =>
      match lastIndex c s with
      | some i => some (i + 1)
      | none => if d = c then some 0 else none

/-- The path up to its last slash, in a block of its own that has no room for the terminator. -/
def basedir (path : CStr) : Option CStr := (lastIndex '/' path).map fun i => path.take (i + 1)

/-- Where the second loop over the directory stops; `.` and `..` do not count. -/
def readEntry (names : List FileName) (skipCount : Nat) : Option FileName :=
  (names.filter fun name => name.val ≠ ['.'] ∧ name.val ≠ ['.', '.'])[skipCount]?

def complete (mem : Arena nul) (found : Listing) (pre : CStr) (skipCount : Nat) :
    Except Stuck CStr :=
  -- the path would start behind the terminator
  if pre = [] then .error .fault
  else
    let lastSpace := (lastIndex ' ' pre).getD 0
    match basedir (pre.drop (lastSpace + 1)) with
    | none => .ok pre
    | some bdir =>
        match found.counted bdir with
        | none => .ok pre
        | some names =>
            let fCnt := sizePred (sizePred names.length)
            if fCnt = 0 then .ok pre
            else
              let skipCount := if fCnt < skipCount then skipCount % fCnt else skipCount
              -- the first `opendir` has asked for memory
              let bdir := mem.kept bdir.length bdir
              match (found.searched bdir).bind fun names => readEntry names skipCount with
              | none => .ok pre
              | some name => .ok (pre.take (lastSpace + 1) ++ bdir ++ name.val)

/-- Completions that find what the directories hold at the time. -/
def completion (mem : Arena nul) (found : Nat → Listing) (pre : CStr) (skipCount : Nat) :
    Except Stuck CStr :=
  complete mem (found skipCount) pre skipCount

theorem basedir_isPrefix {path bdir : CStr} (h : basedir path = some bdir) : bdir <+: path := by
  rw [basedir, Option.map_eq_some_iff] at h
  obtain ⟨i, -, rfl⟩ := h
  exact List.take_prefix _ _

/-- A completion is the text itself, or it ends in an entry of a directory. -/
theorem complete_cases {mem : Arena nul} {found : Listing} {pre s : CStr} {skipCount : Nat}
    (h : complete mem found pre skipCount = .ok s) :
    s = pre ∨ ∃ (n : Nat) (bdir : CStr) (name : FileName),
      bdir <+: pre.drop n ∧ s = pre.take n ++ mem.kept bdir.length bdir ++ name.val := by
  unfold complete at h
  dsimp only at h
  split at h
  · cases h
  split at h
  · cases h
    exact .inl rfl
  next bdir hbdir =>
    split at h
    · cases h
      exact .inl rfl
    split at h
    · cases h
      exact .inl rfl
    split at h
    · cases h
      exact .inl rfl
    next name _ =>
      cases h
      exact .inr ⟨_, bdir, name, basedir_isPrefix hbdir, rfl⟩

theorem complete_clean {mem : Arena nul} {found : Listing} {pre s : CStr} {skipCount : Nat}
    (h : complete mem found pre skipCount = .ok s) (hpre : nul ∉ pre) : nul ∉ s := by
  rcases complete_cases h with rfl | ⟨n, bdir, name, hbdir, rfl⟩
  · exact hpre
  · simp only [List.mem_append, not_or]
    refine ⟨⟨fun hmem => hpre (List.mem_of_mem_take hmem), ?_⟩, name.property⟩
    exact Arena.stop_notMem_kept fun hmem => hpre (List.mem_of_mem_drop (hbdir.subset hmem))

end SyssoftLabs.Lab4
