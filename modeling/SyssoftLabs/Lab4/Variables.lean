import Mathlib.Data.List.Dedup
import Mathlib.Data.List.Perm.Subperm
import SyssoftLabs.Framework.Transition
import SyssoftLabs.Lab4.Parser.Tokens

/-!
# The variables of the shell

An array of 1024 entries with the names and values of the internal variables, searched from its
start. A name that is not in it is looked up in the environment.
-/

namespace SyssoftLabs.Lab4

open SyssoftLabs.Framework

def variablesCapacity : Nat := 1024

/-- The loop of `set_var_force`: a new value for the first entry of the name. -/
def overwrite (name value : CStr) : List Variable → Option (List Variable)
  | [] => none
  | v :: vars =>
      if v.name = name then some ({ v with value := value } :: vars)
      else (overwrite name value vars).map (v :: ·)

namespace Scope

/-- The static variables of `variable.c` when the shell starts. -/
def start (getenv : CStr → Option CStr) : Scope := ⟨[], getenv⟩

def getVarsCount (σ : Scope) : Nat := σ.vars.length

/-- `set_var_force`. A new entry behind the end of the array is a fault. -/
def setVarForce (σ : Scope) (name value : CStr) : Except Stuck Scope :=
  match overwrite name value σ.vars with
  | some vars => .ok { σ with vars := vars }
  | none =>
      if σ.vars.length < variablesCapacity then
        .ok { σ with vars := σ.vars ++ [⟨name, value⟩] }
      else .error .fault

/-- `set_var`. -/
def setVar (σ : Scope) (name value : CStr) : Except Stuck Scope :=
  if name = ['$'] then .ok σ
  else if name = ['_'] then .ok σ
  else if name = ['?'] then .ok σ
  else σ.setVarForce name value

end Scope

/-! ## Calls -/

inductive VarCall
  | set (name value : CStr)
  | force (name value : CStr)
deriving DecidableEq, Repr

namespace VarCall

def name : VarCall → CStr
  | .set name _ => name
  | .force name _ => name

def perform (σ : Scope) : VarCall → Except Stuck Scope
  | .set name value => σ.setVar name value
  | .force name value => σ.setVarForce name value

def performAll (σ : Scope) (calls : List VarCall) : Except Stuck Scope := calls.foldlM perform σ

/-- The variables that `set_var` leaves alone. -/
def guarded : List CStr := [['$'], ['_'], ['?']]

/-- What a call sets, if it has an effect. -/
def effect : VarCall → Option Variable
  | .set name value => if name ∈ guarded then none else some ⟨name, value⟩
  | .force name value => some ⟨name, value⟩

end VarCall

/-! ## A map from names to values -/

/-- The value of the last entry of the name. -/
def lastValue (writes : List Variable) (name : CStr) : Option CStr :=
  (writes.filter fun v => v.name == name).getLast?.map Variable.value

/-- The value of the first entry of the name. -/
def firstValue (vars : List Variable) (name : CStr) : Option CStr :=
  (vars.find? fun v => v.name == name).map Variable.value

variable {σ τ : Scope} {vars us writes : List Variable} {name value : CStr} {call : VarCall}

private theorem Scope.getVar_eq (σ : Scope) (name : CStr) :
    σ.getVar name = (firstValue σ.vars name).or (σ.getenv name) := by
  unfold getVar firstValue
  cases σ.vars.find? fun v => v.name == name with
  | none => rfl
  | some v => rfl

private theorem firstValue_cons (v : Variable) (vars : List Variable) (name : CStr) :
    firstValue (v :: vars) name = if v.name = name then some v.value else firstValue vars name := by
  unfold firstValue
  by_cases hname : v.name = name
  · rw [List.find?_cons_of_pos (by simpa using hname), if_pos hname, Option.map_some]
  · rw [List.find?_cons_of_neg (by simpa using hname), if_neg hname]

private theorem firstValue_append (vars : List Variable) (v : Variable) (name : CStr) :
    firstValue (vars ++ [v]) name =
      (firstValue vars name).or (if v.name = name then some v.value else none) := by
  induction vars with
  | nil =>
      rw [List.nil_append, firstValue_cons]
      rfl
  | cons w vars ih =>
      rw [List.cons_append, firstValue_cons, firstValue_cons, ih]
      split <;> rfl

private theorem firstValue_eq_none :
    firstValue vars name = none ↔ name ∉ vars.map Variable.name := by
  induction vars with
  | nil => simp [firstValue]
  | cons v vars ih =>
      rw [firstValue_cons, List.map_cons, List.mem_cons, not_or, ← ih]
      by_cases hname : v.name = name
      · simp [hname]
      · simp [hname, Ne.symm hname]

private theorem lastValue_append (writes : List Variable) (v : Variable) (name : CStr) :
    lastValue (writes ++ [v]) name =
      if v.name = name then some v.value else lastValue writes name := by
  unfold lastValue
  rw [List.filter_append]
  by_cases hname : v.name = name
  · simp [hname]
  · simp [hname]

private theorem lastValue_eq_none :
    lastValue writes name = none ↔ name ∉ writes.map Variable.name := by
  unfold lastValue
  rw [Option.map_eq_none_iff, List.getLast?_eq_none_iff, List.filter_eq_nil_iff]
  simp

/-! ## One call -/

private theorem overwrite_eq_none :
    overwrite name value vars = none ↔ name ∉ vars.map Variable.name := by
  induction vars with
  | nil => simp [overwrite]
  | cons v vars ih =>
      rw [overwrite, List.map_cons, List.mem_cons, not_or]
      by_cases hname : v.name = name
      · simp [hname]
      · rw [if_neg hname, Option.map_eq_none_iff, ih]
        exact ⟨fun h => ⟨Ne.symm hname, h⟩, fun h => h.2⟩

private theorem overwrite_eq_some (h : overwrite name value vars = some us) :
    us.map Variable.name = vars.map Variable.name ∧
      ∀ m, firstValue us m = if m = name then some value else firstValue vars m := by
  induction vars generalizing us with
  | nil => cases h
  | cons v vars ih =>
      rw [overwrite] at h
      by_cases hname : v.name = name
      · rw [if_pos hname] at h
        cases h
        refine ⟨rfl, fun m => ?_⟩
        rw [firstValue_cons, firstValue_cons]
        by_cases hm : m = name
        · simp [hm, hname]
        · have hne : ¬v.name = m := by
            rintro rfl
            exact hm hname
          simp [hm, hne]
      · rw [if_neg hname, Option.map_eq_some_iff] at h
        obtain ⟨ws, hws, rfl⟩ := h
        obtain ⟨hnames, hvalues⟩ := ih hws
        refine ⟨by rw [List.map_cons, hnames, List.map_cons], fun m => ?_⟩
        rw [firstValue_cons, firstValue_cons, hvalues]
        by_cases hm : m = name
        · have hne : ¬v.name = m := by
            rw [hm]
            exact hname
          simp only [if_neg hne]
        · simp only [if_neg hm]

private theorem setVarForce_spec (h : σ.setVarForce name value = .ok τ) :
    τ.getenv = σ.getenv ∧
      (∀ m, firstValue τ.vars m = if m = name then some value else firstValue σ.vars m) ∧
      ((σ.vars.map Variable.name).Nodup → (τ.vars.map Variable.name).Nodup) := by
  unfold Scope.setVarForce at h
  split at h
  · next us hover =>
      cases h
      obtain ⟨hnames, hvalues⟩ := overwrite_eq_some hover
      refine ⟨rfl, hvalues, fun hdistinct => ?_⟩
      rw [hnames]
      exact hdistinct
  · next hover =>
      rw [overwrite_eq_none] at hover
      split at h
      · cases h
        refine ⟨rfl, fun m => ?_, fun hdistinct => ?_⟩
        · rw [firstValue_append]
          by_cases hm : m = name
          · rw [hm, firstValue_eq_none.mpr hover]
            simp
          · simp [hm, Ne.symm hm]
        · rw [List.map_append, List.nodup_append]
          refine ⟨hdistinct, by simp, fun n hn m hm => ?_⟩
          rw [List.map_singleton, List.mem_singleton] at hm
          rw [hm]
          rintro rfl
          exact hover hn
      · cases h

private theorem setVarForce_isOk
    (h : name ∈ σ.vars.map Variable.name ∨ σ.vars.length < variablesCapacity) :
    ∃ τ, σ.setVarForce name value = .ok τ := by
  unfold Scope.setVarForce
  split
  · next us _ => exact ⟨_, rfl⟩
  · next hover =>
      rcases h with hmem | hroom
      · exact absurd hmem (overwrite_eq_none.mp hover)
      · exact ⟨_, if_pos hroom⟩

private theorem setVar_guarded (h : name ∈ VarCall.guarded) : σ.setVar name value = .ok σ := by
  unfold Scope.setVar
  simp only [VarCall.guarded, List.mem_cons, List.not_mem_nil, or_false] at h
  rcases h with rfl | rfl | rfl <;> rfl

private theorem setVar_other (h : name ∉ VarCall.guarded) :
    σ.setVar name value = σ.setVarForce name value := by
  simp only [VarCall.guarded, List.mem_cons, List.not_mem_nil, or_false, not_or] at h
  rw [Scope.setVar, if_neg h.1, if_neg h.2.1, if_neg h.2.2]

namespace VarCall

private theorem perform_eq (σ : Scope) (call : VarCall) :
    call.perform σ = call.effect.elim (.ok σ) fun v => σ.setVarForce v.name v.value := by
  cases call with
  | force name value => rfl
  | set name value =>
      change σ.setVar name value = Option.elim (if name ∈ guarded then none else some _) _ _
      by_cases hname : name ∈ guarded
      · rw [if_pos hname]
        exact setVar_guarded hname
      · rw [if_neg hname]
        exact setVar_other hname

/-! ## Runs -/

/-- The store after these writes. -/
structure Stores (getenv : CStr → Option CStr) (writes : List Variable) (σ : Scope) : Prop where
  env : σ.getenv = getenv
  distinct : (σ.vars.map Variable.name).Nodup
  value : ∀ name, firstValue σ.vars name = lastValue writes name

variable {getenv : CStr → Option CStr}

theorem Stores.start (getenv : CStr → Option CStr) : Stores getenv [] (Scope.start getenv) where
  env := rfl
  distinct := List.nodup_nil
  value := fun _ => rfl

theorem Stores.mem_iff (h : Stores getenv writes σ) :
    name ∈ σ.vars.map Variable.name ↔ name ∈ writes.map Variable.name := by
  have hnone : firstValue σ.vars name = none ↔ lastValue writes name = none := by rw [h.value]
  rw [firstValue_eq_none, lastValue_eq_none] at hnone
  exact not_iff_not.mp hnone

theorem Stores.count (h : Stores getenv writes σ) :
    σ.vars.length = (writes.map Variable.name).dedup.length := by
  have hperm : (σ.vars.map Variable.name).Perm (writes.map Variable.name).dedup := by
    rw [List.perm_ext_iff_of_nodup h.distinct (List.nodup_dedup _)]
    intro name
    rw [List.mem_dedup, h.mem_iff]
  simpa using hperm.length_eq

theorem Stores.getVar (h : Stores getenv writes σ) (name : CStr) :
    σ.getVar name = (lastValue writes name).or (getenv name) := by
  rw [Scope.getVar_eq, h.value, h.env]

private theorem Stores.force (h : Stores getenv writes σ) {v : Variable}
    (hset : σ.setVarForce v.name v.value = .ok τ) : Stores getenv (writes ++ [v]) τ := by
  obtain ⟨henv, hvalues, hdistinct⟩ := setVarForce_spec hset
  refine ⟨henv.trans h.env, hdistinct h.distinct, fun name => ?_⟩
  rw [hvalues, lastValue_append, h.value]
  simp only [eq_comm]

theorem Stores.fits (h : Stores getenv writes σ) {v : Variable}
    (hfit : ((writes ++ [v]).map Variable.name).dedup.length ≤ variablesCapacity) :
    ∃ τ, σ.setVarForce v.name v.value = .ok τ := by
  apply setVarForce_isOk
  by_cases hmem : v.name ∈ σ.vars.map Variable.name
  · exact Or.inl hmem
  · right
    rw [h.mem_iff] at hmem
    have hlen : ((writes ++ [v]).map Variable.name).dedup.length = σ.vars.length + 1 := by
      have hperm : ((writes ++ [v]).map Variable.name).Perm
          (v.name :: writes.map Variable.name) := by
        rw [List.map_append, List.map_singleton]
        apply List.perm_append_singleton
      rw [hperm.dedup.length_eq, List.dedup_cons_of_notMem hmem, List.length_cons, h.count]
    omega

private theorem names_length_le (writes more : List Variable) :
    (writes.map Variable.name).dedup.length ≤
    ((writes ++ more).map Variable.name).dedup.length := by
  refine ((List.nodup_dedup _).subperm ?_).length_le
  intro name hname
  rw [List.mem_dedup] at hname ⊢
  rw [List.map_append]
  exact List.mem_append_left _ hname

theorem Stores.perform (h : Stores getenv writes σ) (call : VarCall)
    (hfit : ((writes ++ call.effect.toList).map Variable.name).dedup.length ≤ variablesCapacity) :
    ∃ τ, call.perform σ = .ok τ ∧ Stores getenv (writes ++ call.effect.toList) τ := by
  rw [perform_eq]
  cases heffect : call.effect with
  | none =>
      refine ⟨σ, rfl, ?_⟩
      simpa using h
  | some v =>
      rw [heffect] at hfit
      obtain ⟨τ, hset⟩ := h.fits hfit
      exact ⟨τ, hset, h.force hset⟩

private theorem Stores.performAll (h : Stores getenv writes σ) (calls : List VarCall)
    (hfit : ((writes ++ calls.filterMap effect).map Variable.name).dedup.length ≤
      variablesCapacity) :
    ∃ τ, performAll σ calls = .ok τ ∧ Stores getenv (writes ++ calls.filterMap effect) τ := by
  induction calls generalizing writes σ with
  | nil =>
      refine ⟨σ, rfl, ?_⟩
      simpa using h
  | cons call calls ih =>
      have hsplit : writes ++ (call :: calls).filterMap effect =
          (writes ++ call.effect.toList) ++ calls.filterMap effect := by
        cases heffect : call.effect with
        | none => simp [heffect]
        | some v => simp [heffect]
      rw [hsplit] at hfit ⊢
      have hhead := Nat.le_trans (names_length_le (writes ++ call.effect.toList)
        (calls.filterMap effect)) hfit
      obtain ⟨υ, hcall, hυ⟩ := h.perform call hhead
      obtain ⟨τ, hcalls, hτ⟩ := ih hυ hfit
      refine ⟨τ, ?_, hτ⟩
      rw [VarCall.performAll, List.foldlM_cons, hcall]
      exact hcalls

private theorem effect_name {v : Variable} (h : call.effect = some v) : v.name = call.name := by
  cases call with
  | force n x =>
      cases h
      rfl
  | set n x =>
      rw [effect] at h
      split at h
      · cases h
      · cases h
        rfl

private theorem getVar_perform (h : call.perform σ = .ok τ) (hname : name ≠ call.name) :
    τ.getVar name = σ.getVar name := by
  rw [perform_eq] at h
  cases heffect : call.effect with
  | none =>
      rw [heffect] at h
      cases h
      rfl
  | some v =>
      rw [heffect] at h
      obtain ⟨henv, hvalues, -⟩ := setVarForce_spec h
      have hv := effect_name heffect
      rw [Scope.getVar_eq, Scope.getVar_eq, hvalues, if_neg (hv ▸ hname), henv]

private theorem getVar_setVar_guarded {g : CStr} (hg : g ∈ guarded)
    (h : σ.setVar name value = .ok τ) :
    τ.getVar g = σ.getVar g := by
  by_cases hname : name ∈ guarded
  · rw [setVar_guarded hname] at h
    cases h
    rfl
  · have hcall : perform σ (.set name value) = .ok τ := h
    apply getVar_perform hcall
    rintro rfl
    exact hname hg

/-- The variables are a map in which the last writer wins, over the environment. -/
theorem variables_last_writer (getenv : CStr → Option CStr) (calls : List VarCall)
    (hfit : ((calls.filterMap effect).map Variable.name).dedup.length ≤ variablesCapacity) :
    ∃ σ, performAll (Scope.start getenv) calls = .ok σ ∧
      (σ.vars.map Variable.name).Nodup ∧
      σ.getVarsCount = ((calls.filterMap effect).map Variable.name).dedup.length ∧
      (∀ name, σ.getVar name = (lastValue (calls.filterMap effect) name).or (getenv name)) ∧
      (∀ call τ, perform σ call = .ok τ → ∀ name, name ≠ call.name →
        τ.getVar name = σ.getVar name) ∧
      (∀ name value τ, σ.setVar name value = .ok τ → ∀ g ∈ guarded, τ.getVar g = σ.getVar g) ∧
      ∀ call τ, perform σ call = .ok τ → ∀ g ∈ guarded, τ.getVar g ≠ σ.getVar g →
        ∃ value, call = .force g value := by
  obtain ⟨σ, hrun, hσ⟩ := (Stores.start getenv).performAll calls hfit
  rw [List.nil_append] at hσ
  refine ⟨σ, hrun, hσ.distinct, hσ.count, hσ.getVar, fun call τ h name hname => ?_,
    fun name value τ h g hg => ?_, fun call τ h g hg hne => ?_⟩
  · exact getVar_perform h hname
  · exact getVar_setVar_guarded hg h
  · cases call with
    | set name value => exact absurd (getVar_setVar_guarded hg h) hne
    | force name value =>
        have hname : g = name := by
          by_contra hother
          exact hne (getVar_perform h hother)
        exact ⟨value, by rw [hname]⟩

/-- `set_var` does not reach `$`; of two values of one name the last one stays. -/
theorem variables_last_writer_twice :
    ∃ σ, performAll (Scope.start fun _ => some ['e'])
        [.set ['a'] ['1'], .set ['$'] ['2'], .force ['?'] ['0'], .set ['a'] ['3']] = .ok σ ∧
      σ.getVarsCount = 2 ∧ σ.getVar ['a'] = some ['3'] ∧ σ.getVar ['$'] = some ['e'] := by
  obtain ⟨σ, hrun, -, hcount, hvalue, -, -, -⟩ := variables_last_writer (fun _ => some ['e'])
    [.set ['a'] ['1'], .set ['$'] ['2'], .force ['?'] ['0'], .set ['a'] ['3']] (by decide)
  exact ⟨σ, hrun, hcount, hvalue ['a'], hvalue ['$']⟩

/-! ## A full array -/

/-- The next state, if the call writes no entry outside of the array. -/
def step (σ : Scope) (call : VarCall) : Option Scope := (call.perform σ).toOption

/-- The call writes an entry of the array, if any. A new name that does not fit leaves all values
as they were. -/
structure Contained (σ : Scope) (call : VarCall) : Prop where
  inside : ∃ τ, call.perform σ = .ok τ
  kept : σ.vars.length = variablesCapacity → call.name ∉ σ.vars.map Variable.name →
    ∀ τ, call.perform σ = .ok τ → ∀ name, τ.getVar name = σ.getVar name

private theorem setVarForce_full (hfull : σ.vars.length = variablesCapacity)
    (hnew : name ∉ σ.vars.map Variable.name) : σ.setVarForce name value = .error .fault := by
  rw [Scope.setVarForce, overwrite_eq_none.mpr hnew]
  exact if_neg (by omega)

private theorem setVarForce_length (hle : σ.vars.length ≤ variablesCapacity)
    (h : σ.setVarForce name value = .ok τ) : τ.vars.length ≤ variablesCapacity := by
  unfold Scope.setVarForce at h
  split at h
  · next us hover =>
      cases h
      have hlen := congrArg List.length (overwrite_eq_some hover).1
      rw [List.length_map, List.length_map] at hlen
      exact hlen ▸ hle
  · split at h
    · next hroom =>
        cases h
        rw [List.length_append, List.length_singleton]
        exact hroom
    · cases h

private theorem contained_of_ok (h : call.perform σ = .ok τ) : Contained σ call := by
  refine ⟨⟨τ, h⟩, fun hfull hnew υ hυ name => ?_⟩
  rw [perform_eq] at hυ
  cases heffect : call.effect with
  | none =>
      rw [heffect] at hυ
      cases hυ
      rfl
  | some v =>
      rw [heffect] at hυ
      rw [← effect_name heffect] at hnew
      have hstuck : σ.setVarForce v.name v.value = .error .fault := setVarForce_full hfull hnew
      exact absurd (hstuck.symm.trans hυ) nofun

private theorem Stores.contained_iff (h : Stores getenv writes σ)
    (hle : σ.vars.length ≤ variablesCapacity) (calls : List VarCall) :
    Guarded step Contained σ calls ↔
      ((writes ++ calls.filterMap effect).map Variable.name).dedup.length ≤ variablesCapacity := by
  induction calls generalizing writes σ with
  | nil =>
      rw [List.filterMap_nil, List.append_nil, ← h.count]
      exact iff_of_true trivial hle
  | cons call calls ih =>
      cases heffect : call.effect with
      | none =>
          have hcall : call.perform σ = .ok σ := by rw [perform_eq, heffect]; rfl
          have hstep : step σ call = some σ := by rw [step, hcall]; rfl
          rw [List.filterMap_cons_none heffect, ← ih h hle, Guarded, hstep]
          exact and_iff_right (contained_of_ok hcall)
      | some v =>
          have hcall : call.perform σ = σ.setVarForce v.name v.value := by
            rw [perform_eq, heffect]
            rfl
          have hsplit : writes ++ (v :: calls.filterMap effect) =
              (writes ++ [v]) ++ calls.filterMap effect := by simp
          rw [List.filterMap_cons_some heffect, hsplit, Guarded]
          cases hset : σ.setVarForce v.name v.value with
          | ok τ =>
              have hok := hcall.trans hset
              have hstep : step σ call = some τ := by rw [step, hok]; rfl
              rw [hstep, ← ih (h.force hset) (setVarForce_length hle hset)]
              exact and_iff_right (contained_of_ok hok)
          | error stuck =>
              refine iff_of_false (fun hall => ?_) fun hfit => ?_
              · obtain ⟨τ, hτ⟩ := hall.1.inside
                rw [hcall, hset] at hτ
                cases hτ
              · obtain ⟨τ, hτ⟩ := h.fits (Nat.le_trans (names_length_le _ _) hfit)
                rw [hset] at hτ
                cases hτ

/-- The array of variables never overflows exactly in the runs that set no more names than it has
entries. -/
theorem variables_contained_iff (getenv : CStr → Option CStr) (calls : List VarCall) :
    Guarded step Contained (Scope.start getenv) calls ↔
      ((calls.filterMap effect).map Variable.name).dedup.length ≤ variablesCapacity := by
  have h := (Stores.start getenv).contained_iff (Nat.zero_le _) calls
  rwa [List.nil_append] at h

private theorem exists_names (n : Nat) :
    ∃ names : List CStr, names.length = n ∧ names.Nodup ∧ ∀ name ∈ names, name ∉ guarded := by
  refine ⟨(List.range n).map fun i => List.replicate (i + 2) 'a', by simp, ?_, ?_⟩
  · refine List.nodup_range.map fun i j hij => ?_
    simpa using congrArg List.length hij
  · intro name hname
    obtain ⟨i, -, rfl⟩ := List.mem_map.mp hname
    simp [guarded, List.replicate_succ]

private theorem names_of_sets {names : List CStr} (h : ∀ name ∈ names, name ∉ guarded)
    (value : CStr) :
    ((names.map fun name => .set name value).filterMap effect).map Variable.name = names := by
  induction names with
  | nil => rfl
  | cons name names ih =>
      have heffect : effect (.set name value) = some ⟨name, value⟩ := if_neg (h name (by simp))
      rw [List.map_cons, List.filterMap_cons_some heffect, List.map_cons,
        ih fun m hm => h m (List.mem_cons_of_mem name hm)]

/-- 1025 names. -/
theorem variables_contained_fails :
    ¬ ∀ (getenv : CStr → Option CStr) (calls : List VarCall),
      Guarded step Contained (Scope.start getenv) calls := by
  intro h
  obtain ⟨names, hlength, hdistinct, hother⟩ := exists_names (variablesCapacity + 1)
  have hall := h (fun _ => none) (names.map fun name => .set name [])
  rw [(Stores.start fun _ => none).contained_iff (Nat.zero_le _), List.nil_append,
    names_of_sets hother, hdistinct.dedup, hlength] at hall
  omega

end VarCall

end SyssoftLabs.Lab4
