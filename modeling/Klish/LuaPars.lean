import Klish.ParsedArgs
import Mathlib.Data.List.Induction

/-!
# The parameters in Lua

Without a name the arrays of all parameters are made in one pass, and an array begins anew whenever
the ENTRY is another one than that of the last argument.
-/

namespace Klish

namespace LuaPars

/-- What a table has under its numbers. A nil is nothing. -/
abbrev LuaArray := ℕ → Option String

def newtable : LuaArray := fun _ => none

def LuaArray.rawset (t : LuaArray) (i : ℕ) (value : Option String) : LuaArray :=
  Function.update t i value

/-- The array of the values, which are numbered from 1 on. -/
def ofValues (vals : List (Option String)) : LuaArray
  | 0 => none
  | i + 1 => vals[i]?.join

/-- The table of all parameters: the names under the numbers, and the arrays under the names. -/
structure ParsTable where
  names : LuaArray
  arrays : String → Option LuaArray

inductive LuaResult where
  | nothing
  | value (value : Option String)
  | array (t : LuaArray)
  | table (t : ParsTable)

structure ParsState where
  k : ℕ
  i : ℕ
  lastEntry : Option EntryId
  table : ParsTable

def ParsState.start : ParsState := ⟨0, 0, none, ⟨newtable, fun _ => none⟩⟩

section Par

variable (scheme : Kscheme)

/-- The name of another ENTRY gets a new array. -/
def newEntry (s : ParsState) (entry : EntryId) : ParsState :=
  let n := scheme.name entry
  let arrays := Function.update s.table.arrays n (some newtable)
  if scheme.container entry then { s with i := 0, table := { s.table with arrays } }
  else { s with
    k := s.k + 1
    i := 0
    table := ⟨s.table.names.rawset (s.k + 1) (some n), arrays⟩ }

/-- The value goes into the array of its name, which is there since the ENTRY was new. -/
def putValue (s : ParsState) (p : Kparg) : ParsState :=
  let n := scheme.name p.entry
  let array := (s.table.arrays n).map fun t => t.rawset (s.i + 1) p.value
  { s with
    i := s.i + 1
    lastEntry := some p.entry
    table := { s.table with arrays := Function.update s.table.arrays n array } }

/-- One argument, when there is no name. -/
def parsStep (s : ParsState) (p : Kparg) : ParsState :=
  putValue scheme (if s.lastEntry = some p.entry then s else newEntry scheme s p.entry) p

/-- One argument, when there is a name and the result is an array. -/
def namedStep (name : String) (s : ℕ × LuaArray) (p : Kparg) : ℕ × LuaArray :=
  if scheme.name p.entry = name then (s.1 + 1, s.2.rawset (s.1 + 1) p.value) else s

/-- `_luaB_par` with the arguments of the context, if it has any. -/
def luaBPar (multi : Bool) (name : Option String) (pars : Option Kpargv) : LuaResult :=
  let pargs := (pars.map Kpargv.pargs).getD []
  match name with
  | none => if multi then .table (pargs.foldl (parsStep scheme) .start).table else .nothing
  | some name =>
    if multi then .array (pargs.foldl (namedStep scheme name) (0, newtable)).2
    else
      match pargs.find? fun p => scheme.name p.entry == name with
      | none => .nothing
      | some p => .value p.value

/-- `klish.pars` -/
def luaBPars (name : Option String) (pars : Option Kpargv) : LuaResult :=
  luaBPar scheme true name pars

end Par

/-- The table names the parameters that are no containers. -/
def Lists (scheme : Kscheme) (pargv : Kpargv) (t : ParsTable) : Prop :=
  ∃ listed : List String, t.names = ofValues (listed.map some) ∧
    ∀ name, name ∈ listed ↔
      ∃ p ∈ pargv.pargs, scheme.container p.entry = false ∧ scheme.name p.entry = name

/-- The forms with a name and without it give the same, which are the values with the name. -/
def ParsAgree (scheme : Kscheme) (pargv : Kpargv) (name : String) : Prop :=
  ∃ t a, luaBPars scheme none (some pargv) = .table t ∧
    luaBPars scheme (some name) (some pargv) = .array a ∧
    t.arrays name = some a ∧ a = ofValues ((pargv.findMulti scheme name).map Kparg.value) ∧
    Lists scheme pargv t ∧ luaBPar scheme false (some name) (some pargv) = .value (a 1)

/-- The arguments with the name stand together, and are those of one ENTRY. -/
def Together (scheme : Kscheme) (pargs : List Kparg) (name : String) : Prop :=
  ∃ before run after e, pargs = before ++ run ++ after ∧ scheme.name e = name ∧
    (∀ p ∈ run, p.entry = e) ∧ ∀ p ∈ before ++ after, scheme.name p.entry ≠ name

section Arrays

variable {vals : List (Option String)}

theorem newtable_eq : newtable = ofValues [] := by
  funext i
  cases i <;> rfl

theorem ofValues_concat (vals : List (Option String)) (value : Option String) :
    ofValues (vals ++ [value]) = (ofValues vals).rawset (vals.length + 1) value := by
  funext i
  unfold LuaArray.rawset Function.update
  cases i with
  | zero => rfl
  | succ i =>
    simp only [ofValues, Nat.add_right_cancel_iff]
    rcases Nat.lt_trichotomy i vals.length with hlt | rfl | hgt
    · rw [dif_neg (Nat.ne_of_lt hlt), List.getElem?_append_left hlt]
    · simp
    · rw [dif_neg (Nat.ne_of_gt hgt), List.getElem?_eq_none (by simp; omega),
        List.getElem?_eq_none (Nat.le_of_lt hgt)]

/-- An array without a nil among its values is as long as it looks. -/
theorem length_le_of_ofValues {vals' : List (Option String)} (h : ofValues vals = ofValues vals')
    (hsome : ∀ value ∈ vals, value ≠ none) : vals.length ≤ vals'.length := by
  by_contra hlt
  have hshort : vals'.length < vals.length := Nat.lt_of_not_le hlt
  have hi := congrFun h (vals'.length + 1)
  simp only [ofValues, List.getElem?_eq_getElem hshort, List.getElem?_eq_none (Nat.le_refl _)] at hi
  exact hsome _ (List.getElem_mem hshort) hi

end Arrays

section Passes

variable {scheme : Kscheme} {pargs : List Kparg} {name : String}

/-- The arguments of the last ENTRY with the name that has not been left. The last argument comes
first in both lists. -/
def recent (scheme : Kscheme) (name : String) : List Kparg → List Kparg
  | [] => []
  | p :: before =>
    if scheme.name p.entry = name then p :: before.takeWhile fun q => q.entry == p.entry
    else recent scheme name before

theorem named_pass (scheme : Kscheme) (name : String) (pargs : List Kparg) :
    pargs.foldl (namedStep scheme name) (0, newtable) =
      ((pargs.filter fun p => scheme.name p.entry == name).length,
        ofValues ((pargs.filter fun p => scheme.name p.entry == name).map Kparg.value)) := by
  induction pargs using List.reverseRecOn with
  | nil =>
    rw [newtable_eq]
    rfl
  | append_singleton pargs p ih =>
    rw [List.foldl_append, ih, List.filter_append]
    simp only [List.foldl_cons, List.foldl_nil, namedStep]
    by_cases hname : scheme.name p.entry = name
    · rw [if_pos hname, List.filter_cons_of_pos (by simpa using hname), List.filter_nil,
        List.map_append, List.length_append, List.map_singleton, ofValues_concat, List.length_map]
      rfl
    · rw [if_neg hname, List.filter_cons_of_neg (by simpa using hname), List.filter_nil,
        List.append_nil]

/-- What is known after some of the arguments. -/
structure ParsInv (scheme : Kscheme) (pargs : List Kparg) (s : ParsState) : Prop where
  lastEntry : s.lastEntry = pargs.getLast?.map Kparg.entry
  arrays : ∀ name, (∃ p ∈ pargs, scheme.name p.entry = name) →
    s.table.arrays name =
      some (ofValues ((recent scheme name pargs.reverse).reverse.map Kparg.value))
  index : ∀ e, s.lastEntry = some e →
    s.i = (recent scheme (scheme.name e) pargs.reverse).length
  names : ∃ listed : List String, s.table.names = ofValues (listed.map some) ∧
    s.k = listed.length ∧ ∀ name, name ∈ listed ↔
      ∃ p ∈ pargs, scheme.container p.entry = false ∧ scheme.name p.entry = name

theorem recent_cons_of_ne {p : Kparg} {before : List Kparg} (h : scheme.name p.entry ≠ name) :
    recent scheme name (p :: before) = recent scheme name before := if_neg h

theorem recent_cons_of_last {p : Kparg}
    (h : pargs.getLast?.map Kparg.entry = some p.entry) :
    recent scheme (scheme.name p.entry) (p :: pargs.reverse) =
      p :: recent scheme (scheme.name p.entry) pargs.reverse := by
  rw [← List.head?_reverse] at h
  cases hrev : pargs.reverse with
  | nil =>
    rw [hrev] at h
    cases h
  | cons q before =>
    rw [hrev] at h
    have hentry : q.entry = p.entry := Option.some.inj h
    simp only [recent, hentry, if_pos, List.takeWhile_cons, beq_self_eq_true]

theorem recent_cons_of_new {p : Kparg}
    (h : pargs.getLast?.map Kparg.entry ≠ some p.entry) :
    recent scheme (scheme.name p.entry) (p :: pargs.reverse) = [p] := by
  rw [← List.head?_reverse] at h
  cases hrev : pargs.reverse with
  | nil =>
    rw [recent, if_pos rfl]
    rfl
  | cons q before =>
    rw [hrev] at h
    have hentry : q.entry ≠ p.entry := fun heq => h (congrArg some heq)
    rw [recent, if_pos rfl, List.takeWhile_cons_of_neg (by simpa using hentry)]

theorem ParsInv.start : ParsInv scheme [] .start where
  lastEntry := rfl
  arrays := by
    rintro name ⟨p, hp, -⟩
    cases hp
  index := by
    intro e he
    cases he
  names := ⟨[], newtable_eq, rfl, by simp⟩

section Step

variable {s : ParsState} (h : ParsInv scheme pargs s) {p : Kparg}

include h

/-- The arrays under other names stay. -/
theorem ParsInv.arrays_of_ne (hne : scheme.name p.entry ≠ name)
    (hname : ∃ q ∈ pargs ++ [p], scheme.name q.entry = name) :
    s.table.arrays name = some (ofValues
      ((recent scheme name (p :: pargs.reverse)).reverse.map Kparg.value)) := by
  rw [recent_cons_of_ne hne]
  apply h.arrays
  obtain ⟨q, hq, hqname⟩ := hname
  rcases List.mem_append.mp hq with hold | hnew
  · exact ⟨q, hold, hqname⟩
  · rw [List.mem_singleton.mp hnew] at hqname
    exact absurd hqname hne

/-- One more argument of the last ENTRY. -/
theorem ParsInv.step_last (hentry : s.lastEntry = some p.entry) :
    ParsInv scheme (pargs ++ [p]) (putValue scheme s p) := by
  have hbefore : pargs.getLast?.map Kparg.entry = some p.entry := h.lastEntry ▸ hentry
  obtain ⟨q, hq, hqp⟩ : ∃ q ∈ pargs, q.entry = p.entry := by
    obtain ⟨q, hq, hqp⟩ := Option.map_eq_some_iff.mp hbefore
    exact ⟨q, List.mem_of_getLast? hq, hqp⟩
  obtain ⟨listed, hnames, hk, hlisted⟩ := h.names
  have hrev : (pargs ++ [p]).reverse = p :: pargs.reverse := List.reverse_append
  refine ⟨by simp [putValue], ?_, ?_, listed, hnames, hk, ?_⟩
  · intro name hname
    dsimp only [putValue]
    rw [hrev]
    by_cases hpn : scheme.name p.entry = name
    · subst hpn
      rw [Function.update_self, h.arrays _ ⟨q, hq, congrArg scheme.name hqp⟩,
        h.index _ hentry, recent_cons_of_last hbefore, List.reverse_cons, List.map_append,
        List.map_singleton, ofValues_concat, List.length_map, List.length_reverse]
      rfl
    · rw [Function.update_of_ne (Ne.symm hpn)]
      exact h.arrays_of_ne hpn hname
  · rintro e ⟨⟩
    rw [hrev, recent_cons_of_last hbefore, List.length_cons, ← h.index _ hentry]
    rfl
  · intro name
    rw [hlisted]
    constructor
    · rintro ⟨r, hr, hrest⟩
      exact ⟨r, List.mem_append_left _ hr, hrest⟩
    · rintro ⟨r, hr, hcontainer, hname⟩
      rcases List.mem_append.mp hr with hold | hnew
      · exact ⟨r, hold, hcontainer, hname⟩
      · rw [List.mem_singleton.mp hnew, ← hqp] at hcontainer hname
        exact ⟨q, hq, hcontainer, hname⟩

/-- The name of another ENTRY is listed unless it is a container. -/
theorem ParsInv.names_new : ∃ listed : List String,
    (newEntry scheme s p.entry).table.names = ofValues (listed.map some) ∧
    (newEntry scheme s p.entry).k = listed.length ∧ ∀ name, name ∈ listed ↔
      ∃ q ∈ pargs ++ [p], scheme.container q.entry = false ∧ scheme.name q.entry = name := by
  obtain ⟨listed, hnames, hk, hlisted⟩ := h.names
  unfold newEntry
  by_cases hcontainer : scheme.container p.entry = true
  · rw [if_pos hcontainer]
    refine ⟨listed, hnames, hk, fun name => ?_⟩
    rw [hlisted]
    simp [or_and_right, exists_or, hcontainer]
  · rw [if_neg hcontainer]
    refine ⟨listed ++ [scheme.name p.entry], ?_, ?_, fun name => ?_⟩
    · rw [List.map_append, List.map_singleton, ofValues_concat, List.length_map, ← hk, ← hnames]
    · rw [List.length_append, ← hk]
      rfl
    · rw [List.mem_append, hlisted, List.mem_singleton]
      simp only [List.mem_append, List.mem_singleton, or_and_right, exists_or, exists_eq_left]
      apply or_congr_right
      constructor
      · rintro rfl
        exact ⟨by simpa using hcontainer, rfl⟩
      · rintro ⟨-, rfl⟩
        rfl

/-- The first argument of an ENTRY after another one. -/
theorem ParsInv.step_new (hentry : s.lastEntry ≠ some p.entry) :
    ParsInv scheme (pargs ++ [p]) (putValue scheme (newEntry scheme s p.entry) p) := by
  have hbefore : pargs.getLast?.map Kparg.entry ≠ some p.entry := h.lastEntry ▸ hentry
  have hrev : (pargs ++ [p]).reverse = p :: pargs.reverse := List.reverse_append
  have harrays : (newEntry scheme s p.entry).table.arrays =
      Function.update s.table.arrays (scheme.name p.entry) (some newtable) := by
    unfold newEntry
    split <;> rfl
  have hindex : (newEntry scheme s p.entry).i = 0 := by
    unfold newEntry
    split <;> rfl
  refine ⟨by simp [putValue], ?_, ?_, h.names_new⟩
  · intro name hname
    dsimp only [putValue]
    rw [harrays, hindex, hrev]
    by_cases hpn : scheme.name p.entry = name
    · subst hpn
      rw [Function.update_self, Function.update_self, recent_cons_of_new hbefore, newtable_eq]
      exact congrArg some (ofValues_concat [] p.value).symm
    · rw [Function.update_of_ne (Ne.symm hpn), Function.update_of_ne (Ne.symm hpn)]
      exact h.arrays_of_ne hpn hname
  · rintro e ⟨⟩
    rw [hrev, recent_cons_of_new hbefore]
    exact congrArg (· + 1) hindex

end Step

theorem parsInv_pass (scheme : Kscheme) (pargs : List Kparg) :
    ParsInv scheme pargs (pargs.foldl (parsStep scheme) .start) := by
  induction pargs using List.reverseRecOn with
  | nil => exact .start
  | append_singleton pargs p ih =>
    rw [List.foldl_append, List.foldl_cons, List.foldl_nil, parsStep]
    split
    · rename_i hentry
      exact ih.step_last hentry
    · rename_i hentry
      exact ih.step_new hentry

/-- The recent arguments stand together, and only arguments with other names come later. -/
theorem recent_split {before : List Kparg} (h : ∃ p ∈ before, scheme.name p.entry = name) :
    ∃ later earlier e, before = later ++ recent scheme name before ++ earlier ∧
      scheme.name e = name ∧ (∀ p ∈ recent scheme name before, p.entry = e) ∧
        ∀ p ∈ later, scheme.name p.entry ≠ name := by
  induction before with
  | nil =>
    obtain ⟨p, hp, -⟩ := h
    cases hp
  | cons q before ih =>
    by_cases hname : scheme.name q.entry = name
    · rw [recent, if_pos hname]
      refine ⟨[], before.dropWhile fun r => r.entry == q.entry, q.entry, ?_, hname, ?_, by simp⟩
      · rw [List.nil_append, List.cons_append, List.takeWhile_append_dropWhile]
      · intro p hp
        rcases List.mem_cons.mp hp with rfl | hp
        · rfl
        · exact eq_of_beq (List.all_eq_true.mp List.all_takeWhile p hp)
    · obtain ⟨p, hp, hpname⟩ := h
      obtain ⟨later, earlier, e, hsplit, hrest⟩ := ih (by
        rcases List.mem_cons.mp hp with rfl | hp
        · exact absurd hpname hname
        · exact ⟨p, hp, hpname⟩)
      rw [recent_cons_of_ne hname]
      refine ⟨q :: later, earlier, e, ?_, hrest.1, hrest.2.1, ?_⟩
      · rw [List.cons_append, List.cons_append, ← hsplit]
      · intro r hr
        rcases List.mem_cons.mp hr with rfl | hr
        · exact hname
        · exact hrest.2.2 r hr

/-- If the recent arguments are all, they stand together. -/
theorem together_of_recent (h : ∃ p ∈ pargs, scheme.name p.entry = name)
    (hall : (pargs.filter fun p => scheme.name p.entry == name).length ≤
      (recent scheme name pargs.reverse).length) : Together scheme pargs name := by
  obtain ⟨p, hp, hname⟩ := h
  obtain ⟨later, earlier, e, hsplit, he, hrun, hlater⟩ :=
    recent_split ⟨p, List.mem_reverse.mpr hp, hname⟩
  generalize recent scheme name pargs.reverse = run at hall hsplit hrun
  have hforward : pargs = earlier.reverse ++ run.reverse ++ later.reverse := by
    rw [← List.reverse_reverse pargs, hsplit]
    simp
  have hcount : (pargs.filter fun p => scheme.name p.entry == name).length =
      (earlier.filter fun p => scheme.name p.entry == name).length + run.length := by
    have hnone : later.filter (fun p => scheme.name p.entry == name) = [] :=
      List.filter_eq_nil_iff.mpr fun q hq => by simpa using hlater q hq
    have hself : run.filter (fun p => scheme.name p.entry == name) = run :=
      List.filter_eq_self.mpr fun q hq => by
        rw [hrun q hq, he]
        exact beq_self_eq_true name
    rw [hforward, List.filter_append, List.filter_append, List.filter_reverse, List.filter_reverse,
      List.filter_reverse, hnone, hself, List.reverse_nil, List.append_nil, List.length_append,
      List.length_reverse, List.length_reverse]
  have hearlier : earlier.filter (fun p => scheme.name p.entry == name) = [] :=
    List.eq_nil_of_length_eq_zero (by omega)
  refine ⟨earlier.reverse, run.reverse, later.reverse, e, hforward, he,
    fun q hq => hrun q (List.mem_reverse.mp hq), fun q hq => ?_⟩
  rcases List.mem_append.mp hq with hq | hq
  · simpa using List.filter_eq_nil_iff.mp hearlier q (List.mem_reverse.mp hq)
  · exact hlater q (List.mem_reverse.mp hq)

theorem recent_append_of_ne {later : List Kparg} (earlier : List Kparg)
    (h : ∀ p ∈ later, scheme.name p.entry ≠ name) :
    recent scheme name (later ++ earlier) = recent scheme name earlier := by
  induction later with
  | nil => rfl
  | cons p later ih =>
    obtain ⟨hp, hrest⟩ := List.forall_mem_cons.mp h
    rw [List.cons_append, recent_cons_of_ne hp, ih hrest]

/-- Arguments that stand together are the recent ones. -/
theorem Together.recent (h : Together scheme pargs name) :
    (recent scheme name pargs.reverse).reverse =
      pargs.filter fun p => scheme.name p.entry == name := by
  obtain ⟨before, run, after, e, rfl, hname, hrun, hother⟩ := h
  have hbefore : ∀ p ∈ before, scheme.name p.entry ≠ name := fun p hp =>
    hother p (List.mem_append_left _ hp)
  have hafter : ∀ p ∈ after, scheme.name p.entry ≠ name := fun p hp =>
    hother p (List.mem_append_right _ hp)
  have hfilter : (before ++ run ++ after).filter (fun p => scheme.name p.entry == name) = run := by
    have hnone : before.filter (fun p => scheme.name p.entry == name) = [] :=
      List.filter_eq_nil_iff.mpr fun p hp => by simpa using hbefore p hp
    have hnone' : after.filter (fun p => scheme.name p.entry == name) = [] :=
      List.filter_eq_nil_iff.mpr fun p hp => by simpa using hafter p hp
    have hself : run.filter (fun p => scheme.name p.entry == name) = run :=
      List.filter_eq_self.mpr fun p hp => by
        rw [hrun p hp, hname]
        exact beq_self_eq_true name
    rw [List.filter_append, List.filter_append, hnone, hnone', hself, List.nil_append,
      List.append_nil]
  have hreverse : (before ++ run ++ after).reverse =
      after.reverse ++ (run.reverse ++ before.reverse) := by simp
  rw [hfilter, hreverse,
    recent_append_of_ne _ fun p hp => hafter p (List.mem_reverse.mp hp)]
  cases hlast : run.reverse with
  | nil =>
    have hnone := recent_append_of_ne [] fun p hp => hbefore p (List.mem_reverse.mp hp)
    rw [List.append_nil] at hnone
    rw [List.nil_append, hnone, List.reverse_eq_nil_iff.mp hlast]
    rfl
  | cons p rest =>
    have hentry : ∀ q ∈ p :: rest, q.entry = e := fun q hq =>
      hrun q (List.mem_reverse.mp (hlast ▸ hq))
    obtain ⟨hp, hrest⟩ := List.forall_mem_cons.mp hentry
    have htake : (rest ++ before.reverse).takeWhile (fun q => q.entry == p.entry) = rest := by
      rw [List.takeWhile_append_of_pos fun q hq => by rw [hrest q hq, hp]; exact beq_self_eq_true e]
      cases hfirst : before.reverse with
      | nil => simp
      | cons q first =>
        have hq : q.entry ≠ p.entry := by
          intro heq
          rw [hp] at heq
          exact hbefore q (List.mem_reverse.mp (hfirst ▸ List.mem_cons_self)) (heq ▸ hname)
        rw [List.takeWhile_cons_of_neg (by simpa using hq), List.append_nil]
    rw [List.cons_append, LuaPars.recent, if_pos (hp ▸ hname), htake, ← hlast,
      List.reverse_reverse]

/-- The two forms agree on a name if and only if its arguments stand together. -/
theorem parsAgree_iff {V : Oracle} {pargv : Kpargv} (h : Ksession.Parsed scheme V pargv) {p : Kparg}
    (hp : p ∈ pargv.pargs) :
    ParsAgree scheme pargv (scheme.name p.entry) ↔
      Together scheme pargv.pargs (scheme.name p.entry) := by
  have hinv := parsInv_pass scheme pargv.pargs
  have harrays := hinv.arrays _ ⟨p, hp, rfl⟩
  have hnamed := named_pass scheme (scheme.name p.entry) pargv.pargs
  constructor
  · rintro ⟨t, a, hall, -, hsame, hvalues, -⟩
    obtain rfl := LuaResult.table.inj hall
    by_cases hnull : ∀ q ∈ pargv.pargs, q.value ≠ none
    · apply together_of_recent ⟨p, hp, rfl⟩
      have heq := Option.some.inj (harrays.symm.trans hsame)
      rw [hvalues] at heq
      have hle := length_le_of_ofValues heq.symm fun value hvalue => by
        obtain ⟨q, hq, rfl⟩ := List.mem_map.mp hvalue
        exact hnull q (List.mem_filter.mp hq).1
      simpa [Kpargv.findMulti] using hle
    · -- The only argument has no value.
      obtain ⟨q, hq, hvalue⟩ : ∃ q ∈ pargv.pargs, q.value = none := by simpa using hnull
      have hpargs := h.pargs_eq_singleton hq hvalue
      rw [hpargs, List.mem_singleton] at hp
      subst hp
      exact ⟨[], [p], [], p.entry, hpargs, rfl, by simp, by simp⟩
  · intro htogether
    obtain ⟨listed, hnames, -, hlisted⟩ := hinv.names
    refine ⟨_, _, rfl, rfl, ?_, ?_, ⟨listed, hnames, hlisted⟩, ?_⟩
    · simp only [Option.map_some, Option.getD_some]
      rw [harrays, hnamed, htogether.recent]
    · simp only [Option.map_some, Option.getD_some]
      rw [hnamed]
      rfl
    · unfold luaBPar
      simp only [Option.map_some, Option.getD_some]
      rw [hnamed]
      have hfirst := @List.head?_filter _ (fun q => scheme.name q.entry == scheme.name p.entry)
        pargv.pargs
      cases hfind : pargv.pargs.find? fun q => scheme.name q.entry == scheme.name p.entry with
      | none =>
        have hnone := List.find?_eq_none.mp hfind p hp
        simp at hnone
      | some q =>
        rw [hfind] at hfirst
        rw [if_neg (by decide)]
        simp only [ofValues, ← List.head?_eq_getElem?, List.head?_map, hfirst]
        rfl

end Passes

def sampleEntry : EntryId → Kentry
  | 0 => { Kentry.new "view" 0 with container := true, mode := .switch }
  | 1 => Kentry.new "route" 1
  | 2 => { Kentry.new "hop" 2 with container := true, max := 2 }
  | 3 => Kentry.new "via" 3
  | 4 => Kentry.new "metric" 4
  | n => { Kentry.new "__ptype" n with purpose := .ptype }

def sampleBody : BodyId → Kbody
  | 0 => { Kbody.new with entrys := [1] }
  | 1 => ⟨[2, 5], [.new], [], fun purpose => if purpose = .ptype then some 5 else none⟩
  | 2 => { Kbody.new with entrys := [3, 4] }
  | 3 => ⟨[6], [], [], fun purpose => if purpose = .ptype then some 6 else none⟩
  | 4 => ⟨[7], [], [], fun purpose => if purpose = .ptype then some 7 else none⟩
  | _ => Kbody.new

/-- A command with a sequence of two parameters, which may be repeated. -/
def sampleScheme : Kscheme := ⟨[], [0], sampleEntry, sampleBody⟩

/-- The name of the first parameter has two values, from two rounds of the sequence. -/
theorem parsAgree_iff_sample : ∃ pargv session',
    Ksession.parseLine sampleScheme Ksession.stringPtype Ksession.sampleRoot
      ⟨["route", "a", "1", "b", "2"], false⟩ .exec false 8 = some (pargv, session') ∧
    (pargv.findMulti sampleScheme "via").map Kparg.value = [some "a", some "b"] ∧
    (ParsAgree sampleScheme pargv "via" ↔ Together sampleScheme pargv.pargs "via") := by
  have hrun : ((Ksession.parseLine sampleScheme Ksession.stringPtype Ksession.sampleRoot
      ⟨["route", "a", "1", "b", "2"], false⟩ .exec false 8).map fun r =>
        (r.1.pargs[1]?, (r.1.findMulti sampleScheme "via").map Kparg.value)) =
      some (some ⟨3, some "a"⟩, [some "a", some "b"]) := by decide
  obtain ⟨⟨pargv, session'⟩, hparse, hends⟩ := Option.map_eq_some_iff.mp hrun
  obtain ⟨hvia, hvalues⟩ := Prod.mk.inj hends
  exact ⟨pargv, session', hparse, hvalues,
    parsAgree_iff (.line hparse) (List.mem_of_getElem? hvia)⟩

/-- The second round of the sequence leaves its own value alone. -/
theorem second_round_replaces : ∃ pargv session' t a,
    Ksession.parseLine sampleScheme Ksession.stringPtype Ksession.sampleRoot
      ⟨["route", "a", "1", "b", "2"], false⟩ .exec false 8 = some (pargv, session') ∧
    luaBPars sampleScheme none (some pargv) = .table t ∧
    luaBPars sampleScheme (some "via") (some pargv) = .array a ∧
    ((t.arrays "via").map fun array => (array 1, array 2)) = some (some "b", none) ∧
    (a 1, a 2) = (some "a", some "b") ∧ ¬ParsAgree sampleScheme pargv "via" := by
  have hrun : ((Ksession.parseLine sampleScheme Ksession.stringPtype Ksession.sampleRoot
      ⟨["route", "a", "1", "b", "2"], false⟩ .exec false 8).map fun r =>
        ((((r.1.pargs.foldl (parsStep sampleScheme) .start).table.arrays "via").map fun array =>
            (array 1, array 2)),
          ((r.1.pargs.foldl (namedStep sampleScheme "via") (0, newtable)).2 1,
            (r.1.pargs.foldl (namedStep sampleScheme "via") (0, newtable)).2 2))) =
      some (some (some "b", none), (some "a", some "b")) := by decide +kernel
  obtain ⟨⟨pargv, session'⟩, hparse, hends⟩ := Option.map_eq_some_iff.mp hrun
  obtain ⟨htable, harray⟩ := Prod.mk.inj hends
  refine ⟨pargv, session', _, _, hparse, rfl, rfl, htable, harray, ?_⟩
  rintro ⟨t, a, ht, ha, hsame, -⟩
  obtain rfl := LuaResult.table.inj ht
  obtain rfl := LuaResult.array.inj ha
  have hpair := congrArg (Option.map fun array : LuaArray => (array 1, array 2)) hsame
  have hclash := htable.symm.trans (hpair.trans (congrArg some harray))
  exact absurd hclash (by decide)

end LuaPars

end Klish
