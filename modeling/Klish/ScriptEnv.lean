import Klish.Lib.Environ
import Klish.ParsedArgs

/-!
# The environment of a script

The variables are named after the parameters, but the arguments are taken ENTRY by ENTRY. A name
that two ENTRYs share gets the values of both, one over the other.
-/

namespace Klish

namespace ScriptEnv

/-- The variable of all values of a parameter. -/
def paramVar (pre name : String) : String := pre ++ "PARAM_" ++ name

section Populate

variable (cEscQuote : String → String) (scheme : Kscheme) (pre : String)

/-- The loop over the arguments from the current one on. The number is an unsigned int, and no line
has so many words. -/
def populateValues (entry : EntryId) :
    List Kparg → ℕ → Option String → Environ → Option (Option String × Environ)
  | [], _, wholeParam, env => some (wholeParam, env)
  | tmpParg :: iterAfter, num, wholeParam, env =>
    if tmpParg.entry ≠ entry then populateValues entry iterAfter num wholeParam env
    else
      match tmpParg.value with
      -- There is no string to set the variable to.
      | none => none
      | some value =>
        let env := env.setenv (numbered (paramVar pre (scheme.name entry)) num) value
        let qvalue := cEscQuote value
        let wholeParam := (wholeParam.map (· ++ " ")).getD "" ++ qvalue
        populateValues entry iterAfter (num + 1) (some wholeParam) env

/-- The loop over the arguments, with those before the current one. -/
def populateParams : List Kparg → List Kparg → Environ → Option Environ
  | _, [], env => some env
  | before, parg :: iter, env =>
    -- PTYPE can contain parg with NULL value
    if parg.value = none then populateParams (before ++ [parg]) iter env
    else if before.any fun tmpParg => tmpParg.entry == parg.entry then
      populateParams (before ++ [parg]) iter env
    else
      match populateValues cEscQuote scheme pre parg.entry (parg :: iter) 0 none env with
      | some (some wholeParam, env) =>
        populateParams (before ++ [parg]) iter
          (env.setenv (paramVar pre (scheme.name parg.entry)) wholeParam)
      | some (none, _) | none => none

/-- `populate_env_kpargv` for a context with a line and with arguments. -/
def populateEnvKpargv (line : Option String) (pargv : Kpargv) (env : Environ) : Option Environ :=
  let env := match line with
    | none => env
    | some line => env.setenv (pre ++ "LINE") line
  let env := match pargv.command with
    | none => env
    | some cmd => env.setenv (pre ++ "COMMAND") (scheme.name cmd)
  populateParams cEscQuote scheme pre [] pargv.pargs env

end Populate

/-- The values of the arguments with the name. -/
def values (scheme : Kscheme) (pargv : Kpargv) (name : String) : List String :=
  (pargv.findMulti scheme name).filterMap Kparg.value

/-- The quoted values with spaces between them. -/
def whole (cEscQuote : String → String) (vals : List String) : Option String :=
  if vals = [] then none else some (" ".intercalate (vals.map cEscQuote))

/-- The variables of the name are those of the values. -/
structure Agrees (cEscQuote : String → String) (pre : String) (env : Environ) (name : String)
    (vals : List String) : Prop where
  indexed : ∀ i ≤ vals.length, env.getenv (numbered (paramVar pre name) i) = vals[i]?
  whole : env.getenv (paramVar pre name) = whole cEscQuote vals

/-- The names of all ENTRYs have the variables of their values. -/
def EnvAgrees (cEscQuote : String → String) (scheme : Kscheme) (pre : String)
    (line : Option String) (pargv : Kpargv) (env : Environ) : Prop :=
  ∃ env', populateEnvKpargv cEscQuote scheme pre line pargv env = some env' ∧
    ∀ e, Agrees cEscQuote pre env' (scheme.name e) (values scheme pargv (scheme.name e))

/-- The ENTRY has an argument with a value. -/
def Filled (pargv : Kpargv) (e : EntryId) : Prop :=
  ∃ parg ∈ pargv.pargs, parg.entry = e ∧ parg.value ≠ none

/-- No variable of a name gets anything else. -/
structure Undisturbed (scheme : Kscheme) (pre : String) (pargv : Kpargv) (env : Environ) :
    Prop where
  /-- The values of a name are those of one ENTRY. -/
  alone : ∀ e f, Filled pargv e → Filled pargv f → scheme.name e = scheme.name f → e = f
  settable : ∀ e, Filled pargv e → '=' ∉ (paramVar pre (scheme.name e)).toList
  /-- No name is that of a variable with the number of a value. -/
  apart : ∀ e f i, scheme.name f = numbered (scheme.name e) i →
    (values scheme pargv (scheme.name e)).length ≤ i
  /-- Nor does it have values when it is that of the first missing variable. -/
  ended : ∀ e f, scheme.name f =
      numbered (scheme.name e) (values scheme pargv (scheme.name e)).length →
    values scheme pargv (scheme.name f) = []
  /-- The environment does not have a variable that is to be missing. -/
  clean : ∀ e, env.getenv (numbered (paramVar pre (scheme.name e))
      (values scheme pargv (scheme.name e)).length) = none ∧
    (values scheme pargv (scheme.name e) = [] → env.getenv (paramVar pre (scheme.name e)) = none)

section Settings

variable {cEscQuote : String → String} {scheme : Kscheme} {pre : String}

@[simp] theorem numbered_paramVar (name : String) (i : ℕ) :
    numbered (paramVar pre name) i = paramVar pre (numbered name i) := by
  unfold numbered paramVar
  simp only [String.append_assoc]

theorem paramVar_inj {name name' : String} :
    paramVar pre name = paramVar pre name' ↔ name = name' := by
  unfold paramVar
  constructor
  · intro h
    have hchars := congrArg String.toList h
    rw [String.toList_append, String.toList_append (t := name')] at hchars
    exact String.toList_inj.mp (List.append_cancel_left hchars)
  · rintro rfl
    rfl

theorem isVariable_paramVar {name : String} :
    IsVariable (paramVar pre name) ↔ '=' ∉ (paramVar pre name).toList := by
  have hne : paramVar pre name ≠ "" := by
    intro hempty
    have hchars := congrArg String.length hempty
    simp [paramVar] at hchars
  exact and_iff_right hne

/-- The values of the arguments of one ENTRY. -/
def entryValues (pargs : List Kparg) (e : EntryId) : List String :=
  (pargs.filter fun parg => parg.entry == e).filterMap Kparg.value

theorem entryValues_cons_of_ne {parg : Kparg} {pargs : List Kparg} {e : EntryId}
    (h : parg.entry ≠ e) : entryValues (parg :: pargs) e = entryValues pargs e := by
  unfold entryValues
  rw [List.filter_cons_of_neg (by simpa using h)]

theorem entryValues_cons_self {e : EntryId} {value : String} (pargs : List Kparg) :
    entryValues (⟨e, some value⟩ :: pargs) e = value :: entryValues pargs e := by
  unfold entryValues
  rw [List.filter_cons, if_pos (beq_self_eq_true e), List.filterMap_cons]

/-- The joined list grows by a value. -/
theorem whole_concat (quoted : List String) (qvalue : String) :
    ((if quoted = [] then none else some (" ".intercalate quoted)).map (· ++ " ")).getD "" ++
      qvalue = " ".intercalate (quoted ++ [qvalue]) := by
  by_cases h : quoted = []
  · subst h
    simp
  · rw [if_neg h, String.intercalate_append_of_ne_nil h (by simp)]
    simp

variable (cEscQuote scheme pre) in
/-- The variables that the arguments of an ENTRY set. -/
def entrySets (e : EntryId) (vals : List String) : List (String × String) :=
  vals.zipIdx.map (fun val => (numbered (paramVar pre (scheme.name e)) val.2, val.1)) ++
    [(paramVar pre (scheme.name e), " ".intercalate (vals.map cEscQuote))]

variable (cEscQuote scheme pre) in
theorem populateValues_spec (e : EntryId) {pargs : List Kparg} (num : ℕ) (done : List String)
    (env : Environ) (h : ∀ parg ∈ pargs, parg.value ≠ none) :
    populateValues cEscQuote scheme pre e pargs num
        (if done = [] then none else some (" ".intercalate done)) env =
      some (if done ++ (entryValues pargs e).map cEscQuote = [] then none
          else some (" ".intercalate (done ++ (entryValues pargs e).map cEscQuote)),
        env.setAll (((entryValues pargs e).zipIdx num).map fun val =>
          (numbered (paramVar pre (scheme.name e)) val.2, val.1))) := by
  induction pargs generalizing num done env with
  | nil =>
    rw [populateValues]
    simp [entryValues]
  | cons parg pargs ih =>
    obtain ⟨hvalue, hrest⟩ := List.forall_mem_cons.mp h
    rw [populateValues]
    by_cases hentry : parg.entry = e
    · obtain ⟨entry, _ | value⟩ := parg
      · exact absurd rfl hvalue
      · dsimp only at hentry
        subst hentry
        rw [if_neg (not_not.mpr rfl), entryValues_cons_self]
        dsimp only
        have hnext := ih (num + 1) (done ++ [cEscQuote value])
          (env.setenv (numbered (paramVar pre (scheme.name entry)) num) value) hrest
        rw [if_neg (by simp)] at hnext
        rw [whole_concat, hnext, List.zipIdx_cons, List.map_cons, List.map_cons,
          Environ.setAll_cons, List.append_assoc, List.singleton_append]
    · rw [if_pos hentry, entryValues_cons_of_ne hentry]
      exact ih num done env hrest

variable (cEscQuote scheme pre) in
/-- Each ENTRY is populated at its first argument. -/
theorem populateParams_spec {pargs : List Kparg} (before : List Kparg) (env : Environ)
    (h : ∀ parg ∈ pargs, parg.value ≠ none) :
    ∃ sets, populateParams cEscQuote scheme pre before pargs env = some (env.setAll sets) ∧
      ∀ set, set ∈ sets ↔ ∃ e, (∃ parg ∈ pargs, parg.entry = e) ∧
        (∀ parg ∈ before, parg.entry ≠ e) ∧
          set ∈ entrySets cEscQuote scheme pre e (entryValues pargs e) := by
  induction pargs generalizing before env with
  | nil => exact ⟨[], rfl, by simp⟩
  | cons parg pargs ih =>
    obtain ⟨hvalue, hrest⟩ := List.forall_mem_cons.mp h
    rw [populateParams, if_neg hvalue]
    -- What is said of the later ENTRYs, which are not that of this argument.
    have hlater : ∀ {set : String × String},
        (∃ e, (∃ later ∈ pargs, later.entry = e) ∧
          (∀ earlier ∈ before ++ [parg], earlier.entry ≠ e) ∧
            set ∈ entrySets cEscQuote scheme pre e (entryValues pargs e)) ↔
        ∃ e, e ≠ parg.entry ∧ (∃ later ∈ parg :: pargs, later.entry = e) ∧
          (∀ earlier ∈ before, earlier.entry ≠ e) ∧
            set ∈ entrySets cEscQuote scheme pre e (entryValues (parg :: pargs) e) := by
      intro set
      apply exists_congr
      intro e
      constructor
      · rintro ⟨⟨later, hmem, heq⟩, hbefore, hset⟩
        have hne : parg.entry ≠ e := hbefore parg (by simp)
        rw [← entryValues_cons_of_ne hne] at hset
        exact ⟨hne.symm, ⟨later, List.mem_cons_of_mem _ hmem, heq⟩,
          fun earlier hearlier => hbefore earlier (List.mem_append_left _ hearlier), hset⟩
      · rintro ⟨hne, ⟨later, hmem, heq⟩, hbefore, hset⟩
        rw [entryValues_cons_of_ne hne.symm] at hset
        refine ⟨?_, ?_, hset⟩
        · rcases List.mem_cons.mp hmem with rfl | hmem
          · exact absurd heq.symm hne
          · exact ⟨later, hmem, heq⟩
        · intro earlier hearlier
          rcases List.mem_append.mp hearlier with hold | hnew
          · exact hbefore earlier hold
          · rw [List.mem_singleton.mp hnew]
            exact hne.symm
    by_cases hold : before.any (fun tmpParg => tmpParg.entry == parg.entry) = true
    · obtain ⟨earlier, hearlier, heq⟩ := List.any_eq_true.mp hold
      obtain ⟨sets, hsets, hmem⟩ := ih (before ++ [parg]) env hrest
      rw [if_pos hold]
      refine ⟨sets, hsets, fun set => ?_⟩
      rw [hmem, hlater]
      apply exists_congr
      intro e
      refine ⟨fun hset => hset.2, fun hset => ⟨?_, hset⟩⟩
      rintro rfl
      exact hset.2.1 earlier hearlier (eq_of_beq heq)
    · rw [if_neg hold]
      have hnew : ∀ earlier ∈ before, earlier.entry ≠ parg.entry := by
        intro earlier hearlier heq
        exact hold (List.any_eq_true.mpr ⟨earlier, hearlier, beq_iff_eq.mpr heq⟩)
      have hvals : entryValues (parg :: pargs) parg.entry ≠ [] := by
        obtain ⟨entry, _ | value⟩ := parg
        · exact absurd rfl hvalue
        · rw [entryValues_cons_self]
          exact List.cons_ne_nil _ _
      have hpopulated := populateValues_spec cEscQuote scheme pre parg.entry 0 [] env h
      rw [if_pos rfl, List.nil_append, if_neg (by simpa using hvals)] at hpopulated
      rw [hpopulated]
      dsimp only
      obtain ⟨sets, hsets, hmem⟩ := ih (before ++ [parg])
        (env.setAll (entrySets cEscQuote scheme pre parg.entry
          (entryValues (parg :: pargs) parg.entry))) hrest
      have hself : ((env.setAll ((entryValues (parg :: pargs) parg.entry).zipIdx.map fun val =>
          (numbered (paramVar pre (scheme.name parg.entry)) val.2, val.1))).setenv
            (paramVar pre (scheme.name parg.entry))
            (" ".intercalate ((entryValues (parg :: pargs) parg.entry).map cEscQuote))) =
          env.setAll (entrySets cEscQuote scheme pre parg.entry
            (entryValues (parg :: pargs) parg.entry)) := by
        unfold entrySets
        rw [Environ.setAll_append]
        rfl
      refine ⟨entrySets cEscQuote scheme pre parg.entry
        (entryValues (parg :: pargs) parg.entry) ++ sets, ?_, fun set => ?_⟩
      · rw [hself, hsets, Environ.setAll_append]
      · rw [List.mem_append, hmem, hlater]
        constructor
        · rintro (hset | ⟨e, -, hset⟩)
          · exact ⟨parg.entry, ⟨parg, List.mem_cons_self, rfl⟩, hnew, hset⟩
          · exact ⟨e, hset⟩
        · rintro ⟨e, hset⟩
          by_cases he : e = parg.entry
          · subst he
            exact .inl hset.2.2
          · exact .inr ⟨e, he, hset⟩

/-- The arguments of the ENTRY set the variable of the name to the value. -/
def Sets (cEscQuote : String → String) (scheme : Kscheme) (pargs : List Kparg) (e : EntryId)
    (name value : String) : Prop :=
  (name = scheme.name e ∧ value = " ".intercalate ((entryValues pargs e).map cEscQuote)) ∨
    ∃ i, name = numbered (scheme.name e) i ∧ (entryValues pargs e)[i]? = some value

theorem mem_entrySets {pargs : List Kparg} {e : EntryId} {name value : String} :
    (paramVar pre name, value) ∈ entrySets cEscQuote scheme pre e (entryValues pargs e) ↔
      Sets cEscQuote scheme pargs e name value := by
  unfold entrySets Sets
  rw [List.mem_append, List.mem_singleton, Prod.mk.injEq, paramVar_inj, List.mem_map, or_comm]
  apply or_congr_right
  constructor
  · rintro ⟨⟨val, i⟩, hmem, heq⟩
    obtain ⟨hname, rfl⟩ := Prod.mk.inj heq
    rw [numbered_paramVar, paramVar_inj] at hname
    exact ⟨i, hname.symm, List.mk_mem_zipIdx_iff_getElem?.mp hmem⟩
  · rintro ⟨i, rfl, hval⟩
    exact ⟨(value, i), List.mk_mem_zipIdx_iff_getElem?.mpr hval,
      Prod.ext (numbered_paramVar _ i) rfl⟩

/-- A variable that arguments set has the value of some of them, and any other one is kept. -/
structure Populates (cEscQuote : String → String) (scheme : Kscheme) (pre : String)
    (pargv : Kpargv) (env env' : Environ) : Prop where
  set : ∀ {e : EntryId} {name value : String}, Filled pargv e →
    Sets cEscQuote scheme pargv.pargs e name value → IsVariable (paramVar pre name) →
      ∃ f last, Filled pargv f ∧ Sets cEscQuote scheme pargv.pargs f name last ∧
        env'.getenv (paramVar pre name) = some last
  kept : ∀ {name : String}, (∀ e value, Filled pargv e →
    ¬Sets cEscQuote scheme pargv.pargs e name value) →
      env'.getenv (paramVar pre name) = env.getenv (paramVar pre name)

variable {V : Oracle} {pargv : Kpargv}

variable (cEscQuote pre) in
theorem populateEnvKpargv_populates (h : Ksession.Parsed scheme V pargv) (line : Option String)
    (env : Environ) :
    ∃ env', populateEnvKpargv cEscQuote scheme pre line pargv env = some env' ∧
      Populates cEscQuote scheme pre pargv env env' := by
  -- The line and the command have variables of their own.
  have hother : ∀ {env : Environ} {rest value name : String}, rest.toList.head? ≠ some 'P' →
      (env.setenv (pre ++ rest) value).getenv (paramVar pre name) =
        env.getenv (paramVar pre name) := by
    intro env rest value name hrest
    apply Environ.getenv_setenv_of_ne
    intro heq
    have hchars := congrArg String.toList heq
    rw [String.toList_append, paramVar, String.append_assoc, String.toList_append] at hchars
    have htail := List.append_cancel_left hchars
    rw [← htail] at hrest
    exact hrest (by simp)
  have hstart : ∃ start : Environ,
      populateEnvKpargv cEscQuote scheme pre line pargv env =
        populateParams cEscQuote scheme pre [] pargv.pargs start ∧
      ∀ name, start.getenv (paramVar pre name) = env.getenv (paramVar pre name) := by
    unfold populateEnvKpargv
    refine ⟨_, rfl, fun name => ?_⟩
    cases line <;> cases pargv.command
    all_goals simp (disch := decide) only [hother]
  obtain ⟨start, hrun, hsame⟩ := hstart
  rw [hrun]
  by_cases hnull : ∀ parg ∈ pargv.pargs, parg.value ≠ none
  · obtain ⟨sets, hsets, hmem⟩ := populateParams_spec cEscQuote scheme pre [] start hnull
    have hfilled : ∀ {e}, Filled pargv e ↔ ∃ parg ∈ pargv.pargs, parg.entry = e := by
      intro e
      constructor
      · rintro ⟨parg, hparg, hentry, -⟩
        exact ⟨parg, hparg, hentry⟩
      · rintro ⟨parg, hparg, hentry⟩
        exact ⟨parg, hparg, hentry, hnull parg hparg⟩
    have hiff : ∀ {name value}, (paramVar pre name, value) ∈ sets ↔
        ∃ e, Filled pargv e ∧ Sets cEscQuote scheme pargv.pargs e name value := by
      intro name value
      rw [hmem]
      apply exists_congr
      intro e
      rw [hfilled, mem_entrySets]
      simp
    refine ⟨_, hsets, ⟨?_, ?_⟩⟩
    · intro e name value he hset hvar
      obtain ⟨last, hlast, hget⟩ :=
        Environ.getenv_setAll_of_mem start hvar (hiff.mpr ⟨e, he, hset⟩)
      obtain ⟨f, hf, hfset⟩ := hiff.mp hlast
      exact ⟨f, last, hf, hfset, hget⟩
    · intro name hnone
      rw [Environ.getenv_setAll_of_notMem, hsame]
      intro value hvalue
      obtain ⟨e, he, hset⟩ := hiff.mp hvalue
      exact hnone e value he hset
  · -- The only argument has no value.
    obtain ⟨parg, hparg, hvalue⟩ : ∃ parg ∈ pargv.pargs, parg.value = none := by
      simpa using hnull
    have hpargs := h.pargs_eq_singleton hparg hvalue
    have hempty : ∀ e, ¬Filled pargv e := by
      rintro e ⟨other, hother, -, hsome⟩
      rw [hpargs] at hother
      rw [List.mem_singleton.mp hother] at hsome
      exact hsome hvalue
    refine ⟨start, ?_, ⟨fun he => absurd he (hempty _), fun _ => hsame _⟩⟩
    rw [hpargs, populateParams, if_pos hvalue]
    rfl

end Settings

section Agreement

variable {scheme : Kscheme} {V : Oracle} {pre : String} {pargv : Kpargv} {env : Environ}
  {line : Option String}

theorem values_ne_nil_iff {name : String} : values scheme pargv name ≠ [] ↔
    ∃ e, Filled pargv e ∧ scheme.name e = name := by
  unfold values Kpargv.findMulti
  constructor
  · intro hne
    obtain ⟨value, hvalue⟩ := List.exists_mem_of_ne_nil _ hne
    obtain ⟨parg, hparg, heq⟩ := List.mem_filterMap.mp hvalue
    obtain ⟨hmem, hname⟩ := List.mem_filter.mp hparg
    exact ⟨parg.entry, ⟨parg, hmem, rfl, by simp [heq]⟩, eq_of_beq hname⟩
  · rintro ⟨e, ⟨parg, hmem, rfl, hvalue⟩, rfl⟩
    obtain ⟨value, heq⟩ := Option.ne_none_iff_exists'.mp hvalue
    exact List.ne_nil_of_mem (List.mem_filterMap.mpr
      ⟨parg, List.mem_filter.mpr ⟨hmem, beq_self_eq_true _⟩, heq⟩)

/-- All values of the name are of the ENTRY. -/
theorem values_eq_entryValues {e : EntryId}
    (h : ∀ f, Filled pargv f → scheme.name f = scheme.name e → f = e) :
    values scheme pargv (scheme.name e) = entryValues pargv.pargs e := by
  unfold values Kpargv.findMulti entryValues
  rw [List.filterMap_filter, List.filterMap_filter]
  apply List.filterMap_congr
  intro parg hparg
  by_cases hvalue : parg.value = none
  · simp [hvalue]
  · by_cases hname : scheme.name parg.entry = scheme.name e
    · have hentry := h parg.entry ⟨parg, hparg, rfl, hvalue⟩ hname
      simp [hentry]
    · have hentry : parg.entry ≠ e := fun heq => hname (congrArg scheme.name heq)
      simp [hname, hentry]

/-- An ENTRY that has as many values as its name has them all. -/
theorem eq_of_length_values {e f : EntryId}
    (hlen : (values scheme pargv (scheme.name e)).length = (entryValues pargv.pargs e).length)
    (hf : Filled pargv f) (hname : scheme.name f = scheme.name e) : f = e := by
  obtain ⟨parg, hparg, rfl, hvalue⟩ := hf
  have hsub : List.Sublist (pargv.pargs.filter fun p => p.entry == e && p.value.isSome)
      (pargv.pargs.filter fun p =>
        scheme.name p.entry == scheme.name e && p.value.isSome) := by
    apply List.monotone_filter_right
    intro p hp
    obtain ⟨hentry, hsome⟩ := Bool.and_eq_true_iff.mp hp
    rw [eq_of_beq hentry, hsome]
    simp
  have hcount : ∀ p : Kparg → Bool, ((pargv.pargs.filter p).filterMap Kparg.value).length =
      (pargv.pargs.filter fun parg => p parg && parg.value.isSome).length := by
    intro p
    rw [List.length_filterMap_eq_countP, List.countP_filter, List.countP_eq_length_filter]
    simp only [Bool.and_comm]
  unfold values Kpargv.findMulti entryValues at hlen
  rw [hcount, hcount] at hlen
  have hmem : parg ∈ pargv.pargs.filter fun p => p.entry == e && p.value.isSome := by
    rw [hsub.eq_of_length hlen.symm]
    exact List.mem_filter.mpr ⟨hparg, by simp [hname, Option.isSome_iff_ne_none.mpr hvalue]⟩
  exact eq_of_beq (Bool.and_eq_true_iff.mp (List.mem_filter.mp hmem).2).1

theorem mem_values_of_entryValues {e : EntryId} {i : ℕ} {value : String}
    (h : (entryValues pargv.pargs e)[i]? = some value) :
    value ∈ pargv.pargs.filterMap Kparg.value ∧ Filled pargv e := by
  obtain ⟨parg, hparg, hvalue⟩ := List.mem_filterMap.mp (List.mem_of_getElem? h)
  obtain ⟨hmem, hentry⟩ := List.mem_filter.mp hparg
  exact ⟨List.mem_filterMap.mpr ⟨parg, hmem, hvalue⟩, parg, hmem, eq_of_beq hentry,
    by simp [hvalue]⟩

theorem length_intercalate_const (quote : String) {vals : List String} (h : vals ≠ []) :
    (" ".intercalate (vals.map fun _ => quote)).length + 1 = vals.length * (quote.length + 1) := by
  induction vals with
  | nil => exact absurd rfl h
  | cons val vals ih =>
    cases vals with
    | nil => simp
    | cons val' vals =>
      have hrest := ih (List.cons_ne_nil _ _)
      rw [List.map_cons, List.map_cons, String.intercalate_cons_cons, String.length_append,
        String.length_append, List.length_cons, Nat.succ_mul, ← hrest]
      have hspace : " ".length = 1 := rfl
      rw [List.map_cons, hspace]
      omega

/-- There are longer strings than those of a list. -/
theorem exists_longer (vals : List String) :
    ∃ quote : String, ∀ val ∈ vals, val.length < quote.length := by
  have hbound : ∃ n, ∀ val ∈ vals, val.length < n := by
    induction vals with
    | nil => exact ⟨0, fun _ hval => nomatch hval⟩
    | cons val vals ih =>
      obtain ⟨n, hn⟩ := ih
      refine ⟨max n (val.length + 1), fun other hother => ?_⟩
      rcases List.mem_cons.mp hother with rfl | hother
      · omega
      · have hless := hn other hother
        omega
  obtain ⟨n, hn⟩ := hbound
  exact ⟨String.ofList (List.replicate n 'x'), by simpa using hn⟩

/-- If the names do not meet, each of them has its own values. -/
theorem Undisturbed.envAgrees (hclear : Undisturbed scheme pre pargv env)
    (h : Ksession.Parsed scheme V pargv) (cEscQuote : String → String) :
    EnvAgrees cEscQuote scheme pre line pargv env := by
  obtain ⟨env', hrun, hpop⟩ := populateEnvKpargv_populates cEscQuote pre h line env
  refine ⟨env', hrun, fun e => ⟨?_, ?_⟩⟩
  · intro i hi
    rw [numbered_paramVar]
    rcases Nat.lt_or_eq_of_le hi with hlt | rfl
    · -- The values are those of one ENTRY, which alone sets the variable.
      obtain ⟨f, hf, hname⟩ := values_ne_nil_iff.mp (List.ne_nil_of_length_pos
        (Nat.lt_of_le_of_lt (Nat.zero_le i) hlt))
      have hvals : values scheme pargv (scheme.name f) = entryValues pargv.pargs f :=
        values_eq_entryValues fun g hg hgf => hclear.alone g f hg hf hgf
      rw [← hname] at hlt ⊢
      rw [hvals] at hlt ⊢
      have hset : Sets cEscQuote scheme pargv.pargs f (numbered (scheme.name f) i)
          (entryValues pargv.pargs f)[i] := .inr ⟨i, rfl, List.getElem?_eq_getElem hlt⟩
      have hvar : IsVariable (paramVar pre (numbered (scheme.name f) i)) := by
        rw [← numbered_paramVar, isVariable_numbered]
        exact hclear.settable f hf
      obtain ⟨g, last, hg, hlast, hget⟩ := hpop.set hf hset hvar
      rw [hget]
      rcases hlast with ⟨hwhole, -⟩ | ⟨j, hindex, hlast⟩
      · have hle := hclear.apart f g i hwhole.symm
        rw [hvals] at hle
        omega
      · obtain ⟨hfg, rfl⟩ := numbered_inj.mp hindex
        rw [hclear.alone f g hf hg hfg, hlast]
    · rw [hpop.kept, ← numbered_paramVar, (hclear.clean e).1, List.getElem?_eq_none (Nat.le_refl _)]
      rintro f value hf (⟨hwhole, -⟩ | ⟨j, hindex, hlast⟩)
      · exact values_ne_nil_iff.mpr ⟨f, hf, rfl⟩ (hclear.ended e f hwhole.symm)
      · obtain ⟨hef, rfl⟩ := numbered_inj.mp hindex
        have hvals : values scheme pargv (scheme.name f) = entryValues pargv.pargs f :=
          values_eq_entryValues fun g hg hgf => hclear.alone g f hg hf hgf
        rw [hef, hvals, List.getElem?_eq_none (Nat.le_refl _)] at hlast
        cases hlast
  · -- No variable with a number is that of the whole list.
    have hindexed : ∀ {g : EntryId} {value : String}, ¬∃ i, scheme.name e =
        numbered (scheme.name g) i ∧ (entryValues pargv.pargs g)[i]? = some value := by
      rintro g value ⟨i, hname, hvalue⟩
      have hg : Filled pargv g := (mem_values_of_entryValues hvalue).2
      have hle := hclear.apart g e i hname
      rw [values_eq_entryValues fun f hf hfg => hclear.alone f g hf hg hfg] at hle
      rw [List.getElem?_eq_none hle] at hvalue
      cases hvalue
    by_cases hempty : values scheme pargv (scheme.name e) = []
    · rw [hpop.kept, (hclear.clean e).2 hempty, whole, if_pos hempty]
      rintro g value hg (⟨hname, -⟩ | hset)
      · exact values_ne_nil_iff.mpr ⟨g, hg, hname.symm⟩ hempty
      · exact hindexed hset
    · obtain ⟨f, hf, hname⟩ := values_ne_nil_iff.mp hempty
      have hvals : values scheme pargv (scheme.name f) = entryValues pargv.pargs f :=
        values_eq_entryValues fun g hg hgf => hclear.alone g f hg hf hgf
      have hvar : IsVariable (paramVar pre (scheme.name e)) := by
        rw [isVariable_paramVar, ← hname]
        exact hclear.settable f hf
      obtain ⟨g, last, hg, hlast, hget⟩ := hpop.set hf (.inl ⟨hname.symm, rfl⟩) hvar
      rw [hget, whole, if_neg hempty, ← hname, hvals]
      rcases hlast with ⟨hgname, rfl⟩ | hset
      · rw [hclear.alone f g hf hg (hname.trans hgname)]
      · exact absurd hset hindexed

/-- The environment with a list of quoted values that is longer than each of the values. -/
structure Probe (scheme : Kscheme) (pre : String) (pargv : Kpargv) (env env' : Environ)
    (quote : String) : Prop where
  longer : ∀ val ∈ pargv.pargs.filterMap Kparg.value, val.length < quote.length
  populates : Populates (fun _ => quote) scheme pre pargv env env'
  agrees : ∀ e, Agrees (fun _ => quote) pre env' (scheme.name e)
    (values scheme pargv (scheme.name e))

namespace Probe

variable {env' : Environ} {quote : String} (h : Probe scheme pre pargv env env' quote)
  {e f : EntryId}

include h

theorem whole_filled (he : Filled pargv e) : env'.getenv (paramVar pre (scheme.name e)) =
    some (" ".intercalate ((values scheme pargv (scheme.name e)).map fun _ => quote)) := by
  rw [(h.agrees e).whole, whole, if_neg (values_ne_nil_iff.mpr ⟨e, he, rfl⟩)]

theorem isVariable (he : Filled pargv e) : IsVariable (paramVar pre (scheme.name e)) := by
  by_contra hnot
  have hnone := env'.getenv_eq_none _ hnot
  rw [h.whole_filled he] at hnone
  cases hnone

/-- The list of a name is no value. -/
theorem value_ne_whole {val : String} (hval : val ∈ pargv.pargs.filterMap Kparg.value) :
    env'.getenv (paramVar pre (scheme.name e)) ≠ some val := by
  intro hget
  rw [(h.agrees e).whole, whole] at hget
  split at hget
  · cases hget
  · rename_i hne
    obtain rfl := Option.some.inj hget
    have hless := h.longer _ hval
    have hlen := length_intercalate_const quote hne
    have hmul := Nat.mul_le_mul_right (quote.length + 1) (List.length_pos_of_ne_nil hne)
    omega

theorem alone (he : Filled pargv e) (hf : Filled pargv f)
    (hname : scheme.name e = scheme.name f) : e = f := by
  obtain ⟨g, last, hg, hlast, hget⟩ := h.populates.set he (.inl ⟨rfl, rfl⟩) (h.isVariable he)
  rcases hlast with ⟨hge, rfl⟩ | ⟨i, -, hvalue⟩
  · -- The list has as many values as the name.
    rw [h.whole_filled he] at hget
    have hlen := congrArg (fun whole => whole.length + 1) (Option.some.inj hget)
    have hne : values scheme pargv (scheme.name e) ≠ [] := values_ne_nil_iff.mpr ⟨e, he, rfl⟩
    have hne' : entryValues pargv.pargs g ≠ [] := by
      obtain ⟨parg, hparg, hentry, hsome⟩ := hg
      obtain ⟨value, hvalue⟩ := Option.ne_none_iff_exists'.mp hsome
      exact List.ne_nil_of_mem (List.mem_filterMap.mpr
        ⟨parg, List.mem_filter.mpr ⟨hparg, beq_iff_eq.mpr hentry⟩, hvalue⟩)
    rw [length_intercalate_const quote hne, length_intercalate_const quote hne'] at hlen
    have hcount := Nat.eq_of_mul_eq_mul_right (Nat.succ_pos _) hlen
    rw [hge] at hcount
    rw [eq_of_length_values hcount he hge, eq_of_length_values hcount hf (hname.symm.trans hge)]
  · exact absurd hget (h.value_ne_whole (mem_values_of_entryValues hvalue).1)

theorem apart {i : ℕ} (hname : scheme.name f = numbered (scheme.name e) i) :
    (values scheme pargv (scheme.name e)).length ≤ i := by
  by_contra hlt
  have hindexed := (h.agrees e).indexed i (by omega)
  rw [numbered_paramVar, ← hname, List.getElem?_eq_getElem (by omega)] at hindexed
  apply h.value_ne_whole _ hindexed
  obtain ⟨parg, hparg, hvalue⟩ := List.mem_filterMap.mp (List.getElem_mem (Nat.lt_of_not_le hlt))
  exact List.mem_filterMap.mpr ⟨parg, (List.mem_filter.mp hparg).1, hvalue⟩

theorem getenv_ended : env'.getenv (paramVar pre (numbered (scheme.name e)
    (values scheme pargv (scheme.name e)).length)) = none := by
  rw [← numbered_paramVar, (h.agrees e).indexed _ (Nat.le_refl _),
    List.getElem?_eq_none (Nat.le_refl _)]

theorem ended (hname : scheme.name f =
    numbered (scheme.name e) (values scheme pargv (scheme.name e)).length) :
    values scheme pargv (scheme.name f) = [] := by
  have hnone := @getenv_ended _ _ _ _ _ _ h e
  rw [← hname, (h.agrees f).whole, whole] at hnone
  by_contra hne
  rw [if_neg hne] at hnone
  cases hnone

/-- A variable that is missing has not been set, and was missing before. -/
theorem clean {name : String} (hnone : env'.getenv (paramVar pre name) = none) :
    env.getenv (paramVar pre name) = none := by
  by_cases hname : IsVariable (paramVar pre name)
  · rw [← h.populates.kept, hnone]
    intro e value he hset
    obtain ⟨f, last, -, -, hget⟩ := h.populates.set he hset hname
    rw [hnone] at hget
    cases hget
  · exact env.getenv_eq_none _ hname

theorem undisturbed : Undisturbed scheme pre pargv env where
  alone _ _ he hf hname := h.alone he hf hname
  settable _ he := isVariable_paramVar.mp (h.isVariable he)
  apart _ _ _ hname := h.apart hname
  ended _ _ hname := h.ended hname
  clean e := by
    refine ⟨?_, fun hempty => ?_⟩
    · rw [numbered_paramVar]
      exact h.clean h.getenv_ended
    · apply h.clean
      rw [(h.agrees e).whole, whole, if_pos hempty]

end Probe

/-- The variables agree with the arguments, however the values are quoted, if and only if nothing
disturbs them. -/
theorem envAgrees_iff (h : Ksession.Parsed scheme V pargv) :
    (∀ cEscQuote, EnvAgrees cEscQuote scheme pre line pargv env) ↔
      Undisturbed scheme pre pargv env := by
  constructor
  · intro hagrees
    obtain ⟨quote, hlong⟩ := exists_longer (pargv.pargs.filterMap Kparg.value)
    obtain ⟨env', hrun, hall⟩ := hagrees fun _ => quote
    obtain ⟨env'', hrun', hpop⟩ := populateEnvKpargv_populates (fun _ => quote) pre h line env
    obtain rfl : env'' = env' := Option.some.inj (hrun'.symm.trans hrun)
    exact Probe.undisturbed ⟨hlong, hpop, hall⟩
  · intro hclear cEscQuote
    exact hclear.envAgrees h cEscQuote

def sampleEntry : EntryId → Kentry
  | 0 => { Kentry.new "view" 0 with container := true, mode := .switch }
  | 1 => Kentry.new "copy" 1
  | 2 => { Kentry.new "source" 2 with container := true }
  | 3 => { Kentry.new "target" 3 with container := true }
  | 4 => Kentry.new "name" 4
  | 5 => Kentry.new "name" 5
  | n => { Kentry.new "__ptype" n with purpose := .ptype }

def sampleBody : BodyId → Kbody
  | 0 => { Kbody.new with entrys := [1] }
  | 1 => ⟨[2, 3, 6], [.new], [], fun purpose => if purpose = .ptype then some 6 else none⟩
  | 2 => { Kbody.new with entrys := [4] }
  | 3 => { Kbody.new with entrys := [5] }
  | 4 => ⟨[7], [], [], fun purpose => if purpose = .ptype then some 7 else none⟩
  | 5 => ⟨[8], [], [], fun purpose => if purpose = .ptype then some 8 else none⟩
  | _ => Kbody.new

/-- A command with two branches that have a parameter of the same name. -/
def sampleScheme : Kscheme := ⟨[], [0], sampleEntry, sampleBody⟩

def sampleQuote (value : String) : String := "\"" ++ value ++ "\""

theorem envAgrees_iff_sample : ∃ pargv session',
    Ksession.parseLine sampleScheme Ksession.stringPtype Ksession.sampleRoot ⟨["copy", "a", "b"], false⟩ .exec
      false 6 = some (pargv, session') ∧
    ((∀ cEscQuote, EnvAgrees cEscQuote sampleScheme "KLISH_" (some "copy a b") pargv .empty) ↔
      Undisturbed sampleScheme "KLISH_" pargv .empty) := by
  have hrun : (Ksession.parseLine sampleScheme Ksession.stringPtype Ksession.sampleRoot
      ⟨["copy", "a", "b"], false⟩ .exec false 6).isSome = true := by decide
  obtain ⟨⟨pargv, session'⟩, hparse⟩ := Option.isSome_iff_exists.mp hrun
  exact ⟨pargv, session', hparse, envAgrees_iff (.line hparse)⟩

/-- The name has two values, and the variables have the second one alone. -/
theorem second_branch_overwrites : ∃ pargv session' env',
    Ksession.parseLine sampleScheme Ksession.stringPtype Ksession.sampleRoot ⟨["copy", "a", "b"], false⟩ .exec
      false 6 = some (pargv, session') ∧
    (pargv.findMulti sampleScheme "name").map Kparg.value = [some "a", some "b"] ∧
    populateEnvKpargv sampleQuote sampleScheme "KLISH_" (some "copy a b") pargv .empty =
      some env' ∧
    env'.getenv "KLISH_PARAM_name_0" = some "b" ∧ env'.getenv "KLISH_PARAM_name_1" = none ∧
    env'.getenv "KLISH_PARAM_name" = some "\"b\"" ∧
    ¬EnvAgrees sampleQuote sampleScheme "KLISH_" (some "copy a b") pargv .empty := by
  have hrun : ((Ksession.parseLine sampleScheme Ksession.stringPtype Ksession.sampleRoot
      ⟨["copy", "a", "b"], false⟩ .exec false 6).map fun r =>
        ((r.1.findMulti sampleScheme "name").map Kparg.value,
          (populateEnvKpargv sampleQuote sampleScheme "KLISH_" (some "copy a b") r.1 .empty).map
            fun env => (env.getenv "KLISH_PARAM_name_0", env.getenv "KLISH_PARAM_name_1",
              env.getenv "KLISH_PARAM_name"))) =
      some ([some "a", some "b"], some (some "b", none, some "\"b\"")) := by
    decide +kernel
  obtain ⟨⟨pargv, session'⟩, hparse, hends⟩ := Option.map_eq_some_iff.mp hrun
  obtain ⟨hfind, hpopulated⟩ := Prod.mk.inj hends
  obtain ⟨env', henv, hget⟩ := Option.map_eq_some_iff.mp hpopulated
  obtain ⟨hfirst, hrest⟩ := Prod.mk.inj hget
  obtain ⟨hsecond, hlist⟩ := Prod.mk.inj hrest
  refine ⟨pargv, session', env', hparse, hfind, henv, hfirst, hsecond, hlist, ?_⟩
  rintro ⟨env'', henv', hagrees⟩
  obtain rfl := Option.some.inj (henv'.symm.trans henv)
  have hwhole := (hagrees 4).indexed 0 (Nat.zero_le _)
  have hvals : values sampleScheme pargv (sampleScheme.name 4) = ["a", "b"] := by
    have hmap := congrArg (List.filterMap id) hfind
    rw [List.filterMap_map] at hmap
    exact hmap
  rw [hvals] at hwhole
  have hclash : some "b" = some "a" := hfirst.symm.trans hwhole
  exact absurd hclash (by decide)

end Agreement

end ScriptEnv

end Klish
