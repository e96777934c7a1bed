import Mathlib.Logic.Function.Iterate
import Klish.ParseConservation
import Klish.KexecSpec

/-!
# The level of a command

The parser counts the levels down while it walks from the current level to the base, and
`kexec_exec` pops the path down to the level it was given. Levels of non-COMMON purpose are
walked over, but not counted.
-/

namespace Klish.Ksession

variable {scheme : Kscheme} {V : Oracle} {isFilter : Bool}

/-- A COMMON level was passed: it is transparent, and its call took no word. -/
def Passed (scheme : Kscheme) (parse : ParseFn) (words : List String) (e : EntryId) : Prop :=
  (scheme.entry e).transparent = true ∧ ∃ st status st', parse e st = some (status, st') ∧
    (status = .notfound ∨ status = .none) ∧ st.iter = words ∧ st'.iter = words

/-- The level took the words: its call started with nothing parsed and returned OK. -/
def Took (parse : ParseFn) (words : List String) (e : EntryId) (st' : ArgState) : Prop :=
  ∃ st, parse e st = some (.ok, st') ∧ st.pargv.pargs = [] ∧ st.iter = words

/-- The counter after a number of COMMON levels. -/
theorem sizeDec_iterate {k n : ℕ} (h : k ≤ n) : sizeDec^[k] n = n - k := by
  induction k generalizing n with
  | zero => rfl
  | succ k ih =>
    have hn : n ≠ 0 := by omega
    rw [Function.iterate_succ_apply, sizeDec, if_neg hn, ih (by omega)]
    omega

theorem levelsLoop_found {fuel : ℕ} {dontParseUpper : Bool} {levels : List EntryId}
    {pstatus : KpargvStatus} {st : ArgState} {levelFound : ℕ} {r : LevelsEnd}
    (hstart : st.pargv.pargs = []) (hpstatus : pstatus ≠ .ok)
    (h : levelsLoop scheme (parseArg scheme V isFilter fuel false) dontParseUpper levels pstatus st
      levelFound = some r) (hok : r.pstatus = .ok) :
    ∃ deeper e upper, levels = deeper ++ e :: upper ∧ scheme.purpose e = .common ∧
      Took (parseArg scheme V isFilter fuel false) st.iter e r.st ∧
      (∀ d ∈ deeper, scheme.purpose d = .common →
        Passed scheme (parseArg scheme V isFilter fuel false) st.iter d) ∧
      r.levelFound =
        sizeDec^[deeper.countP fun d => scheme.purpose d = .common] levelFound := by
  induction levels generalizing pstatus st levelFound with
  | nil =>
    cases h
    exact absurd hok hpstatus
  | cons e levels ih =>
    by_cases hp : scheme.purpose e = .common
    · cases hcall : parseArg scheme V isFilter fuel false e st with
      | none => simp [levelsLoop, hp, hcall] at h
      | some q =>
        obtain ⟨status, st₁⟩ := q
        rw [levelsLoop_common scheme hp hcall] at h
        split at h
        · cases h
          have hstatus : status = .ok := hok
          rw [hstatus] at hcall
          exact ⟨[], e, levels, rfl, hp, ⟨st, hcall, hstart, rfl⟩, by simp, rfl⟩
        · rename_i hstop
          simp only [StopsAt, not_or, not_and, not_not] at hstop
          obtain ⟨hstatus, hpargs, -, htransparent⟩ := hstop
          have hiter : st₁.iter = st.iter :=
            (parseArg_conserves hcall).iter_eq (hpargs.trans hstart.symm)
          have hfailed : status = .notfound ∨ status = .none := by
            by_cases hn : status = .notfound
            · exact .inl hn
            · exact .inr (hstatus hn)
          have hne : status ≠ .ok := by
            rcases hfailed with rfl | rfl <;> simp
          obtain ⟨deeper, e', upper, rfl, hp', htook, hpassed, hcount⟩ := ih hpargs hne h
          rw [hiter] at htook hpassed
          refine ⟨e :: deeper, e', upper, rfl, hp', htook, fun d hd hcommon => ?_, ?_⟩
          · rcases List.mem_cons.mp hd with rfl | hd
            · exact ⟨by simpa using htransparent, st, status, st₁, hcall, hfailed, rfl, hiter⟩
            · exact hpassed d hd hcommon
          · rw [hcount, List.countP_cons_of_pos (by simpa using hp), Function.iterate_succ_apply]
    · rw [levelsLoop_skip scheme hp] at h
      obtain ⟨deeper, e', upper, rfl, hp', htook, hpassed, hcount⟩ := ih hstart hpstatus h
      refine ⟨e :: deeper, e', upper, rfl, hp', htook, fun d hd hcommon => ?_, ?_⟩
      · rcases List.mem_cons.mp hd with rfl | hd
        · exact absurd hcommon hp
        · exact hpassed d hd hcommon
      · rw [hcount, List.countP_cons_of_neg (by simpa using hp)]

/-- `kexec_exec` cuts the path down to the levels 0 to `i` before the first ACTION, when the
command of the first context has `restore=true`. -/
def RestoresTo (scheme : Kscheme) (pargv : Kpargv) (path : Kpath) (i : ℕ) : Prop :=
  ∀ env exec context contexts w r command, exec.contexts = context :: contexts →
    context.pargv = pargv → pargv.command = some command →
    (scheme.entry command).restore = true → w.session.path = path →
    Kexec.kexecExec scheme env exec w = some r →
      ∃ exec₁ w₁, w₁.session.path = path.take (i + 1) ∧ w₁.log = w.log ∧
        Kexec.kexecContinueCommandExecution scheme env exec₁ none .zero w₁ = r

theorem restoresTo_level {pargv : Kpargv} {path : Kpath} (h : pargv.level < sizeMax) :
    RestoresTo scheme pargv path pargv.level := by
  intro env exec context contexts w r command hcontexts hpargv hcommand hrestore hpath hexec
  obtain ⟨exec₁, w₁, hprepare, hcontinue⟩ := Kexec.kexecExec_eq_some.mp hexec
  obtain ⟨-, -, hmap, hw₁⟩ := Kexec.kexecPrepare_spec hprepare
  refine ⟨exec₁, _, ?_, ?_, hcontinue⟩
  · rw [hcontexts, List.map_cons] at hmap
    obtain ⟨context₁, contexts₁, hcontexts₁, hsame, -⟩ := List.map_eq_cons_iff.mp hmap
    have hpargv₁ : context₁.pargv = pargv := (congrArg Kcontext.pargv hsame).trans hpargv
    have hpath₁ : w₁.session.path = path := by
      rw [hw₁]
      exact hpath
    have hsucc : sizeInc pargv.level = pargv.level + 1 := by
      rw [sizeInc, if_neg (Nat.ne_of_lt h)]
    rw [Kexec.restoreWorld, hcontexts₁]
    simp only [Kexec.restorePath, hpargv₁, hcommand, hrestore, hpath₁, if_true,
      Kexec.popLevels_eq (Nat.le_refl _), hsucc]
  · rw [Kexec.restoreWorld_log, hw₁]

/-- The level that took the words, and the counter of the levels, for a line that is OK. -/
theorem parseLevels_found {session : Ksession} {argv : FauxArgv} {fuel : ℕ} {r : LevelsEnd}
    (hr : parseLevels scheme V session argv .exec isFilter fuel = some r)
    (hok : r.pstatus = .ok) :
    ∃ upper e deeper, session.path.levels = upper ++ e :: deeper ∧ scheme.purpose e = .common ∧
      Took (parseArg scheme V isFilter fuel false) argv.args e r.st ∧
      (∀ d ∈ deeper, scheme.purpose d = .common →
        Passed scheme (parseArg scheme V isFilter fuel false) argv.args d) ∧
      r.levelFound =
        upper.length + (deeper.length - deeper.countP fun d => scheme.purpose d = .common) := by
  have hstart : (initialState session argv .exec).pargv.pargs = [] := rfl
  obtain ⟨deeper, e, upper, hlevels, hp, htook, hpassed, hcount⟩ :=
    levelsLoop_found hstart (by simp) hr hok
  have hpath : session.path.levels = upper.reverse ++ e :: deeper.reverse := by
    rw [← List.reverse_reverse session.path.levels, hlevels]
    simp
  have hlen : session.path.len = upper.length + deeper.length + 1 := by
    rw [Kpath.len, hpath]
    simp only [List.length_append, List.length_cons, List.length_reverse]
    omega
  have hcountP : (deeper.countP fun d => scheme.purpose d = .common) ≤ deeper.length :=
    List.countP_le_length
  refine ⟨upper.reverse, e, deeper.reverse, hpath, hp, htook, fun d hd => ?_, ?_⟩
  · exact hpassed d (List.mem_reverse.mp hd)
  · rw [hcount, hlen, sizeDec, if_neg (Nat.succ_ne_zero _), sizeDec_iterate (by omega),
      List.length_reverse, List.length_reverse, List.countP_reverse]
    omega

/-- The counter has not wrapped when the line is OK. -/
theorem parseLine_level_lt {session session' : Ksession} {argv : FauxArgv} {fuel : ℕ}
    {pargv : Kpargv}
    (hparse : parseLine scheme V session argv .exec isFilter fuel = some (pargv, session'))
    (hok : pargv.status = .ok) : pargv.level < session.path.len := by
  obtain ⟨r, hr, rfl, -⟩ := parseLine_eq_some.mp hparse
  obtain ⟨upper, e, deeper, hpath, -, -, -, hlevel⟩ :=
    parseLevels_found hr (lineStatus_eq_ok.mp hok).1
  show r.levelFound < _
  rw [Kpath.len, hpath, hlevel]
  simp only [List.length_append, List.length_cons]
  omega

/-- The parser's level is that of the entry that took the words if and only if no deeper level
has been walked over without being counted. -/
theorem restore_level_iff {session session' : Ksession} {argv : FauxArgv} {fuel : ℕ} {pargv : Kpargv}
    (hparse : parseLine scheme V session argv .exec isFilter fuel = some (pargv, session'))
    (hok : pargv.status = .ok) :
    ∃ i e st, session.path.levels[i]? = some e ∧ scheme.purpose e = .common ∧
      Took (parseArg scheme V isFilter fuel false) argv.args e st ∧
      st.pargv.pargs = pargv.pargs ∧ st.iter = [] ∧
      (∀ d ∈ session.path.levels.drop (i + 1), scheme.purpose d = .common →
        Passed scheme (parseArg scheme V isFilter fuel false) argv.args d) ∧
      ((pargv.level = i ∧ RestoresTo scheme pargv session'.path i) ↔
        ∀ d ∈ session.path.levels.drop (i + 1), scheme.purpose d = .common) := by
  have hlt := parseLine_level_lt hparse hok
  obtain ⟨r, hr, rfl, rfl⟩ := parseLine_eq_some.mp hparse
  obtain ⟨hpstatus, hiter, -⟩ := lineStatus_eq_ok.mp hok
  obtain ⟨upper, e, deeper, hpath, hp, htook, hpassed, hlevel⟩ := parseLevels_found hr hpstatus
  have hdrop : session.path.levels.drop (upper.length + 1) = deeper := by
    rw [hpath]
    simp [List.drop_append]
  refine ⟨upper.length, e, r.st, ?_, hp, htook, rfl, hiter, ?_, ?_⟩
  · rw [hpath]
    simp
  · rw [hdrop]
    exact hpassed
  · have hall : (∀ d ∈ deeper, scheme.purpose d = .common) ↔
        (deeper.countP fun d => scheme.purpose d = .common) = deeper.length := by
      rw [List.countP_eq_length]
      simp
    have hcountP : (deeper.countP fun d => scheme.purpose d = .common) ≤ deeper.length :=
      List.countP_le_length
    have hmax := session.path.length_le
    have hrestore : RestoresTo scheme r.pargv session.path r.pargv.level :=
      restoresTo_level (Nat.lt_of_lt_of_le hlt hmax)
    rw [hdrop, hall]
    constructor
    · rintro ⟨heq, -⟩
      have heq' : r.levelFound = upper.length := heq
      omega
    · intro hcommon
      have heq : r.pargv.level = upper.length := by
        show r.levelFound = upper.length
        omega
      exact ⟨heq, heq ▸ hrestore⟩

/-- The sample scheme with a second view, and `restore=true` everywhere. -/
def restoreScheme : Kscheme :=
  { sampleScheme with
    entrys := [0, 7]
    entry := fun e =>
      if e = 7 then
        { Kentry.new "inner" 7 with container := true, mode := .switch, restore := true }
      else { sampleEntry e with restore := true } }

/-- The current level is the second view, and the command `x` is in the first one. -/
theorem restore_level_iff_sample : ∃ pargv session',
    parseLine restoreScheme (commandPtype sampleEntry) (sampleSession [0, 7] (by decide))
      ⟨["x"], false⟩ .exec false 5 = some (pargv, session') ∧
    pargv.command.map (fun e => (restoreScheme.entry e).restore) = some true ∧
    pargv.level = 0 ∧ RestoresTo restoreScheme pargv session'.path 0 := by
  have hrun : (parseLine restoreScheme (commandPtype sampleEntry)
      (sampleSession [0, 7] (by decide)) ⟨["x"], false⟩ .exec false 5).map (fun r =>
        (r.1.status, r.1.command.map fun e => (restoreScheme.entry e).restore, r.1.level)) =
      some (.ok, some true, 0) := by decide
  obtain ⟨⟨pargv, session'⟩, hparse, hr⟩ := Option.map_eq_some_iff.mp hrun
  obtain ⟨hok, hrestore, hlevel⟩ : pargv.status = .ok ∧
      pargv.command.map (fun e => (restoreScheme.entry e).restore) = some true ∧
      pargv.level = 0 := by simpa using hr
  obtain ⟨i, _, _, _, _, _, _, _, _, hiff⟩ := restore_level_iff hparse hok
  have hcommon : ∀ d ∈ [0, 7], restoreScheme.purpose d = .common := by decide
  obtain ⟨hi, hrestores⟩ := hiff.mpr fun d hd => hcommon d (List.mem_of_mem_drop hd)
  obtain rfl : 0 = i := hlevel.symm.trans hi
  exact ⟨pargv, session', hparse, hrestore, hlevel, hrestores⟩

/-- With a PTYPE as the current level the command `x` of the base is found at level 1, and
the path is not cut down. -/
theorem restore_level_miscounted : ∃ pargv session' exec' w',
    parseLine restoreScheme (commandPtype sampleEntry) (sampleSession [0, 5] (by decide))
      ⟨["x"], false⟩ .exec false 5 = some (pargv, session') ∧ pargv.status = .ok ∧
    (¬ ∃ i e st, [0, 5][i]? = some e ∧ restoreScheme.purpose e = .common ∧
      Took (parseArg restoreScheme (commandPtype sampleEntry) false 5 false) ["x"] e st ∧
      pargv.level = i) ∧
    Kexec.kexecExec restoreScheme (Kexec.sampleEnv fun _ => false)
      { Kexec.new true with contexts := [.new pargv 0 true] } ⟨session', [], [], []⟩ =
        some (exec', w') ∧
    w'.session.path.levels = [0, 5] := by
  have hrun : ((parseLine restoreScheme (commandPtype sampleEntry)
      (sampleSession [0, 5] (by decide)) ⟨["x"], false⟩ .exec false 5).bind fun r =>
      (Kexec.kexecExec restoreScheme (Kexec.sampleEnv fun _ => false)
        { Kexec.new true with contexts := [.new r.1 0 true] } ⟨r.2, [], [], []⟩).map fun s =>
        (r.1.status, r.1.level, s.2.session.path.levels)) = some (.ok, 1, [0, 5]) := by
    decide
  obtain ⟨⟨pargv, session'⟩, hparse, hmap⟩ := Option.bind_eq_some_iff.mp hrun
  obtain ⟨⟨exec', w'⟩, hexec, heq⟩ := Option.map_eq_some_iff.mp hmap
  obtain ⟨hstatus, hlevel, hpath⟩ : pargv.status = .ok ∧ pargv.level = 1 ∧
      w'.session.path.levels = [0, 5] := by simpa using heq
  refine ⟨pargv, session', exec', w', hparse, hstatus, ?_, hexec, hpath⟩
  rintro ⟨i, e, st, he, hcommon, -, hi⟩
  obtain rfl : 1 = i := hlevel.symm.trans hi
  obtain rfl : 5 = e := by simpa using he
  exact absurd hcommon (by decide)

end Klish.Ksession
