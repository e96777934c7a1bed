import Klish.Kscheme
import Klish.ParseConservation
import Klish.ParseExec

/-!
# The law of filters

Only the first component of a line may be something else than a filter. The code looks at the
ENTRY that has the ACTIONs, and the law is about the one that took the first word.
-/

namespace Klish

namespace Ksession

variable (scheme : Kscheme) (V : Oracle)

/-- The components, parsed one after another without any check. -/
def parseComponents (fuel : ℕ) : ℕ → List FauxArgv → Ksession → Option (List Kpargv)
  | _, [], _ => some []
  | index, argv :: iter, session =>
    match parseLine scheme V session argv .exec (index != 0) fuel with
    | none => none
    | some (pargv, session) => (parseComponents fuel (index + 1) iter session).map (pargv :: ·)

/-- The ENTRY that accepted the first word. -/
def headEntry (pargs : List Kparg) : Option EntryId :=
  (pargs.find? fun parg => !scheme.container parg.entry).map Kparg.entry

/-- An ENTRY with that attribute may stand in the component with that number. -/
def Allowed (index : ℕ) (filter : KentryFilter) : Prop :=
  if index = 0 then filter ≠ .yes else filter = .yes ∨ filter = .dual

instance (index : ℕ) (filter : KentryFilter) : Decidable (Allowed index filter) :=
  inferInstanceAs (Decidable (if index = 0 then _ else _))

/-- The head ENTRYs are allowed where they stand. -/
def HeadsAllowed (pargvs : List Kpargv) : Prop :=
  ∀ i pargv e, pargvs[i]? = some pargv → headEntry scheme pargv.pargs = some e →
    Allowed i (scheme.entry e).filter

/-- The ENTRYs with the ACTIONs are allowed where they stand. -/
def CommandsAllowed (pargvs : List Kpargv) : Prop :=
  ∀ i pargv command, pargvs[i]? = some pargv → pargv.command = some command →
    Allowed i (scheme.entry command).filter

/-- No command after a pipe restores the path. -/
def NoneRestores (pargvs : List Kpargv) : Prop :=
  ∀ i pargv command, 0 < i → pargvs[i]? = some pargv → pargv.command = some command →
    (scheme.entry command).restore = false

/-- No ACTION after a pipe runs in the process of the session. -/
def NoneSync (pargvs : List Kpargv) : Prop :=
  ∀ i pargv command, 0 < i → pargvs[i]? = some pargv → pargv.command = some command →
    ∀ action ∈ scheme.actions command, action.isSync = false

/-- The law of the components. -/
structure Placed (pargvs : List Kpargv) : Prop where
  heads : HeadsAllowed scheme pargvs
  restore : NoneRestores scheme pargvs
  async : NoneSync scheme pargvs

variable {scheme V} {isFilter : Bool} {session session' : Ksession} {argv : FauxArgv}
  {fuel index : ℕ} {split : List FauxArgv} {pargv : Kpargv} {pargvs : List Kpargv}

theorem headEntry_append {scheme : Kscheme} {pargs pargs' : List Kparg} {e : EntryId}
    (h : headEntry scheme pargs = some e) : headEntry scheme (pargs ++ pargs') = some e := by
  obtain ⟨parg, hfind, rfl⟩ := Option.map_eq_some_iff.mp h
  rw [headEntry, List.find?_append, hfind]
  rfl

/-- Without a word there are only arguments of containers. -/
theorem Added.container_of_nil {start added : List Kparg} {words : List String}
    (h : Added scheme V isFilter start added words) (hnil : words = []) :
    ∀ parg ∈ added, scheme.container parg.entry = true := by
  induction h with
  | nil => simp
  | word => simp at hnil
  | container h hcontainer hnested hcommon hok hbefore hafter ih =>
    intro parg hparg
    rcases List.mem_append.mp hparg with hparg | hparg
    · exact ih hnil parg hparg
    · obtain rfl := List.mem_singleton.mp hparg
      exact hcontainer

/-- The head ENTRY is the one of the argument that stands for the first word. -/
theorem Added.headEntry {start added : List Kparg} {word : String} {words : List String}
    (h : Added scheme V isFilter start added (word :: words)) :
    ∃ before e value after, added = before ++ ⟨e, some value⟩ :: after ∧
      headEntry scheme added = some e ∧
      accepts scheme V e (start ++ before) word = some value := by
  generalize hws : word :: words = ws at h
  induction h generalizing words with
  | nil => cases hws
  | @word added ws e w value h hcontainer haccept ih =>
    cases ws with
    | nil =>
      obtain ⟨rfl, rfl⟩ : word = w ∧ words = [] := by simpa using hws
      have hnone : ∀ parg ∈ added, scheme.container parg.entry = true := h.container_of_nil rfl
      refine ⟨added, e, value, [], rfl, ?_, haccept⟩
      have hfind : (added.find? fun parg => !scheme.container parg.entry) = none := by
        rw [List.find?_eq_none]
        intro parg hparg
        simp [hnone parg hparg]
      simp [Ksession.headEntry, hfind, hcontainer]
    | cons first ws =>
      obtain ⟨rfl, -⟩ : word = first ∧ words = ws ++ [w] := by simpa using hws
      obtain ⟨before, e', value', after, rfl, hhead, hfirst⟩ := ih rfl
      refine ⟨before, e', value', after ++ [⟨e, some value⟩], by simp, ?_, hfirst⟩
      exact headEntry_append hhead
  | @container added ws e nested before₀ after₀ h hcontainer hnested hcommon hok hbefore hafter ih =>
    obtain ⟨before, e', value', after, rfl, hhead, hfirst⟩ := ih hws
    refine ⟨before, e', value', after ++ [⟨e, some (scheme.name nested)⟩], by simp, ?_, hfirst⟩
    exact headEntry_append hhead

/-- A component that is OK has a command, and a head ENTRY that accepted its first word. -/
theorem parseLine_ok
    (hparse : parseLine scheme V session argv .exec isFilter fuel = some (pargv, session'))
    (hok : pargv.status = .ok) :
    pargv.command ≠ none ∧ ∃ word words before e value after, argv.args = word :: words ∧
      pargv.pargs = before ++ ⟨e, some value⟩ :: after ∧ headEntry scheme pargv.pargs = some e ∧
      accepts scheme V e before word = some value := by
  obtain ⟨r, hr, rfl, -⟩ := parseLine_eq_some.mp hparse
  obtain ⟨-, hiter, hcommand⟩ := lineStatus_eq_ok.mp hok
  obtain ⟨added, words, hpargs, hwords, hadded⟩ := (parseLevels_conserves hr).added
  have hpargs : r.st.pargv.pargs = added := by simpa [initialState, Kpargv.new] using hpargs
  have hwords : argv.args = words := by simpa [initialState, hiter] using hwords
  refine ⟨hcommand, ?_⟩
  cases words with
  | nil =>
    exfalso
    apply hcommand
    rw [parseLevels_command hr, lastCommand_eq_none_iff, hpargs]
    intro parg hparg hcontainer
    rw [hadded.container_of_nil rfl parg hparg] at hcontainer
    cases hcontainer
  | cons word words =>
    obtain ⟨before, e, value, after, hsplit, hhead, haccepts⟩ := hadded.headEntry
    refine ⟨word, words, before, e, value, after, hwords, hpargs.trans hsplit, ?_, ?_⟩
    · exact (congrArg (headEntry scheme) hpargs).trans hhead
    · simpa [initialState, Kpargv.new] using haccepts

theorem parseLine_purpose
    (hparse : parseLine scheme V session argv .exec isFilter fuel = some (pargv, session')) :
    pargv.purpose = .exec := by
  obtain ⟨r, hr, rfl, -⟩ := parseLine_eq_some.mp hparse
  exact (parseLevels_conserves hr).purpose

/-- What the code asks of a component: its test is on the ENTRY that has the ACTIONs. -/
def Passes (scheme : Kscheme) (index : ℕ) (pargv : Kpargv) : Prop :=
  pargv.status = .ok ∧ ∃ command, pargv.command = some command ∧
    Allowed index (scheme.entry command).filter ∧
    (0 < index → (scheme.entry command).restore = false)

theorem checkLine_eq_none (hset : ∀ e, (scheme.entry e).filter ≠ .none)
    (hparse : parseLine scheme V session argv .exec isFilter fuel = some (pargv, session')) :
    checkLine scheme pargv (index == 0) = none ↔ Passes scheme index pargv := by
  have hpurpose := parseLine_purpose hparse
  by_cases hok : pargv.status = .ok
  · obtain ⟨hcommand, -⟩ := parseLine_ok hparse hok
    obtain ⟨command, hcommand⟩ := Option.ne_none_iff_exists'.mp hcommand
    have hset := hset command
    by_cases hindex : index = 0
    · cases hfilter : (scheme.entry command).filter <;>
        simp_all [checkLine, Passes, Allowed]
    · have hpos : 0 < index := Nat.pos_of_ne_zero hindex
      cases hfilter : (scheme.entry command).filter <;>
        cases hrestore : (scheme.entry command).restore <;>
        simp_all [checkLine, Passes, Allowed]
  · simp [checkLine, Passes, hpurpose, hok]

theorem parseComponents_cons :
    parseComponents scheme V fuel index (argv :: split) session = some pargvs ↔
      ∃ pargv session' rest, parseLine scheme V session argv .exec (index != 0) fuel =
          some (pargv, session') ∧
        parseComponents scheme V fuel (index + 1) split session' = some rest ∧
        pargvs = pargv :: rest := by
  rw [parseComponents]
  cases hparse : parseLine scheme V session argv .exec (index != 0) fuel with
  | none => simp
  | some r =>
    simp only [Option.map_eq_some_iff, Option.some.injEq]
    constructor
    · rintro ⟨rest, hrest, rfl⟩
      exact ⟨r.1, r.2, rest, rfl, hrest, rfl⟩
    · rintro ⟨pargv, session', rest, rfl, hrest, rfl⟩
      exact ⟨rest, hrest, rfl⟩

/-- Components that are OK have head ENTRYs and commands. -/
theorem parseComponents_ok
    (hparse : parseComponents scheme V fuel index split session = some pargvs) :
    ∀ pargv ∈ pargvs, pargv.status = .ok →
      (∃ e, headEntry scheme pargv.pargs = some e) ∧ ∃ command, pargv.command = some command := by
  induction split generalizing index session pargvs with
  | nil =>
    cases hparse
    simp
  | cons argv split ih =>
    obtain ⟨pargv, session', rest, hfirst, hrest, rfl⟩ := parseComponents_cons.mp hparse
    intro pargv' hmem hok
    rcases List.mem_cons.mp hmem with rfl | hmem
    · obtain ⟨hcommand, _, _, _, e, _, _, -, -, hhead, -⟩ := parseLine_ok hfirst hok
      exact ⟨⟨e, hhead⟩, Option.ne_none_iff_exists'.mp hcommand⟩
    · exact ih hrest pargv' hmem hok

/-- The components of a pipeline that is accepted all pass, and the pipeline consists of them. -/
theorem passes_of_execLoop (hset : ∀ e, (scheme.entry e).filter ≠ .none) {exec exec' : Kexec}
    (h : execLoop scheme V fuel index split session exec = some ⟨.ok exec', session'⟩) :
      ∃ pargvs, parseComponents scheme V fuel index split session = some pargvs ∧
        (∀ i pargv, pargvs[i]? = some pargv → Passes scheme (index + i) pargv) ∧
        exec'.contexts.map Kcontext.pargv = exec.contexts.map Kcontext.pargv ++ pargvs := by
  induction split generalizing index session exec with
  | nil =>
    cases h
    exact ⟨[], rfl, by simp, by simp⟩
  | cons argv split ih =>
    rw [execLoop] at h
    cases hparse : parseLine scheme V session argv .exec (index != 0) fuel with
    | none => simp [hparse] at h
    | some r =>
      simp only [hparse] at h
      cases hcheck : checkLine scheme r.1 (index == 0) with
      | some error => simp [hcheck] at h
      | none =>
        simp only [hcheck] at h
        obtain ⟨rest, hrest, hpasses, hcontexts⟩ := ih h
        refine ⟨r.1 :: rest, parseComponents_cons.mpr ⟨_, _, _, hparse, hrest, rfl⟩, ?_, ?_⟩
        · intro i pargv hi
          cases i with
          | zero =>
            obtain rfl : r.1 = pargv := by simpa using hi
            exact (checkLine_eq_none hset hparse).mp hcheck
          | succ i =>
            have := hpasses i pargv (by simpa using hi)
            rwa [Nat.add_assoc, Nat.add_comm 1 i] at this
        · rw [hcontexts]
          simp [Kcontext.new]

theorem execLoop_of_passes (hset : ∀ e, (scheme.entry e).filter ≠ .none)
    (hparse : parseComponents scheme V fuel index split session = some pargvs)
    (hpasses : ∀ i pargv, pargvs[i]? = some pargv → Passes scheme (index + i) pargv) (exec : Kexec) :
    ∃ exec' session', execLoop scheme V fuel index split session exec =
      some ⟨.ok exec', session'⟩ := by
  induction split generalizing index session pargvs exec with
  | nil => exact ⟨exec, session, rfl⟩
  | cons argv split ih =>
    obtain ⟨pargv, session₁, rest, hfirst, hrest, rfl⟩ := parseComponents_cons.mp hparse
    have hcheck : checkLine scheme pargv (index == 0) = none :=
      (checkLine_eq_none hset hfirst).mpr (hpasses 0 pargv rfl)
    rw [execLoop]
    simp only [hfirst, hcheck]
    refine ih hrest (fun i pargv' hi => ?_) _
    have := hpasses (i + 1) pargv' (by simpa using hi)
    rwa [Nat.add_assoc, Nat.add_comm 1 i]

variable (scheme V) in
/-- The components of the line are all OK. -/
def Components (argvParse : String → Option FauxArgv) (session : Ksession) (rawLine : String)
    (fuel : ℕ) (pargvs : List Kpargv) : Prop :=
  ∃ split, splitPipes argvParse rawLine = .ok split ∧
    parseComponents scheme V fuel 0 split session = some pargvs ∧
    ∀ pargv ∈ pargvs, pargv.status = .ok

variable (scheme V) in
/-- The line is accepted if and only if its filters are placed by the law. -/
structure FilterLaw (argvParse : String → Option FauxArgv) (session : Ksession)
    (rawLine : String) (fuel : ℕ) : Prop where
  sound : ∀ exec session',
    parseForExec scheme V argvParse session rawLine fuel = some ⟨.ok exec, session'⟩ →
      Components scheme V argvParse session rawLine fuel (exec.contexts.map Kcontext.pargv) ∧
        Placed scheme (exec.contexts.map Kcontext.pargv)
  complete : ∀ pargvs, Components scheme V argvParse session rawLine fuel pargvs →
    Placed scheme pargvs → ∃ exec session',
      parseForExec scheme V argvParse session rawLine fuel = some ⟨.ok exec, session'⟩

/-- The ENTRY with the ACTIONs and the head ENTRY of a component are both allowed there or
both not. -/
def HeadAgrees (scheme : Kscheme) (index : ℕ) (pargv : Kpargv) : Prop :=
  ∀ head command, headEntry scheme pargv.pargs = some head → pargv.command = some command →
    (Allowed index (scheme.entry command).filter ↔ Allowed index (scheme.entry head).filter)

/-- The line is refused both by the law and by the code, for whatever reasons. -/
def RefusedAnyway (scheme : Kscheme) (pargvs : List Kpargv) : Prop :=
  ¬ NoneRestores scheme pargvs ∨
    (¬ CommandsAllowed scheme pargvs ∧
      (¬ HeadsAllowed scheme pargvs ∨ ¬ NoneSync scheme pargvs))

theorem parseForExec_eq_ok (hset : ∀ e, (scheme.entry e).filter ≠ .none)
    {argvParse : String → Option FauxArgv} {rawLine : String} {exec : Kexec}
    (h : parseForExec scheme V argvParse session rawLine fuel = some ⟨.ok exec, session'⟩) :
    Components scheme V argvParse session rawLine fuel (exec.contexts.map Kcontext.pargv) ∧
      ∀ i pargv, (exec.contexts.map Kcontext.pargv)[i]? = some pargv → Passes scheme i pargv := by
  unfold parseForExec at h
  split at h
  · simp at h
  · rename_i split hsplit
    obtain ⟨pargvs, hparse, hpasses, hcontexts⟩ := passes_of_execLoop hset h
    have hcontexts : exec.contexts.map Kcontext.pargv = pargvs := by
      simpa [Kexec.new] using hcontexts
    simp only [Nat.zero_add] at hpasses
    rw [hcontexts]
    refine ⟨⟨split, hsplit, hparse, fun pargv hmem => ?_⟩, hpasses⟩
    obtain ⟨i, hi⟩ := List.mem_iff_getElem?.mp hmem
    exact (hpasses i pargv hi).1

theorem parseForExec_of_passes (hset : ∀ e, (scheme.entry e).filter ≠ .none)
    {argvParse : String → Option FauxArgv} {rawLine : String}
    (hcomponents : Components scheme V argvParse session rawLine fuel pargvs)
    (hpasses : ∀ i pargv, pargvs[i]? = some pargv → Passes scheme i pargv) :
    ∃ exec session',
      parseForExec scheme V argvParse session rawLine fuel = some ⟨.ok exec, session'⟩ := by
  obtain ⟨split, hsplit, hparse, -⟩ := hcomponents
  rw [parseForExec, hsplit]
  exact execLoop_of_passes hset hparse (by simpa using hpasses) _

theorem Components.unique {argvParse : String → Option FauxArgv} {rawLine : String}
    {pargvs' : List Kpargv} (h : Components scheme V argvParse session rawLine fuel pargvs)
    (h' : Components scheme V argvParse session rawLine fuel pargvs') : pargvs = pargvs' := by
  obtain ⟨split, hsplit, hparse, -⟩ := h
  obtain ⟨split', hsplit', hparse', -⟩ := h'
  cases hsplit.symm.trans hsplit'
  exact Option.some.inj (hparse.symm.trans hparse')

theorem Components.exists_head {argvParse : String → Option FauxArgv} {rawLine : String}
    (h : Components scheme V argvParse session rawLine fuel pargvs) {i : ℕ}
    (hi : pargvs[i]? = some pargv) :
    (∃ e, headEntry scheme pargv.pargs = some e) ∧ ∃ command, pargv.command = some command := by
  obtain ⟨split, -, hparse, hok⟩ := h
  have hmem : pargv ∈ pargvs := List.mem_of_getElem? hi
  exact parseComponents_ok hparse pargv hmem (hok pargv hmem)

/-- The code accepts components that are OK by two of the tests alone. -/
theorem Components.accepted_iff {argvParse : String → Option FauxArgv} {rawLine : String}
    (hset : ∀ e, (scheme.entry e).filter ≠ .none)
    (h : Components scheme V argvParse session rawLine fuel pargvs) :
    (∃ exec session',
        parseForExec scheme V argvParse session rawLine fuel = some ⟨.ok exec, session'⟩) ↔
      CommandsAllowed scheme pargvs ∧ NoneRestores scheme pargvs := by
  constructor
  · rintro ⟨exec, session', hexec⟩
    obtain ⟨hcomponents, hpasses⟩ := parseForExec_eq_ok hset hexec
    obtain rfl := h.unique hcomponents
    have hboth : ∀ i pargv command, (exec.contexts.map Kcontext.pargv)[i]? = some pargv →
        pargv.command = some command → Allowed i (scheme.entry command).filter ∧
          (0 < i → (scheme.entry command).restore = false) := by
      intro i pargv command hi hcommand
      obtain ⟨-, command', hcommand', hallowed⟩ := hpasses i pargv hi
      cases hcommand.symm.trans hcommand'
      exact hallowed
    exact ⟨fun i pargv command hi hcommand => (hboth i pargv command hi hcommand).1,
      fun i pargv command hpos hi hcommand => (hboth i pargv command hi hcommand).2 hpos⟩
  · rintro ⟨hallowed, hrestore⟩
    apply parseForExec_of_passes hset h
    intro i pargv hi
    obtain ⟨-, command, hcommand⟩ := h.exists_head hi
    obtain ⟨split, -, -, hok⟩ := h
    exact ⟨hok pargv (List.mem_of_getElem? hi), command, hcommand,
      hallowed i pargv command hi hcommand, fun hpos => hrestore i pargv command hpos hi hcommand⟩

/-- The preparation of the scheme has seen to it that a filter has no sync ACTION. -/
theorem CommandsAllowed.noneSync (hscheme : scheme.FilterInv)
    (h : CommandsAllowed scheme pargvs) : NoneSync scheme pargvs := by
  intro i pargv command hpos hi hcommand
  have hallowed := h i pargv command hi hcommand
  apply hscheme.noSync
  intro hno
  rw [Allowed, if_neg (Nat.ne_of_gt hpos), hno] at hallowed
  simp at hallowed

theorem filterLaw_iff_same (hscheme : scheme.FilterInv) {argvParse : String → Option FauxArgv}
    {rawLine : String} :
    FilterLaw scheme V argvParse session rawLine fuel ↔
      ∀ pargvs, Components scheme V argvParse session rawLine fuel pargvs →
        (CommandsAllowed scheme pargvs ∧ NoneRestores scheme pargvs ↔ Placed scheme pargvs) := by
  constructor
  · intro hlaw pargvs hcomponents
    rw [← hcomponents.accepted_iff hscheme.legalFilter]
    constructor
    · rintro ⟨exec, session', hexec⟩
      obtain ⟨hcomponents', hplaced⟩ := hlaw.sound exec session' hexec
      obtain rfl := hcomponents.unique hcomponents'
      exact hplaced
    · exact hlaw.complete pargvs hcomponents
  · intro hsame
    constructor
    · intro exec session' hexec
      obtain ⟨hcomponents, -⟩ := parseForExec_eq_ok hscheme.legalFilter hexec
      refine ⟨hcomponents, (hsame _ hcomponents).mp ?_⟩
      exact (hcomponents.accepted_iff hscheme.legalFilter).mp ⟨exec, session', hexec⟩
    · intro pargvs hcomponents hplaced
      exact (hcomponents.accepted_iff hscheme.legalFilter).mpr
        ((hsame pargvs hcomponents).mpr hplaced)

/-- The code keeps to the law of filters exactly on the lines whose components have ACTIONs in
ENTRYs that may stand where their head ENTRYs may, and on those that are refused anyway. -/
theorem filter_law_iff {loaded : Kscheme} {loadPlugins : List Kplugin → Option (List Kplugin)}
    {steps : ℕ} {report : Kscheme.Report} (hloaded : loaded.Loaded)
    (hprepare : Kscheme.prepare loadPlugins steps loaded = some report) (hok : report.ok = true)
    (V : Oracle) (argvParse : String → Option FauxArgv) (session : Ksession) (rawLine : String)
    (fuel : ℕ) :
    FilterLaw report.scheme V argvParse session rawLine fuel ↔
      ∀ pargvs, Components report.scheme V argvParse session rawLine fuel pargvs →
        (∀ i pargv, pargvs[i]? = some pargv → HeadAgrees report.scheme i pargv) ∨
          RefusedAnyway report.scheme pargvs := by
  have hscheme : report.scheme.FilterInv := Kscheme.prepare_filterInv hloaded hprepare hok
  rw [filterLaw_iff_same hscheme]
  apply forall₂_congr
  intro pargvs hcomponents
  have hsync : CommandsAllowed report.scheme pargvs → NoneSync report.scheme pargvs :=
    CommandsAllowed.noneSync hscheme
  have hplaced : Placed report.scheme pargvs ↔ HeadsAllowed report.scheme pargvs ∧
      NoneRestores report.scheme pargvs ∧ NoneSync report.scheme pargvs :=
    ⟨fun h => ⟨h.heads, h.restore, h.async⟩, fun h => ⟨h.1, h.2.1, h.2.2⟩⟩
  have hagree : (∀ i pargv, pargvs[i]? = some pargv → HeadAgrees report.scheme i pargv) →
      (CommandsAllowed report.scheme pargvs ↔ HeadsAllowed report.scheme pargvs) := by
    intro hagrees
    constructor
    · intro hcommands i pargv e hi hhead
      obtain ⟨-, command, hcommand⟩ := hcomponents.exists_head hi
      exact (hagrees i pargv hi e command hhead hcommand).mp (hcommands i pargv command hi hcommand)
    · intro hheads i pargv command hi hcommand
      obtain ⟨⟨e, hhead⟩, -⟩ := hcomponents.exists_head hi
      exact (hagrees i pargv hi e command hhead hcommand).mpr (hheads i pargv e hi hhead)
  have hboth : CommandsAllowed report.scheme pargvs → HeadsAllowed report.scheme pargvs →
      ∀ i pargv, pargvs[i]? = some pargv → HeadAgrees report.scheme i pargv :=
    fun hcommands hheads i pargv hi e command hhead hcommand =>
      iff_of_true (hcommands i pargv command hi hcommand) (hheads i pargv e hi hhead)
  rw [hplaced]
  constructor
  · intro hsame
    by_cases hrestore : NoneRestores report.scheme pargvs
    · by_cases hcommands : CommandsAllowed report.scheme pargvs
      · exact .inl (hboth hcommands (hsame.mp ⟨hcommands, hrestore⟩).1)
      · by_cases hheads : HeadsAllowed report.scheme pargvs
        · refine .inr (.inr ⟨hcommands, .inr fun hasync => ?_⟩)
          exact hcommands (hsame.mpr ⟨hheads, hrestore, hasync⟩).1
        · exact .inr (.inr ⟨hcommands, .inl hheads⟩)
    · exact .inr (.inl hrestore)
  · rintro (hagrees | hrestore | ⟨hcommands, hother⟩)
    · have hiff := hagree hagrees
      exact ⟨fun h => ⟨hiff.mp h.1, h.2, hsync h.1⟩, fun h => ⟨hiff.mpr h.1, h.2.1⟩⟩
    · exact ⟨fun h => absurd h.2 hrestore, fun h => absurd h.2.1 hrestore⟩
    · refine ⟨fun h => absurd h.1 hcommands, fun h => ?_⟩
      rcases hother with hheads | hasync
      · exact absurd h.1 hheads
      · exact absurd h.2.2 hasync

def filterEntry : EntryId → Kentry
  | 0 => { Kentry.new "view" 0 with container := true, mode := .switch }
  | 1 => { Kentry.new "show" 1 with parent := some 0 }
  | 2 => { Kentry.new "match" 2 with parent := some 0, filter := .yes }
  | 3 => { Kentry.new "pattern" 3 with parent := some 2 }
  | 4 => { Kentry.new "sorted" 4 with parent := some 0, filter := .yes }
  | n => { Kentry.new "COMMAND" n with purpose := .ptype }

def printAction : Kaction := { Kaction.new with symRef := some "print" }

def filterBody : BodyId → Kbody
  | 0 => { Kbody.new with entrys := [1, 2, 4] }
  | 1 => { Kbody.new with entrys := [5], actions := [printAction] }
  | 2 => { Kbody.new with entrys := [5, 3] }
  | 3 => { Kbody.new with entrys := [5], actions := [printAction] }
  | 4 => { Kbody.new with entrys := [5], actions := [printAction] }
  | _ => Kbody.new

/-- A view with a command `show`, a filter `match` whose ACTION is in its parameter `pattern`,
and a filter `sorted` with an ACTION of its own. -/
def filterScheme : Kscheme := ⟨[], [0], filterEntry, filterBody⟩

/-- The loading of a plugin with one async symbol. -/
def loadPrint (_ : List Kplugin) : Option (List Kplugin) :=
  some [⟨"script", [⟨"print", .no, .no, false⟩]⟩]

theorem filterScheme_loaded : filterScheme.Loaded := by
  have hbody : ∀ e, (filterScheme.entry e).body = e := by
    intro e
    match e with
    | 0 | 1 | 2 | 3 | 4 => rfl
    | n + 5 => rfl
  refine ⟨fun e => ?_, fun e e' h => ?_, fun e action haction => ?_⟩
  · match e with
    | 0 | 1 | 2 | 3 | 4 => decide
    | n + 5 => exact KentryFilter.noConfusion
  · rwa [hbody, hbody] at h
  · match e with
    | 0 | 2 => cases haction
    | 1 | 3 | 4 =>
      obtain rfl := List.mem_singleton.mp haction
      rfl
    | n + 5 => cases haction

theorem filter_law_iff_sample : ∃ report,
    Kscheme.prepare loadPrint 5 filterScheme = some report ∧
      (FilterLaw report.scheme (commandPtype filterEntry) words sampleRoot
          "show | sorted" 5 ↔
        ∀ pargvs, Components report.scheme (commandPtype filterEntry) words
            sampleRoot "show | sorted" 5 pargvs →
          (∀ i pargv, pargvs[i]? = some pargv → HeadAgrees report.scheme i pargv) ∨
            RefusedAnyway report.scheme pargvs) := by
  have hrun : ((Kscheme.prepare loadPrint 5 filterScheme).map Kscheme.Report.ok) = some true := by
    decide
  obtain ⟨report, hprepare, hok⟩ := Option.map_eq_some_iff.mp hrun
  exact ⟨report, hprepare, filter_law_iff filterScheme_loaded hprepare hok _ _ _ _ _⟩

/-- The filter attributes of the head ENTRYs of a line that has been accepted. -/
def acceptedHeads (report : Kscheme.Report) (rawLine : String) : List (Option KentryFilter) :=
  match parseForExec report.scheme (commandPtype filterEntry) words
      sampleRoot rawLine 5 with
  | some ⟨.ok exec, _⟩ => exec.contexts.map fun context =>
      (headEntry report.scheme context.pargv.pargs).map fun e => (report.scheme.entry e).filter
  | _ => []

/-- The filter `match` is executed as the first component, because its ACTION is that of
`pattern`, which is not a filter. -/
theorem filter_law_first_component : ∃ report,
    Kscheme.prepare loadPrint 5 filterScheme = some report ∧ report.ok = true ∧
      ¬ FilterLaw report.scheme (commandPtype filterEntry) words sampleRoot
        "match pattern" 5 := by
  have hrun : ((Kscheme.prepare loadPrint 5 filterScheme).map fun report =>
      (report.ok, acceptedHeads report "match pattern")) = some (true, [some .yes]) := by
    decide
  obtain ⟨report, hprepare, heq⟩ := Option.map_eq_some_iff.mp hrun
  obtain ⟨hok, hheads⟩ := Prod.mk.inj heq
  refine ⟨report, hprepare, hok, fun hlaw => ?_⟩
  unfold acceptedHeads at hheads
  split at hheads
  · rename_i exec session' hexec
    obtain ⟨context, hcontexts, hhead⟩ := List.map_eq_singleton_iff.mp hheads
    obtain ⟨e, he, hfilter⟩ := Option.map_eq_some_iff.mp hhead
    have hallowed := (hlaw.sound exec session' hexec).2.heads 0 context.pargv e
      (by rw [hcontexts]; rfl) he
    exact hallowed hfilter
  · cases hheads

end Ksession

end Klish
