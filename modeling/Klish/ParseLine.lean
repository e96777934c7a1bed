import Klish.Kpath
import Klish.ParseArg

/-!
# `ksession_parse_line`

The line is tried on the levels of the session path, from the current one to the base.
-/

namespace Klish.Ksession

variable (scheme : Kscheme) (V : Oracle)

/-- The state the levels of the path are parsed from. -/
def initialState (session : Ksession) (argv : FauxArgv) (purpose : KpargvPurpose) : ArgState where
  iter := argv.args
  pargv := { Kpargv.new with continuable := argv.continuable, purpose := purpose }
  done := session.done

/-- Status, shared state and level counter when the loop over the levels ends. -/
structure LevelsEnd where
  pstatus : KpargvStatus
  st : ArgState
  levelFound : ℕ

/-- The loop over the path levels, given from the current level down to the base. -/
def levelsLoop (parse : ParseFn) (dontParseUpper : Bool) :
    List EntryId → KpargvStatus → ArgState → ℕ → Option LevelsEnd
  | [], pstatus, st, levelFound => some ⟨pstatus, st, levelFound⟩
  | currentEntry :: levels, pstatus, st, levelFound =>
    if scheme.purpose currentEntry ≠ .common then
      levelsLoop parse dontParseUpper levels pstatus st levelFound
    else
      match parse currentEntry st with
      | none => none
      | some (pstatus, st) =>
        if pstatus ≠ .notfound ∧ pstatus ≠ .none then some ⟨pstatus, st, levelFound⟩
        -- NOTFOUND but some args were parsed.
        else if !st.pargv.pargs.isEmpty then some ⟨pstatus, st, levelFound⟩
        else if dontParseUpper then some ⟨pstatus, st, levelFound⟩
        else if !(scheme.entry currentEntry).transparent then some ⟨pstatus, st, levelFound⟩
        else levelsLoop parse dontParseUpper levels pstatus st (sizeDec levelFound)

/-- The level ends the loop: something other than NOTFOUND was found there, words were taken
there, or the upper levels are not to be searched. -/
def StopsAt (dontParseUpper : Bool) (e : EntryId) (r : KpargvStatus × ArgState) : Prop :=
  (r.1 ≠ .notfound ∧ r.1 ≠ .none) ∨ r.2.pargv.pargs ≠ [] ∨ dontParseUpper = true ∨
    (scheme.entry e).transparent = false

instance (dontParseUpper : Bool) (e : EntryId) (r : KpargvStatus × ArgState) :
    Decidable (StopsAt scheme dontParseUpper e r) :=
  inferInstanceAs (Decidable (_ ∨ _))

theorem levelsLoop_skip {parse : ParseFn} {dontParseUpper : Bool} {e : EntryId}
    {levels : List EntryId} {pstatus : KpargvStatus} {st : ArgState} {levelFound : ℕ}
    (h : scheme.purpose e ≠ .common) :
    levelsLoop scheme parse dontParseUpper (e :: levels) pstatus st levelFound =
      levelsLoop scheme parse dontParseUpper levels pstatus st levelFound := by
  rw [levelsLoop, if_pos h]

theorem levelsLoop_common {parse : ParseFn} {dontParseUpper : Bool} {e : EntryId}
    {levels : List EntryId} {pstatus : KpargvStatus} {st : ArgState} {levelFound : ℕ}
    {r : KpargvStatus × ArgState} (h : scheme.purpose e = .common) (hcall : parse e st = some r) :
    levelsLoop scheme parse dontParseUpper (e :: levels) pstatus st levelFound =
      if StopsAt scheme dontParseUpper e r then some ⟨r.1, r.2, levelFound⟩
      else levelsLoop scheme parse dontParseUpper levels r.1 r.2 (sizeDec levelFound) := by
  rw [levelsLoop, if_neg (not_not.mpr h)]
  simp only [hcall, StopsAt]
  by_cases h₁ : r.1 ≠ .notfound ∧ r.1 ≠ .none
  · simp [h₁]
  by_cases h₂ : r.2.pargv.pargs = []
  · by_cases h₃ : dontParseUpper = true
    · simp [h₁, h₂, h₃]
    · by_cases h₄ : (scheme.entry e).transparent = false <;> simp [h₁, h₂, h₃, h₄]
  · simp [h₁, h₂]

/-- No completion for the upper levels until the user has typed something. -/
def dontParseUpper (argv : FauxArgv) (purpose : KpargvPurpose) : Bool :=
  (argv.args.length == 0 && (purpose == .completion || purpose == .help)) ||
    (argv.args.length == 1 && argv.continuable && purpose == .help)

def parseLevels (session : Ksession) (argv : FauxArgv) (purpose : KpargvPurpose)
    (isFilter : Bool) (fuel : ℕ) : Option LevelsEnd :=
  levelsLoop scheme (parseArg scheme V isFilter fuel false) (dontParseUpper argv purpose)
    session.path.levels.reverse .none (initialState session argv purpose) (sizeDec session.path.len)

/-- The meaning of the parser's status for the whole line. -/
def lineStatus (pstatus : KpargvStatus) (iter : List String) (command : Option EntryId) :
    KpargvStatus :=
  match pstatus with
  | .none => .error
  | .ok => if !iter.isEmpty then .error else if command.isNone then .noaction else .ok
  | .notfound => .error
  | .error => .error
  | .noaction => .noaction

/-- What `ksession_parse_line` makes of the end of the loop over the levels. -/
def LevelsEnd.pargv (r : LevelsEnd) : Kpargv :=
  { r.st.pargv with
    lastArg := match r.st.iter with
      | [] => r.st.pargv.lastArg
      | arg :: _ => some arg
    status := lineStatus r.pstatus r.st.iter r.st.pargv.command
    level := r.levelFound }

/-- `ksession_parse_line` -/
def parseLine (session : Ksession) (argv : FauxArgv) (purpose : KpargvPurpose)
    (isFilter : Bool) (fuel : ℕ) : Option (Kpargv × Ksession) :=
  (parseLevels scheme V session argv purpose isFilter fuel).map fun r =>
    (r.pargv, { session with done := r.st.done })

variable {scheme V} {session session' : Ksession} {argv : FauxArgv} {purpose : KpargvPurpose}
  {isFilter : Bool} {fuel : ℕ} {pargv : Kpargv}

theorem lineStatus_eq_ok {pstatus : KpargvStatus} {iter : List String} {command : Option EntryId} :
    lineStatus pstatus iter command = .ok ↔ pstatus = .ok ∧ iter = [] ∧ command ≠ none := by
  cases pstatus <;> cases iter <;> cases command <;> simp [lineStatus]

theorem parseLine_eq_some :
    parseLine scheme V session argv purpose isFilter fuel = some (pargv, session') ↔
      ∃ r, parseLevels scheme V session argv purpose isFilter fuel = some r ∧
        pargv = r.pargv ∧ session' = { session with done := r.st.done } := by
  simp [parseLine, eq_comm]

/-- Parsing does not change the session path. -/
theorem parseLine_path
    (h : parseLine scheme V session argv purpose isFilter fuel = some (pargv, session')) :
    session'.path = session.path := by
  obtain ⟨_, _, _, rfl⟩ := parseLine_eq_some.mp h
  rfl

end Klish.Ksession
