import Klish.Kexec
import Klish.ParseLine

/-!
# `ksession_parse_for_exec`

A line is split at its pipes and each component is parsed on its own and checked.
-/

namespace Klish

/-- `kpargv_status_decode` -/
def KpargvStatus.decode : KpargvStatus → String
  | .ok => "Ok"
  | .notfound => "Not found"
  | .error => "Illegal command"
  | .noaction => "Command has no action"
  | .none => "Unknown error"

namespace Ksession

/-- The loop over the arguments of the raw line. `cur` is the component being collected. -/
def splitLoop (continuable : Bool) :
    List String → List String → List FauxArgv → Except String (List FauxArgv)
  | [], cur, list =>
    -- No arguments after the last pipe is not an error, but a quote that is still open is.
    if cur.isEmpty && continuable then .error "The pipe '|' can't be the last argument"
    else .ok (list ++ [⟨cur, continuable⟩])
  | arg :: iter, cur, list =>
    if arg = "|" then
      if cur.isEmpty then .error "The pipe '|' can't be at the first position"
      else splitLoop continuable iter [] (list ++ [⟨cur, false⟩])
    else splitLoop continuable iter (cur ++ [arg]) list

/-- `ksession_split_pipes`. A line that has no arguments in it leaves no message. -/
def splitPipes (argvParse : String → Option FauxArgv) (rawLine : String) :
    Except (Option String) (List FauxArgv) :=
  match argvParse rawLine with
  | none => .error none
  | some argv => (splitLoop argv.continuable argv.args [] []).mapError some

variable (scheme : Kscheme) (V : Oracle)

/-- `ksession_check_line`: the message of a component that is refused. -/
def checkLine (pargv : Kpargv) (isFirst : Bool) : Option String :=
  if pargv.purpose = .exec ∧ pargv.status ≠ .ok then some pargv.status.decode
  else
    match pargv.command with
    -- Can't check following conditions without cmd.
    | none => none
    | some cmd =>
      if isFirst then
        if (scheme.entry cmd).filter = .yes then
          some ("The filter \"" ++ scheme.name cmd ++ "\" can't be used without previous pipeline")
        else none
      else if (scheme.entry cmd).filter = .no then
        some ("The non-filter command \"" ++ scheme.name cmd ++ "\" can't be destination of pipe")
      else if (scheme.entry cmd).restore then
        some ("The command \"" ++ scheme.name cmd ++ "\" can't be destination of pipe")
      else none

/-- The pipeline or the message, and the session after the parses. -/
structure ForExec where
  result : Except (Option String) Kexec
  session : Ksession

/-- The loop over the components, the first of which has the number `index`. -/
def execLoop (fuel : ℕ) : ℕ → List FauxArgv → Ksession → Kexec → Option ForExec
  | _, [], session, exec => some ⟨.ok exec, session⟩
  | index, argv :: iter, session, exec =>
    match parseLine scheme V session argv .exec (index != 0) fuel with
    | none => none
    | some (pargv, session) =>
      match checkLine scheme pargv (index == 0) with
      | some error => some ⟨.error (some error), session⟩
      | none =>
        execLoop fuel (index + 1) iter session
          { exec with contexts := exec.contexts ++ [Kcontext.new pargv index iter.isEmpty] }

/-- `ksession_parse_for_exec` -/
def parseForExec (argvParse : String → Option FauxArgv) (session : Ksession) (rawLine : String)
    (fuel : ℕ) : Option ForExec :=
  match splitPipes argvParse rawLine with
  | .error error => some ⟨.error error, session⟩
  | .ok split => execLoop scheme V fuel 0 split session (Kexec.new true)

/-- The loop of `ksession_parse_for_hint`. Only the last component is parsed for the hint, and a
component that is refused leaves nothing. -/
def hintLoop (purpose : KpargvPurpose) (fuel : ℕ) :
    ℕ → List FauxArgv → Ksession → Option (Option Kpargv × Ksession)
  | _, [], session => some (none, session)
  | index, argv :: iter, session =>
    match parseLine scheme V session argv (if iter.isEmpty then purpose else .exec) (index != 0)
        fuel with
    | none => none
    | some (pargv, session) =>
      match checkLine scheme pargv (index == 0) with
      | some _ => some (none, session)
      | none =>
        if iter.isEmpty then some (some pargv, session)
        else hintLoop purpose fuel (index + 1) iter session

/-- `ksession_parse_for_hint` -/
def parseForHint (argvParse : String → Option FauxArgv) (session : Ksession) (rawLine : String)
    (purpose : KpargvPurpose) (fuel : ℕ) : Option (Option Kpargv × Ksession) :=
  match splitPipes argvParse rawLine with
  | .error _ => some (none, session)
  | .ok split => hintLoop scheme V purpose fuel 0 split session

/-- The words of a line, which has no quotes in it. -/
def words (rawLine : String) : Option FauxArgv :=
  some ⟨((rawLine.toList.splitOn ' ').filter (· ≠ [])).map String.ofList, false⟩

end Ksession

end Klish
