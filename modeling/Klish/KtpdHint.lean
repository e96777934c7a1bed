import Klish.ParseExec

/-!
# Completions and help

What the server answers to a request for completions or for help. The hints are produced by
service ACTIONs of the candidates, and the lists are sorted and without repetitions.
-/

namespace Klish.Ksession

/-- The output of a local execution that completed with the return code 0. -/
def execOutput (res : LocalExec) : Option String :=
  if res.completed = true ∧ res.retcode = 0 then res.out else none

/-- The session after a local execution. -/
def noteStopped (session : Ksession) (res : LocalExec) : Ksession :=
  { session with done := session.done || res.stopped }

/-- `faux_list_add` to a list that is sorted and unique. -/
def addSorted {α : Type} [DecidableEq α] (le : α → α → Bool) (x : α) : List α → List α
  | [] => [x]
  | y :: ys => if x = y then y :: ys else if le x y then x :: y :: ys else y :: addSorted le x ys

/-- `strcmp` of two strings is not positive. -/
def strLe (s t : String) : Bool := decide (s ≤ t)

/-- `help_compare` of two lines of help is not positive. -/
def helpLe (f s : String × String) : Bool :=
  if f.1 = s.1 then strLe f.2 s.2 else strLe f.1 s.1

variable (scheme : Kscheme) (V : Oracle) (getlines : String → List String)

/-- The ENTRY that produces a hint: that of the candidate itself, or of its PTYPE. -/
def hintEntry (candidate : EntryId) (purpose : KentryPurpose) : Option EntryId :=
  (scheme.nestedByPurpose candidate purpose).or
    ((scheme.nestedByPurpose candidate .ptype).bind fun ptype =>
      scheme.nestedByPurpose ptype purpose)

/-- The ends of the lines that begin with the unfinished word. -/
def completionSuffixes (lastArg : Option String) (out : String) : List String :=
  let word := (lastArg.getD "").toList
  ((getlines out).filter fun l => word.isPrefixOf l.toList).map fun l =>
    String.ofList (l.toList.drop word.length)

/-- The loop over the candidates in `ktpd_session_process_completion`. -/
def completionLoop (pargv : Kpargv) :
    List EntryId → List String → Ksession → List String × Ksession
  | [], completions, session => (completions, session)
  | candidate :: iter, completions, session =>
    match hintEntry scheme candidate .completion with
    | none => completionLoop pargv iter completions session
    | some completion =>
      let res := V completion pargv.pargs (some ⟨candidate, pargv.lastArg⟩)
      let session := noteStopped session res
      match execOutput res with
      | none => completionLoop pargv iter completions session
      | some out =>
        completionLoop pargv iter
          ((completionSuffixes getlines pargv.lastArg out).foldl
            (fun completions s => addSorted strLe s completions) completions) session

/-- Every two lines of the output of a help ACTION. -/
def helpPairs : List String → List (String × String)
  | line₁ :: line₂ :: lines => (line₁, line₂) :: helpPairs lines
  | _ => []

/-- Help with available information, for a candidate without a help ACTION. -/
def helpDefault (candidate : EntryId) : String × String :=
  let prefixStr :=
    match scheme.nestedByPurpose candidate .ptype with
    | some ptype => ((scheme.entry ptype).help.or (scheme.entry ptype).value).getD
        (scheme.name ptype)
    | none => (scheme.entry candidate).value.getD (scheme.name candidate)
  (prefixStr, ((scheme.entry candidate).help.or (scheme.entry candidate).value).getD
    (scheme.name candidate))

/-- The loop over the candidates in `ktpd_session_process_help`. -/
def helpLoop (pargv : Kpargv) :
    List EntryId → List (String × String) → Ksession → List (String × String) × Ksession
  | [], helps, session => (helps, session)
  | candidate :: iter, helps, session =>
    match hintEntry scheme candidate .help with
    | none => helpLoop pargv iter (addSorted helpLe (helpDefault scheme candidate) helps) session
    | some help =>
      let res := V help pargv.pargs (some ⟨candidate, pargv.lastArg⟩)
      let session := noteStopped session res
      match execOutput res with
      | none => helpLoop pargv iter helps session
      | some out =>
        helpLoop pargv iter
          ((helpPairs (getlines out)).foldl (fun helps h => addSorted helpLe h helps) helps) session

end Klish.Ksession
