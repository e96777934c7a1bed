import Klish.Kpargv

/-!
# `ksession_parse_arg`

The recursive parser of one command line. All calls share one cursor over the words
(`iter`, empty for the NULL iterator) and one `Kpargv`, and nothing is ever rolled back.
Links may make the ENTRY graph cyclic and the SEQUENCE loop moves its iterator backwards,
so the functions take fuel, and `none` stands for a call that has not returned yet.
-/

namespace Klish

/-- What `ksession_exec_locally` reports to its caller. `stopped` says that a signal ended
the local event loop and the session was marked as done. -/
structure LocalExec where
  completed : Bool
  retcode : ℤ
  out : Option String
  stopped : Bool

/-- The service ACTIONs of a PTYPE or COND, as a function of the executed ENTRY, of the
arguments parsed so far and of the candidate argument. -/
abbrev Oracle := EntryId → List Kparg → Option Kparg → LocalExec

structure FauxArgv where
  args : List String
  continuable : Bool

/-- What the calls of the parser share: the cursor, the arguments, the session's flag. -/
structure ArgState where
  iter : List String
  pargv : Kpargv
  done : Bool

namespace ArgState

def addPargs (st : ArgState) (parg : Kparg) : ArgState :=
  { st with pargv := st.pargv.addPargs parg }

def addCompletions (scheme : Kscheme) (st : ArgState) (e : EntryId) : ArgState :=
  { st with pargv := st.pargv.addCompletions scheme e }

/-- `kpargv_set_candidate_parg` -/
def setCandidateParg (st : ArgState) (parg : Kparg) : ArgState :=
  { st with pargv := { st.pargv with candidateParg := some parg } }

/-- `kpargv_set_command` -/
def setCommand (st : ArgState) (e : EntryId) : ArgState :=
  { st with pargv := { st.pargv with command := some e } }

/-- The session is done when a local execution was stopped by a signal. -/
def noteStopped (st : ArgState) (res : LocalExec) : ArgState :=
  { st with done := st.done || res.stopped }

end ArgState

namespace Ksession

variable (scheme : Kscheme) (V : Oracle)

/-- `ksession_validate_arg` -/
def validateArg (st : ArgState) : Bool × ArgState :=
  match st.pargv.candidateParg with
  | none => (false, st)
  | some candidate =>
    match scheme.nestedByPurpose candidate.entry .ptype with
    | none => (false, st)
    | some ptypeEntry =>
      let res := V ptypeEntry st.pargv.pargs (some candidate)
      let st := st.noteStopped res
      if !res.completed then (false, st)
      else if res.retcode ≠ 0 then (false, st)
      else if strIsEmpty res.out then (true, st)
      else (true, st.setCandidateParg { candidate with value := res.out })

/-- The COND of an ENTRY, tested before anything else. -/
def testCond (e : EntryId) (st : ArgState) : Bool × ArgState :=
  match scheme.nestedByPurpose e .cond with
  | none => (true, st)
  | some cond =>
    let res := V cond st.pargv.pargs st.pargv.candidateParg
    (res.completed && decide (res.retcode = 0), st.noteStopped res)

/-- Test one word against one ENTRY and accept or decline the candidate. -/
def tryCandidate (e : EntryId) (arg : String) (st : ArgState) : Bool × ArgState :=
  match validateArg scheme V (st.setCandidateParg ⟨e, some arg⟩) with
  | (true, st) => (true, { st with pargv := st.pargv.acceptCandidateParg })
  | (false, st) => (false, { st with pargv := st.pargv.declineCandidateParg })

/-- Outcome of the part of the call that concerns the ENTRY itself: a final status, or a
status to go on with to the nested ENTRYs. -/
inductive SelfResult where
  | ret (status : KpargvStatus) (st : ArgState)
  | cont (retcode : KpargvStatus) (st : ArgState)

/-- The ENTRY may be offered as a completion: filters after a pipe, non-filters before it. -/
def isHinted (isFilter : Bool) (e : EntryId) (pargv : Kpargv) : Bool :=
  let filterFlag := (scheme.entry e).filter
  (pargv.purpose == .completion || pargv.purpose == .help) &&
    (filterFlag == .dual || (isFilter && filterFlag == .yes) ||
      (!isFilter && filterFlag == .no) || (isFilter && !pargv.pargs.isEmpty))

def resolveSelf (isFilter entryIsCommand : Bool) (e : EntryId) (st : ArgState) : SelfResult :=
  if entryIsCommand then
    -- The command of a service execution is predefined, no word stands for it.
    if (scheme.actions e).isEmpty then .ret .error st
    else .cont .ok ((st.addPargs ⟨e, none⟩).setCommand e)
  else if scheme.container e then .cont .none st
  else
    let hinted := isHinted scheme isFilter e st.pargv
    match st.iter with
    | [] =>
      if hinted && !st.pargv.continuable then .ret .notfound (st.addCompletions scheme e)
      else .ret .notfound st
    | arg :: rest =>
      if hinted && rest.isEmpty && st.pargv.continuable then
        .ret .notfound (st.addCompletions scheme e)
      else
        match tryCandidate scheme V e arg st with
        | (true, st) =>
          let st := if (scheme.actions e).isEmpty then st else st.setCommand e
          .cont .ok { st with iter := rest }
        | (false, st) => .ret .notfound st

/-- A call on a nested ENTRY. -/
abbrev ParseFn := EntryId → ArgState → Option (KpargvStatus × ArgState)

variable (rec : ParseFn) (e : EntryId)

/-- The loop over the alternatives of a SWITCH. -/
def switchLoop : List EntryId → KpargvStatus → ArgState → Option (KpargvStatus × ArgState)
  | [], rc, st => some (rc, st)
  | nested :: iter, rc, st =>
    if scheme.purpose nested ≠ .common then switchLoop iter rc st
    else
      match rec nested st with
      | none => none
      | some (res, st) =>
        let rc := if res = .none then .notfound else res
        let st :=
          if res = .ok ∧ scheme.container e = true then
            st.addPargs ⟨e, some (scheme.name nested)⟩
          else st
        if res = .ok ∨ res = .error then some (rc, st) else switchLoop iter rc st

/-- What the loop over the occurrences of one nested ENTRY leaves behind. -/
structure Occurs where
  num : ℕ
  rc : KpargvStatus
  breakLoop : Bool
  consumed : Bool
  st : ArgState

/-- The loop over the occurrences of one nested ENTRY of a SEQUENCE. The first argument
counts down from 'max'. -/
def occursLoop (nested : EntryId) (min : ℕ) :
    ℕ → ℕ → KpargvStatus → Bool → ArgState → Option Occurs
  | 0, num, rc, consumed, st => some ⟨num, rc, false, consumed, st⟩
  | left + 1, num, rc, consumed, st =>
    match rec nested st with
    | none => none
    | some (res, st) =>
      if res = .none ∨ (res = .notfound ∧ min ≤ num) then some ⟨num, rc, false, consumed, st⟩
      else if res ≠ .ok then some ⟨num, res, true, consumed, st⟩
      else occursLoop nested min left (num + 1) res true st

/-- The loop over the nested ENTRYs of a SEQUENCE. `iter` and `savedIter` are suffixes of
the nested list, `curLevelPargv` remembers the nested ENTRYs already entered. -/
def sequenceLoop : ℕ → List EntryId → List EntryId → Kpargv → KpargvStatus → ArgState →
    Option (KpargvStatus × ArgState)
  | 0, _, _, _, _, _ => none
  | _ + 1, [], _, _, rc, st => some (rc, st)
  | fuel + 1, nested :: iter, savedIter, curLevelPargv, rc, st =>
    let min := (scheme.entry nested).min
    if scheme.purpose nested ≠ .common then
      sequenceLoop fuel iter savedIter curLevelPargv rc st
    else if curLevelPargv.entryExists nested then
      sequenceLoop fuel iter savedIter curLevelPargv rc st
    else
      match occursLoop rec nested min (scheme.entry nested).max 0 rc false st with
      | none => none
      | some occ =>
        if occ.breakLoop then some (occ.rc, occ.st)
        else if occ.consumed then
          let st :=
            if scheme.container e then occ.st.addPargs ⟨e, some (scheme.name nested)⟩ else occ.st
          let savedIter := if 0 < min || (scheme.entry nested).order then iter else savedIter
          -- An optional ENTRY sends the iterator back to look for other optional ones.
          let iter := if min = 0 ∧ 0 < occ.num then savedIter else iter
          sequenceLoop fuel iter savedIter (curLevelPargv.addPargs ⟨nested, none⟩) occ.rc st
        else sequenceLoop fuel iter savedIter curLevelPargv occ.rc occ.st

/-- The status of an ENTRY, from its own (`retcode`) and that of its nested ENTRYs (`rc`). -/
def combineStatus (retcode rc : KpargvStatus) : KpargvStatus :=
  if rc = .none then retcode
  else if retcode = .none then rc
  else if retcode = .ok ∧ rc = .notfound then .error
  else rc

/-- The part of the call that concerns the nested ENTRYs. -/
def parseNested (fuel : ℕ) (retcode : KpargvStatus) (st : ArgState) :
    Option (KpargvStatus × ArgState) :=
  match (scheme.entry e).mode with
  | .switch =>
    (switchLoop scheme rec e (scheme.nested e) .none st).map fun r =>
      (combineStatus retcode r.1, r.2)
  | .sequence =>
    (sequenceLoop scheme rec e fuel (scheme.nested e) (scheme.nested e) .new .none st).map
      fun r => (combineStatus retcode r.1, r.2)
  | .empty | .none => some (retcode, st)

/-- The body of `ksession_parse_arg`, over the calls it makes on nested ENTRYs. -/
def parseBody (fuel : ℕ) (isFilter entryIsCommand : Bool) (st : ArgState) :
    Option (KpargvStatus × ArgState) :=
  match testCond scheme V e st with
  | (false, st) => some (.none, st)
  | (true, st) =>
    match resolveSelf scheme V isFilter entryIsCommand e st with
    | .ret status st => some (status, st)
    | .cont retcode st =>
      if (scheme.nested e).isEmpty then some (retcode, st)
      else parseNested scheme rec e fuel retcode st

/-- `ksession_parse_arg` -/
def parseArg (isFilter : Bool) : ℕ → Bool → EntryId → ArgState → Option (KpargvStatus × ArgState)
  | 0, _, _, _ => none
  | fuel + 1, entryIsCommand, e, st =>
    parseBody scheme V (parseArg isFilter fuel false) e fuel isFilter entryIsCommand st

end Ksession

end Klish
