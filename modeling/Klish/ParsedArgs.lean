import Klish.ParseProgress

/-!
# The arguments that plugins get

A plugin gets the arguments of a parsed line, or those of an ENTRY that is executed for the session
itself.
-/

namespace Klish.Ksession

variable (scheme : Kscheme) (V : Oracle)

/-- `ksession_parse_for_local_exec`. There is no line for such an ENTRY. -/
def parseForLocalExec (session : Ksession) (entry : EntryId) (fuel : ℕ) : Option (Option Kpargv) :=
  (parseArg scheme V false fuel true entry (initialState session ⟨[], false⟩ .exec)).map fun r =>
    if r.1 = .ok ∧ r.2.iter = [] then some r.2.pargv else none

inductive Parsed : Kpargv → Prop
  | line {session session' : Ksession} {argv : FauxArgv} {purpose : KpargvPurpose}
      {isFilter : Bool} {fuel : ℕ} {pargv : Kpargv}
      (h : parseLine scheme V session argv purpose isFilter fuel = some (pargv, session')) :
      Parsed pargv
  | service {session : Ksession} {entry : EntryId} {fuel : ℕ} {pargv : Kpargv}
      (h : parseForLocalExec scheme V session entry fuel = some (some pargv)) : Parsed pargv

variable {scheme V} {isFilter : Bool} {pargv : Kpargv}

theorem Added.value_isSome {start added : List Kparg} {words : List String}
    (h : Added scheme V isFilter start added words) {parg : Kparg} (hparg : parg ∈ added) :
    parg.value ≠ none := by
  induction h with
  | nil => cases hparg
  | word _ _ _ ih =>
    rcases List.mem_append.mp hparg with hold | hnew
    · exact ih hold
    · rw [List.mem_singleton.mp hnew]
      exact Option.some_ne_none _
  | container _ _ _ _ _ _ _ ih =>
    rcases List.mem_append.mp hparg with hold | hnew
    · exact ih hold
    · rw [List.mem_singleton.mp hnew]
      exact Option.some_ne_none _

/-- Without words the nested ENTRYs leave no arguments. -/
theorem parseNested_idle {rec : ParseFn} (hrec : ProgressSpec scheme V isFilter rec) {e : EntryId}
    {fuel : ℕ} {retcode : KpargvStatus} {st : ArgState} {r : KpargvStatus × ArgState}
    (hiter : st.iter = []) (hcandidate : st.pargv.candidateParg = none)
    (h : parseNested scheme rec e fuel retcode st = some r) : r.2.pargv.pargs = st.pargv.pargs := by
  have hidle : ∀ {st' : ArgState} {p : Prop}, Advance st st' ∨ (Idle st st' ∧ p) →
      st'.pargv.pargs = st.pargv.pargs := by
    rintro st' p (hadvance | ⟨hidle, -⟩)
    · have hshorter := hadvance.shorter
      rw [hiter] at hshorter
      exact absurd hshorter (Nat.not_lt_zero _)
    · exact hidle.pargs
  unfold parseNested at h
  split at h
  · obtain ⟨⟨rc, st'⟩, hloop, rfl⟩ := Option.map_eq_some_iff.mp h
    exact hidle (switchLoop_outcome hrec (fun _ => id) hcandidate hloop)
  · obtain ⟨⟨rc, st'⟩, hloop, rfl⟩ := Option.map_eq_some_iff.mp h
    exact hidle (sequenceLoop_outcome hrec (fun _ => id) (fun _ => id) rfl hcandidate hloop)
  · cases h
    rfl
  · cases h
    rfl

/-- The only argument is the ENTRY itself, and has no value. -/
theorem parseForLocalExec_pargs {session : Ksession} {entry : EntryId} {fuel : ℕ}
    (h : parseForLocalExec scheme V session entry fuel = some (some pargv)) :
    pargv.pargs = [⟨entry, none⟩] := by
  obtain ⟨⟨status, st⟩, hcall, hend⟩ := Option.map_eq_some_iff.mp h
  obtain ⟨⟨rfl, -⟩, rfl⟩ : (status = .ok ∧ st.iter = []) ∧ st.pargv = pargv := by
    simpa using hend
  cases fuel with
  | zero => cases hcall
  | succ fuel =>
    rw [parseArg, parseBody] at hcall
    have hsame : ∀ {met : Bool} {st₁ : ArgState},
        testCond scheme V entry (initialState session ⟨[], false⟩ .exec) = (met, st₁) →
          st₁.iter = [] ∧ st₁.pargv.pargs = [] ∧ st₁.pargv.candidateParg = none := by
      intro met st₁ htest
      unfold testCond at htest
      split at htest
      · cases htest
        exact ⟨rfl, rfl, rfl⟩
      · cases htest
        exact ⟨rfl, rfl, rfl⟩
    split at hcall
    · cases hcall
    · rename_i st₁ htest
      obtain ⟨hiter, hpargs, hcandidate⟩ := hsame htest
      unfold resolveSelf at hcall
      rw [if_pos rfl] at hcall
      by_cases hactions : (scheme.actions entry).isEmpty = true
      · rw [if_pos hactions] at hcall
        cases hcall
      · rw [if_neg hactions] at hcall
        dsimp only at hcall
        have hadded : ((st₁.addPargs ⟨entry, none⟩).setCommand entry).pargv.pargs =
            [⟨entry, none⟩] := congrArg (· ++ [(⟨entry, none⟩ : Kparg)]) hpargs
        split at hcall
        · cases hcall
          exact hadded
        · exact (parseNested_idle (parseArg_progress fuel) (by exact hiter) (by exact hcandidate)
            hcall).trans hadded

/-- An argument without a value is the only one. -/
theorem Parsed.pargs_eq_singleton (h : Parsed scheme V pargv) {parg : Kparg}
    (hparg : parg ∈ pargv.pargs) (hnull : parg.value = none) : pargv.pargs = [parg] := by
  cases h with
  | line h =>
    obtain ⟨r, hlevels, rfl, -⟩ := parseLine_eq_some.mp h
    obtain ⟨added, words, hpargs, -, hadded⟩ := (parseLevels_conserves hlevels).added
    have hmem : parg ∈ added := by
      have hall : r.st.pargv.pargs = added := hpargs
      rw [← hall]
      exact hparg
    exact absurd hnull (hadded.value_isSome hmem)
  | service h =>
    have hpargs := parseForLocalExec_pargs h
    rw [hpargs] at hparg ⊢
    rw [List.mem_singleton.mp hparg]

/-- The PTYPE of a STRING accepts all words. -/
def stringPtype : Oracle := fun _ _ _ => ⟨true, 0, none, false⟩

end Klish.Ksession
