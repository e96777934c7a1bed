import Klish.ParseTermination
import Mathlib.Logic.Relation

/-!
# The turns of a parse

The calls of the parser share one state, and there are few ways in which it is changed. What
every one of them keeps is kept by a whole parse, and by what is left of it after a call.
-/

namespace Klish.Ksession

open Relation

/-- One change of the shared state. -/
inductive Turn (scheme : Kscheme) (V : Oracle) (isFilter : Bool) : ArgState → ArgState → Prop
  | noted (st : ArgState) (done : Bool) : Turn scheme V isFilter st { st with done }
  | self (e : EntryId) (st : ArgState) (hcontainer : scheme.container e = false)
      (hcandidate : st.pargv.candidateParg = none) :
      Turn scheme V isFilter st (resolveSelf scheme V isFilter false e st).state
  | container (e : EntryId) (value : Option String) (st : ArgState)
      (hcontainer : scheme.container e = true) (hpargs : st.pargv.pargs ≠ []) :
      Turn scheme V isFilter st (st.addPargs ⟨e, value⟩)

/-- Some turns lead from one state to the other. -/
abbrev Leads (scheme : Kscheme) (V : Oracle) (isFilter : Bool) : ArgState → ArgState → Prop :=
  ReflTransGen (Turn scheme V isFilter)

variable {scheme : Kscheme} {V : Oracle} {isFilter : Bool} {st st' : ArgState}

/-- There are arguments once a word has been taken. -/
theorem Advance.pargs_ne_nil (h : Advance st st') (h' : Conserves scheme V isFilter st st') :
    st'.pargv.pargs ≠ [] := by
  obtain ⟨added, words, hpargs, hiter, hadded⟩ := h'.added
  intro hnil
  rw [hpargs] at hnil
  obtain ⟨-, rfl⟩ := List.append_eq_nil_iff.mp hnil
  rw [hadded.words_eq_nil, List.nil_append] at hiter
  have hshorter := h.shorter
  rw [hiter] at hshorter
  exact Nat.lt_irrefl _ hshorter

/-- The argument of a container is appended, or not. -/
theorem leads_addPargs {e : EntryId} {value : Option String} {p : Prop} [Decidable p]
    (hcontainer : p → scheme.container e = true) (hpargs : st.pargv.pargs ≠ []) :
    Leads scheme V isFilter st (if p then st.addPargs ⟨e, value⟩ else st) := by
  split
  · rename_i hp
    exact .single (.container e value st (hcontainer hp) hpargs)
  · exact .refl

theorem enter_leads (e : EntryId) (hcandidate : st.pargv.candidateParg = none) :
    Leads scheme V isFilter st (enter scheme V isFilter e st).state := by
  obtain ⟨done, htest⟩ := testCond_met scheme V e hcandidate
  have hnoted : Leads scheme V isFilter st { st with done } := .single (.noted st done)
  unfold enter
  rw [htest]
  cases condMet scheme (condOutcome V st.pargv.pargs) e with
  | false => exact hnoted
  | true =>
    dsimp only
    cases hcontainer : scheme.container e with
    | true =>
      unfold resolveSelf
      rw [if_neg (by decide), hcontainer, if_pos rfl]
      exact hnoted
    | false => exact hnoted.tail (.self e _ hcontainer hcandidate)

variable (scheme V isFilter) in
/-- What the loops need to know about the turns of their calls. -/
structure TurnSpec (rec : ParseFn) : Prop where
  progress : ProgressSpec scheme V isFilter rec
  leads : ∀ {n st r}, st.pargv.candidateParg = none → rec n st = some r →
    Leads scheme V isFilter st r.2

section Loops

variable {rec : ParseFn} (hrec : TurnSpec scheme V isFilter rec) {e n : EntryId}
include hrec

theorem TurnSpec.candidate {r : KpargvStatus × ArgState} (hcandidate : st.pargv.candidateParg = none)
    (hcall : rec n st = some r) : r.2.pargv.candidateParg = none :=
  (hrec.progress.calls.conserves hcall).candidate hcandidate

theorem TurnSpec.pargs_ne_nil {r : KpargvStatus × ArgState}
    (hcandidate : st.pargv.candidateParg = none) (hcall : rec n st = some r) (hok : r.1 = .ok) :
    r.2.pargv.pargs ≠ [] := by
  rcases hrec.progress.outcome hcandidate hcall with hadvance | ⟨-, ⟨hnone, -⟩ | ⟨hnone, -⟩⟩
  · exact hadvance.pargs_ne_nil (hrec.progress.calls.conserves hcall)
  · rw [hok] at hnone
    cases hnone
  · rw [hok] at hnone
    cases hnone

/-- What a SWITCH does after a call. -/
theorem switchLoop_after {iter : List EntryId} {rc : KpargvStatus} {q r : KpargvStatus × ArgState}
    (hcommon : scheme.purpose n = .common) (hcandidate : st.pargv.candidateParg = none)
    (hcall : rec n st = some q) (h : switchLoop scheme rec e (n :: iter) rc st = some r)
    (hrest : ∀ rc st, st.pargv.candidateParg = none → switchLoop scheme rec e iter rc st = some r →
      Leads scheme V isFilter st r.2) :
    Leads scheme V isFilter q.2 r.2 := by
  rw [switchLoop, if_neg (not_not.mpr hcommon), hcall] at h
  dsimp only at h
  by_cases hok : q.1 = .ok
  · rw [if_pos (.inl hok)] at h
    cases h
    exact leads_addPargs (fun h => h.2) (hrec.pargs_ne_nil hcandidate hcall hok)
  · rw [if_neg (show ¬ (q.1 = .ok ∧ scheme.container e = true) from fun h => hok h.1)] at h
    split at h
    · cases h
      exact .refl
    · exact hrest _ q.2 (hrec.candidate hcandidate hcall) h

theorem switchLoop_leads {iter : List EntryId} {rc : KpargvStatus} {r : KpargvStatus × ArgState}
    (hcandidate : st.pargv.candidateParg = none)
    (h : switchLoop scheme rec e iter rc st = some r) : Leads scheme V isFilter st r.2 := by
  induction iter generalizing rc st with
  | nil =>
    cases h
    exact .refl
  | cons n iter ih =>
    by_cases hcommon : scheme.purpose n = .common
    · cases hcall : rec n st with
      | none =>
        rw [switchLoop, if_neg (not_not.mpr hcommon), hcall] at h
        cases h
      | some q =>
        have hafter := switchLoop_after hrec hcommon hcandidate hcall h fun rc st => ih
        exact (hrec.leads hcandidate hcall).trans hafter
    · rw [switchLoop, if_pos hcommon] at h
      exact ih hcandidate h

/-- What the loop over the occurrences does after a call. -/
theorem occursLoop_after {min left num : ℕ} {rc : KpargvStatus} {consumed : Bool}
    {q : KpargvStatus × ArgState} {occ : Occurs} (hcandidate : st.pargv.candidateParg = none)
    (hcall : rec n st = some q)
    (h : occursLoop rec n min (left + 1) num rc consumed st = some occ)
    (hrest : ∀ num rc consumed st, st.pargv.candidateParg = none →
      occursLoop rec n min left num rc consumed st = some occ → Leads scheme V isFilter st occ.st) :
    Leads scheme V isFilter q.2 occ.st := by
  rw [occursLoop, hcall] at h
  dsimp only at h
  split at h
  · cases h
    exact .refl
  · split at h
    · cases h
      exact .refl
    · exact hrest _ _ _ q.2 (hrec.candidate hcandidate hcall) h

theorem occursLoop_leads {min left num : ℕ} {rc : KpargvStatus} {consumed : Bool} {occ : Occurs}
    (hcandidate : st.pargv.candidateParg = none)
    (h : occursLoop rec n min left num rc consumed st = some occ) :
    Leads scheme V isFilter st occ.st := by
  induction left generalizing num rc consumed st with
  | zero =>
    cases h
    exact .refl
  | succ left ih =>
    cases hcall : rec n st with
    | none =>
      rw [occursLoop, hcall] at h
      cases h
    | some q =>
      have hafter := occursLoop_after hrec hcandidate hcall h fun num rc consumed st => ih
      exact (hrec.leads hcandidate hcall).trans hafter

/-- What a SEQUENCE does after the occurrences of an ENTRY. -/
theorem sequenceLoop_after {fuel : ℕ} {iter savedIter : List EntryId} {cur : Kpargv}
    {rc : KpargvStatus} {occ : Occurs} {r : KpargvStatus × ArgState}
    (hcommon : scheme.purpose n = .common) (hnew : cur.entryExists n = false)
    (hcandidate : st.pargv.candidateParg = none)
    (hocc : occursLoop rec n (scheme.entry n).min (scheme.entry n).max 0 rc false st = some occ)
    (h : sequenceLoop scheme rec e (fuel + 1) (n :: iter) savedIter cur rc st = some r)
    (hrest : ∀ iter savedIter cur rc st, st.pargv.candidateParg = none →
      sequenceLoop scheme rec e fuel iter savedIter cur rc st = some r →
        Leads scheme V isFilter st r.2) :
    Leads scheme V isFilter occ.st r.2 := by
  obtain ⟨hmoves, hadvance⟩ := occursLoop_moves hrec.progress hcandidate hocc
  cases sequenceLoop_cons.mp h with
  | pass hskip _ => exact absurd (hskip hcommon) (by rw [hnew]; decide)
  | stop _ _ hocc' _ hr =>
    obtain rfl : occ = _ := Option.some.inj (hocc.symm.trans hocc')
    cases hr
    exact .refl
  | taken _ _ hocc' _ hconsumed hnext =>
    obtain rfl : occ = _ := Option.some.inj (hocc.symm.trans hocc')
    have hpargs : occ.st.pargv.pargs ≠ [] := (hadvance hconsumed).pargs_ne_nil
      (occursLoop_conserves hrec.progress.calls hocc).1
    have hkept := (hadvance hconsumed).addPargs (p := scheme.container e = true)
      ⟨e, some (scheme.name n)⟩
    exact (leads_addPargs id hpargs).trans (hrest _ _ _ _ _ hkept.candidate hnext)
  | idle _ _ hocc' _ _ hnext =>
    obtain rfl : occ = _ := Option.some.inj (hocc.symm.trans hocc')
    exact hrest _ _ _ _ occ.st hmoves.candidate hnext

theorem sequenceLoop_leads {fuel : ℕ} {iter savedIter : List EntryId} {cur : Kpargv}
    {rc : KpargvStatus} {r : KpargvStatus × ArgState} (hcandidate : st.pargv.candidateParg = none)
    (h : sequenceLoop scheme rec e fuel iter savedIter cur rc st = some r) :
    Leads scheme V isFilter st r.2 := by
  induction fuel generalizing iter savedIter cur rc st with
  | zero => cases h
  | succ fuel ih =>
    cases iter with
    | nil =>
      cases h
      exact .refl
    | cons n iter =>
      have hcall : ∀ occ, scheme.purpose n = .common → cur.entryExists n = false →
          occursLoop rec n (scheme.entry n).min (scheme.entry n).max 0 rc false st = some occ →
            Leads scheme V isFilter st r.2 := by
        intro occ hcommon hnew hocc
        have hafter := sequenceLoop_after hrec hcommon hnew hcandidate hocc h
          fun iter savedIter cur rc st => ih
        exact (occursLoop_leads hrec hcandidate hocc).trans hafter
      cases sequenceLoop_cons.mp h with
      | pass _ hnext => exact ih hcandidate hnext
      | stop hcommon hnew hocc _ _ => exact hcall _ hcommon hnew hocc
      | taken hcommon hnew hocc _ _ _ => exact hcall _ hcommon hnew hocc
      | idle hcommon hnew hocc _ _ _ => exact hcall _ hcommon hnew hocc

theorem parseNested_leads {fuel : ℕ} {retcode : KpargvStatus} {r : KpargvStatus × ArgState}
    (hcandidate : st.pargv.candidateParg = none)
    (h : parseNested scheme rec e fuel retcode st = some r) : Leads scheme V isFilter st r.2 := by
  unfold parseNested at h
  split at h
  · obtain ⟨q, hloop, rfl⟩ := Option.map_eq_some_iff.mp h
    have hleads := switchLoop_leads hrec hcandidate hloop
    exact hleads
  · obtain ⟨q, hloop, rfl⟩ := Option.map_eq_some_iff.mp h
    have hleads := sequenceLoop_leads hrec hcandidate hloop
    exact hleads
  all_goals
    cases h
    exact .refl

/-- What a call does once it has gone into the ENTRY. -/
theorem parseBody_after {fuel : ℕ} {r : KpargvStatus × ArgState}
    (hcandidate : st.pargv.candidateParg = none)
    (h : parseBody scheme V rec e fuel isFilter false st = some r) :
    Leads scheme V isFilter (enter scheme V isFilter e st).state r.2 := by
  have hentered := enter_entered scheme V isFilter e hcandidate
  rw [parseBody_enter] at h
  cases hself : enter scheme V isFilter e st with
  | ret status st₁ =>
    rw [hself] at h
    cases h
    exact .refl
  | cont retcode st₁ =>
    rw [hself] at h hentered
    dsimp only at h
    split at h
    · cases h
      exact .refl
    · apply parseNested_leads hrec _ h
      cases hentered with
      | container hidle => exact hidle.candidate
      | word hadvance => exact hadvance.candidate

end Loops

/-- A call makes nothing but turns. -/
theorem parseArg_turns (fuel : ℕ) :
    TurnSpec scheme V isFilter (parseArg scheme V isFilter fuel false) := by
  induction fuel with
  | zero => exact ⟨parseArg_progress 0, fun _ h => nomatch h⟩
  | succ fuel ih =>
    refine ⟨parseArg_progress (fuel + 1), fun {n st r} hcandidate h => ?_⟩
    rw [parseArg] at h
    exact (enter_leads n hcandidate).trans (parseBody_after ih hcandidate h)

theorem levelsLoop_leads {dontParseUpper : Bool} {levels : List EntryId} {pstatus : KpargvStatus}
    {levelFound fuel : ℕ} {r : LevelsEnd} (hcandidate : st.pargv.candidateParg = none)
    (h : levelsLoop scheme (parseArg scheme V isFilter fuel false) dontParseUpper levels pstatus st
      levelFound = some r) :
    Leads scheme V isFilter st r.st := by
  induction levels generalizing pstatus st levelFound with
  | nil =>
    cases h
    exact .refl
  | cons e levels ih =>
    by_cases hcommon : scheme.purpose e = .common
    · cases hcall : parseArg scheme V isFilter fuel false e st with
      | none => simp [levelsLoop, hcommon, hcall] at h
      | some q =>
        have hleads := (parseArg_turns fuel).leads hcandidate hcall
        rw [levelsLoop_common scheme hcommon hcall] at h
        split at h
        · cases h
          exact hleads
        · exact hleads.trans (ih ((parseArg_turns fuel).candidate hcandidate hcall) h)
    · rw [levelsLoop_skip scheme hcommon] at h
      exact ih hcandidate h

/-- What a parse does after the call on a level. -/
theorem levelsLoop_after {dontParseUpper : Bool} {e : EntryId} {levels : List EntryId}
    {pstatus : KpargvStatus} {levelFound fuel : ℕ} {q : KpargvStatus × ArgState} {r : LevelsEnd}
    (hcommon : scheme.purpose e = .common) (hcandidate : st.pargv.candidateParg = none)
    (hcall : parseArg scheme V isFilter fuel false e st = some q)
    (h : levelsLoop scheme (parseArg scheme V isFilter fuel false) dontParseUpper (e :: levels)
      pstatus st levelFound = some r) :
    Leads scheme V isFilter q.2 r.st := by
  rw [levelsLoop_common scheme hcommon hcall] at h
  split at h
  · cases h
    exact .refl
  · exact levelsLoop_leads ((parseArg_turns fuel).candidate hcandidate hcall) h

end Klish.Ksession
