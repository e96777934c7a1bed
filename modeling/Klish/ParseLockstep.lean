import Klish.ParseTurns

/-!
# Two parses in step

Two parses of one line with different oracles or purposes go the same way as long as all answers
are the same. Where they part, what is known of both then must hold of whatever either does alone.
-/

namespace Klish.Ksession

/-- Two calls have gone into the ENTRY alike, or their parses have parted. -/
inductive InStep (L A : ArgState → ArgState → Prop) : SelfResult → SelfResult → Prop
  | ret {st st' : ArgState} (status : KpargvStatus) (hst : L st st') :
      InStep L A (.ret status st) (.ret status st')
  | cont {st st' : ArgState} (status : KpargvStatus) (hst : L st st') :
      InStep L A (.cont status st) (.cont status st')
  | parted {r r' : SelfResult} (hapart : A r.state r'.state) : InStep L A r r'

/-- Two parses are together in states of the first relation, and the second holds of them for good
once they have parted. -/
structure Lockstep (scheme : Kscheme) (V W : Oracle) (isFilter : Bool)
    (L A : ArgState → ArgState → Prop) : Prop where
  left : ∀ {st st'}, L st st' → st.pargv.candidateParg = none
  right : ∀ {st st'}, L st st' → st'.pargv.candidateParg = none
  pargs : ∀ {st st'}, L st st' → st'.pargv.pargs = st.pargv.pargs
  addPargs : ∀ {st st'} (e : EntryId) (value : Option String), L st st' →
    scheme.container e = true → st.pargv.pargs ≠ [] →
      L (st.addPargs ⟨e, value⟩) (st'.addPargs ⟨e, value⟩)
  enter : ∀ {st st'} (e : EntryId), L st st' →
    InStep L A (enter scheme V isFilter e st) (enter scheme W isFilter e st')
  apart : ∀ {st st' s s'}, A st st' → Leads scheme V isFilter st s → Leads scheme W isFilter st' s' →
    A s s'

/-- Two calls have come to the same, or their parses have parted. -/
def Together (L A : ArgState → ArgState → Prop) (r r' : KpargvStatus × ArgState) : Prop :=
  (r'.1 = r.1 ∧ L r.2 r'.2) ∨ A r.2 r'.2

variable {scheme : Kscheme} {V W : Oracle} {isFilter : Bool} {L A : ArgState → ArgState → Prop}
  {st st' : ArgState} (hL : Lockstep scheme V W isFilter L A)

include hL in
theorem Lockstep.addPargs_if {p : Prop} [Decidable p] (e : EntryId) (value : Option String)
    (hst : L st st') (hcontainer : p → scheme.container e = true)
    (hpargs : p → st.pargv.pargs ≠ []) :
    L (if p then st.addPargs ⟨e, value⟩ else st) (if p then st'.addPargs ⟨e, value⟩ else st') := by
  by_cases hp : p
  · rw [if_pos hp, if_pos hp]
    exact hL.addPargs e value hst (hcontainer hp) (hpargs hp)
  · rw [if_neg hp, if_neg hp]
    exact hst

section Loops

variable {rec rec' : ParseFn} (hrec : TurnSpec scheme V isFilter rec)
  (hrec' : TurnSpec scheme W isFilter rec')
  (hcalls : ∀ {n st st' r r'}, L st st' → rec n st = some r → rec' n st' = some r' →
    Together L A r r')
  {e n : EntryId}
include hL hrec hrec' hcalls

theorem switchLoop_together {iter : List EntryId} {rc : KpargvStatus}
    {r r' : KpargvStatus × ArgState} (hst : L st st')
    (h : switchLoop scheme rec e iter rc st = some r)
    (h' : switchLoop scheme rec' e iter rc st' = some r') : Together L A r r' := by
  induction iter generalizing rc st st' with
  | nil =>
    cases h
    cases h'
    exact .inl ⟨rfl, hst⟩
  | cons n iter ih =>
    by_cases hcommon : scheme.purpose n = .common
    case neg =>
      rw [switchLoop, if_pos hcommon] at h h'
      exact ih hst h h'
    cases hcall : rec n st with
    | none =>
      rw [switchLoop, if_neg (not_not.mpr hcommon), hcall] at h
      cases h
    | some q =>
      cases hcall' : rec' n st' with
      | none =>
        rw [switchLoop, if_neg (not_not.mpr hcommon), hcall'] at h'
        cases h'
      | some q' =>
        obtain ⟨status, st₁⟩ := q
        obtain ⟨status', st₁'⟩ := q'
        rcases hcalls hst hcall hcall' with ⟨hstatus, hst₁⟩ | hapart
        · obtain rfl : status' = status := hstatus
          rw [switchLoop, if_neg (not_not.mpr hcommon), hcall] at h
          rw [switchLoop, if_neg (not_not.mpr hcommon), hcall'] at h'
          dsimp only at h h'
          have hkept := hL.addPargs_if (p := status' = .ok ∧ scheme.container e = true) e
            (some (scheme.name n)) hst₁ (fun h => h.2)
            fun h => hrec.pargs_ne_nil (hL.left hst) hcall h.1
          split at h
          · rename_i hstop
            rw [if_pos hstop] at h'
            cases h
            cases h'
            exact .inl ⟨rfl, hkept⟩
          · rename_i hstop
            rw [if_neg hstop] at h'
            exact ih hkept h h'
        · right
          apply hL.apart hapart
          · exact switchLoop_after hrec hcommon (hL.left hst) hcall h fun _ _ =>
              switchLoop_leads hrec
          · exact switchLoop_after hrec' hcommon (hL.right hst) hcall' h' fun _ _ =>
              switchLoop_leads hrec'

theorem occursLoop_together {min left num : ℕ} {rc : KpargvStatus} {consumed : Bool}
    {occ occ' : Occurs} (hst : L st st')
    (h : occursLoop rec n min left num rc consumed st = some occ)
    (h' : occursLoop rec' n min left num rc consumed st' = some occ') :
    (occ' = { occ with st := occ'.st } ∧ L occ.st occ'.st) ∨ A occ.st occ'.st := by
  induction left generalizing num rc consumed st st' with
  | zero =>
    cases h
    cases h'
    exact .inl ⟨rfl, hst⟩
  | succ left ih =>
    cases hcall : rec n st with
    | none =>
      rw [occursLoop, hcall] at h
      cases h
    | some q =>
      cases hcall' : rec' n st' with
      | none =>
        rw [occursLoop, hcall'] at h'
        cases h'
      | some q' =>
        obtain ⟨status, st₁⟩ := q
        obtain ⟨status', st₁'⟩ := q'
        rcases hcalls hst hcall hcall' with ⟨hstatus, hst₁⟩ | hapart
        · obtain rfl : status' = status := hstatus
          rw [occursLoop, hcall] at h
          rw [occursLoop, hcall'] at h'
          dsimp only at h h'
          split at h
          · rename_i hstop
            rw [if_pos hstop] at h'
            cases h
            cases h'
            exact .inl ⟨rfl, hst₁⟩
          · rename_i hstop
            rw [if_neg hstop] at h'
            split at h
            · rename_i hok
              rw [if_pos hok] at h'
              cases h
              cases h'
              exact .inl ⟨rfl, hst₁⟩
            · rename_i hok
              rw [if_neg hok] at h'
              exact ih hst₁ h h'
        · right
          apply hL.apart hapart
          · exact occursLoop_after hrec (hL.left hst) hcall h fun _ _ _ _ => occursLoop_leads hrec
          · exact occursLoop_after hrec' (hL.right hst) hcall' h' fun _ _ _ _ =>
              occursLoop_leads hrec'

theorem sequenceLoop_together {fuel : ℕ} {iter savedIter : List EntryId} {cur : Kpargv}
    {rc : KpargvStatus} {r r' : KpargvStatus × ArgState} (hst : L st st')
    (h : sequenceLoop scheme rec e fuel iter savedIter cur rc st = some r)
    (h' : sequenceLoop scheme rec' e fuel iter savedIter cur rc st' = some r') :
    Together L A r r' := by
  induction fuel generalizing iter savedIter cur rc st st' with
  | zero => cases h
  | succ fuel ih =>
    cases iter with
    | nil =>
      cases h
      cases h'
      exact .inl ⟨rfl, hst⟩
    | cons n iter =>
      by_cases hcommon : scheme.purpose n = .common
      case neg =>
        rw [sequenceLoop, if_pos hcommon] at h h'
        exact ih hst h h'
      by_cases hnew : cur.entryExists n = true
      case pos =>
        rw [sequenceLoop, if_neg (not_not.mpr hcommon), if_pos hnew] at h h'
        exact ih hst h h'
      have hnew' : cur.entryExists n = false := by simpa using hnew
      cases hocc : occursLoop rec n (scheme.entry n).min (scheme.entry n).max 0 rc false st with
      | none =>
        rw [sequenceLoop, if_neg (not_not.mpr hcommon), if_neg hnew, hocc] at h
        cases h
      | some occ =>
        cases hocc' : occursLoop rec' n (scheme.entry n).min (scheme.entry n).max 0 rc false st' with
        | none =>
          rw [sequenceLoop, if_neg (not_not.mpr hcommon), if_neg hnew, hocc'] at h'
          cases h'
        | some occ' =>
          rcases occursLoop_together hL hrec hrec' hcalls hst hocc hocc' with
            ⟨hsame, hst₁⟩ | hapart
          · have hadvance := (occursLoop_moves hrec.progress (hL.left hst) hocc).2
            have hconserves := (occursLoop_conserves hrec.progress.calls hocc).1
            rw [sequenceLoop, if_neg (not_not.mpr hcommon), if_neg hnew, hocc] at h
            rw [sequenceLoop, if_neg (not_not.mpr hcommon), if_neg hnew, hocc', hsame] at h'
            dsimp only at h h'
            split at h
            · rename_i hbreak
              rw [if_pos hbreak] at h'
              cases h
              cases h'
              exact .inl ⟨rfl, hst₁⟩
            rename_i hbreak
            rw [if_neg hbreak] at h'
            split at h
            · rename_i hconsumed
              rw [if_pos hconsumed] at h'
              have hkept := hL.addPargs_if (p := scheme.container e = true) e
                (some (scheme.name n)) hst₁ id
                fun _ => (hadvance hconsumed).pargs_ne_nil hconserves
              exact ih hkept h h'
            · rename_i hconsumed
              rw [if_neg hconsumed] at h'
              exact ih hst₁ h h'
          · right
            apply hL.apart hapart
            · exact sequenceLoop_after hrec hcommon hnew' (hL.left hst) hocc h
                fun _ _ _ _ _ => sequenceLoop_leads hrec
            · exact sequenceLoop_after hrec' hcommon hnew' (hL.right hst) hocc' h'
                fun _ _ _ _ _ => sequenceLoop_leads hrec'

theorem parseNested_together {fuel : ℕ} {retcode : KpargvStatus} {r r' : KpargvStatus × ArgState}
    (hst : L st st') (h : parseNested scheme rec e fuel retcode st = some r)
    (h' : parseNested scheme rec' e fuel retcode st' = some r') : Together L A r r' := by
  have hcombine : ∀ {q q' : KpargvStatus × ArgState}, Together L A q q' →
      Together L A (combineStatus retcode q.1, q.2) (combineStatus retcode q'.1, q'.2) :=
    fun h => h.imp_left fun ⟨hstatus, hst⟩ => ⟨congrArg (combineStatus retcode) hstatus, hst⟩
  unfold parseNested at h h'
  cases hmode : (scheme.entry e).mode with
  | switch =>
    rw [hmode] at h h'
    obtain ⟨q, hloop, rfl⟩ := Option.map_eq_some_iff.mp h
    obtain ⟨q', hloop', rfl⟩ := Option.map_eq_some_iff.mp h'
    exact hcombine (switchLoop_together hL hrec hrec' hcalls hst hloop hloop')
  | sequence =>
    rw [hmode] at h h'
    obtain ⟨q, hloop, rfl⟩ := Option.map_eq_some_iff.mp h
    obtain ⟨q', hloop', rfl⟩ := Option.map_eq_some_iff.mp h'
    exact hcombine (sequenceLoop_together hL hrec hrec' hcalls hst hloop hloop')
  | empty | none =>
    rw [hmode] at h h'
    cases h
    cases h'
    exact .inl ⟨rfl, hst⟩

theorem parseBody_together {fuel : ℕ} {r r' : KpargvStatus × ArgState} (hst : L st st')
    (h : parseBody scheme V rec e fuel isFilter false st = some r)
    (h' : parseBody scheme W rec' e fuel isFilter false st' = some r') : Together L A r r' := by
  have hself := hL.enter e hst
  have hafter := parseBody_after hrec (hL.left hst) h
  have hafter' := parseBody_after hrec' (hL.right hst) h'
  rw [parseBody_enter] at h h'
  generalize enter scheme V isFilter e st = self at h hself hafter
  generalize enter scheme W isFilter e st' = self' at h' hself hafter'
  cases hself with
  | ret status hs =>
    cases h
    cases h'
    exact .inl ⟨rfl, hs⟩
  | cont status hs =>
    dsimp only at h h'
    split at h
    · rename_i hempty
      rw [if_pos hempty] at h'
      cases h
      cases h'
      exact .inl ⟨rfl, hs⟩
    · rename_i hempty
      rw [if_neg hempty] at h'
      exact parseNested_together hL hrec hrec' hcalls hs h h'
  | parted hapart => exact .inr (hL.apart hapart hafter hafter')

end Loops

include hL in
theorem parseArg_together {fuel : ℕ} {e : EntryId} {r r' : KpargvStatus × ArgState}
    (hst : L st st') (h : parseArg scheme V isFilter fuel false e st = some r)
    (h' : parseArg scheme W isFilter fuel false e st' = some r') : Together L A r r' := by
  induction fuel generalizing e st st' r r' with
  | zero => cases h
  | succ fuel ih =>
    rw [parseArg] at h h'
    exact parseBody_together hL (parseArg_turns fuel) (parseArg_turns fuel) ih hst h h'

include hL in
/-- The parses of a line are together at the end, or they have parted. -/
theorem levelsLoop_together {dontParseUpper : Bool} {levels : List EntryId} {pstatus : KpargvStatus}
    {levelFound fuel : ℕ} {r r' : LevelsEnd} (hst : L st st')
    (h : levelsLoop scheme (parseArg scheme V isFilter fuel false) dontParseUpper levels pstatus st
      levelFound = some r)
    (h' : levelsLoop scheme (parseArg scheme W isFilter fuel false) dontParseUpper levels pstatus
      st' levelFound = some r') : L r.st r'.st ∨ A r.st r'.st := by
  induction levels generalizing pstatus st st' levelFound with
  | nil =>
    cases h
    cases h'
    exact .inl hst
  | cons e levels ih =>
    by_cases hcommon : scheme.purpose e = .common
    case neg =>
      rw [levelsLoop_skip scheme hcommon] at h h'
      exact ih hst h h'
    cases hcall : parseArg scheme V isFilter fuel false e st with
    | none => simp [levelsLoop, hcommon, hcall] at h
    | some q =>
      cases hcall' : parseArg scheme W isFilter fuel false e st' with
      | none => simp [levelsLoop, hcommon, hcall'] at h'
      | some q' =>
        rcases parseArg_together hL hst hcall hcall' with ⟨hstatus, hst₁⟩ | hapart
        · rw [levelsLoop_common scheme hcommon hcall] at h
          rw [levelsLoop_common scheme hcommon hcall'] at h'
          have hstops : StopsAt scheme dontParseUpper e q' ↔ StopsAt scheme dontParseUpper e q := by
            unfold StopsAt
            rw [hstatus, hL.pargs hst₁]
          split at h
          · rename_i hstop
            rw [if_pos (hstops.mpr hstop)] at h'
            cases h
            cases h'
            exact .inl hst₁
          · rename_i hstop
            rw [if_neg fun hstop' => hstop (hstops.mp hstop'), hstatus] at h'
            exact ih hst₁ h h'
        · right
          apply hL.apart hapart
          · exact levelsLoop_after hcommon (hL.left hst) hcall h
          · exact levelsLoop_after hcommon (hL.right hst) hcall' h'

end Klish.Ksession
