import Klish.ParseLine
import Klish.ParseProgress

/-!
# The calls of a parse

The calls that the loops of the parser make, as lists that are computed along with them. Only those
count that a whole line rests on: a SWITCH and a SEQUENCE go on after the others as if nothing had
happened.
-/

namespace Klish.Ksession

/-- A call on an ENTRY. It is needed where a SEQUENCE lacks an occurrence of the ENTRY. -/
structure ParseCall where
  entry : EntryId
  st : ArgState
  needed : Bool

/-- The loop over the occurrences of a nested ENTRY: where it starts and what it leaves behind. -/
structure SequenceTurn where
  entry : EntryId
  st : ArgState
  occ : Occurs

section Loops

variable (scheme : Kscheme) (rec : ParseFn) (e : EntryId)

/-- The calls of `occursLoop`. -/
def occursCalls (nested : EntryId) (min : ℕ) : ℕ → ℕ → ArgState → List ParseCall
  | 0, _, _ => []
  | left + 1, num, st =>
    ⟨nested, st, decide (num < min)⟩ ::
      match rec nested st with
      | none => []
      | some (res, st) => if res = .ok then occursCalls nested min left (num + 1) st else []

/-- The calls of one turn. -/
def turnCalls (turn : SequenceTurn) : List ParseCall :=
  occursCalls rec turn.entry (scheme.entry turn.entry).min (scheme.entry turn.entry).max 0 turn.st

/-- The arguments at the places where a turn stands. -/
def turnPlaces (turn : SequenceTurn) : List (List Kparg) :=
  (turnCalls scheme rec turn).map (fun call => call.st.pargv.pargs) ++ [turn.occ.st.pargv.pargs]

/-- The loop has come to 'max', which is less than 'min', and the SEQUENCE goes on. -/
def stopsShort (turn : SequenceTurn) : Bool :=
  !turn.occ.breakLoop && turn.occ.num == (scheme.entry turn.entry).max &&
    decide ((scheme.entry turn.entry).max < (scheme.entry turn.entry).min)

end Loops

section Calls

variable (scheme : Kscheme) (V : Oracle) (isFilter : Bool)

end Calls

variable {scheme : Kscheme} {V : Oracle} {isFilter : Bool}

section Turns

variable {rec : ParseFn} {e n : EntryId} {fuel : ℕ} {iter savedIter : List EntryId} {cur : Kpargv}
  {rc : KpargvStatus} {st : ArgState} {occ : Occurs}

variable (hcommon : scheme.purpose n = .common) (hnew : cur.entryExists n = false)
  (hocc : occursLoop rec n (scheme.entry n).min (scheme.entry n).max 0 rc false st = some occ)
  (hbreak : occ.breakLoop = false)

include hcommon hnew hocc hbreak

end Turns

/-- Every result of the first function is also one of the second. -/
def Below (rec rec' : ParseFn) : Prop :=
  ∀ n st r, rec n st = some r → rec' n st = some r

section Monotone

variable {rec rec' : ParseFn} (hle : Below rec rec') {e : EntryId}

include hle

theorem switchLoop_mono {iter : List EntryId} {rc : KpargvStatus} {st : ArgState}
    {r : KpargvStatus × ArgState} (h : switchLoop scheme rec e iter rc st = some r) :
    switchLoop scheme rec' e iter rc st = some r := by
  induction iter generalizing rc st with
  | nil => exact h
  | cons nested iter ih =>
    rw [switchLoop] at h ⊢
    split at h
    · rename_i hp
      rw [if_pos hp]
      exact ih h
    · rename_i hp
      rw [if_neg hp]
      cases hcall : rec nested st with
      | none => simp [hcall] at h
      | some q =>
        simp only [hcall] at h
        simp only [hle nested st q hcall]
        by_cases hres : q.1 = .ok ∨ q.1 = .error
        · simp only [hres, if_true] at h ⊢
          exact h
        · simp only [hres, if_false] at h ⊢
          exact ih h

theorem occursLoop_mono {nested : EntryId} {min left num : ℕ} {rc : KpargvStatus}
    {consumed : Bool} {st : ArgState} {occ : Occurs}
    (h : occursLoop rec nested min left num rc consumed st = some occ) :
    occursLoop rec' nested min left num rc consumed st = some occ := by
  induction left generalizing num rc consumed st with
  | zero => exact h
  | succ left ih =>
    rw [occursLoop] at h ⊢
    cases hcall : rec nested st with
    | none => simp [hcall] at h
    | some q =>
      simp only [hcall] at h
      simp only [hle nested st q hcall]
      by_cases hstop : q.1 = .none ∨ (q.1 = .notfound ∧ min ≤ num)
      · simp only [hstop, if_true] at h ⊢
        exact h
      · by_cases hok : q.1 = .ok
        · simp only [hok, ne_eq, not_true_eq_false, if_false] at h ⊢
          exact ih h
        · simp only [hstop, hok, ne_eq, not_false_eq_true, if_false, if_true] at h ⊢
          exact h

theorem sequenceLoop_mono {fuel : ℕ} {iter savedIter : List EntryId} {cur : Kpargv}
    {rc : KpargvStatus} {st : ArgState} {r : KpargvStatus × ArgState}
    (h : sequenceLoop scheme rec e fuel iter savedIter cur rc st = some r) :
    sequenceLoop scheme rec' e fuel iter savedIter cur rc st = some r := by
  induction fuel generalizing iter savedIter cur rc st with
  | zero => simp [sequenceLoop] at h
  | succ fuel ih =>
    cases iter with
    | nil => exact h
    | cons nested iter =>
      have hround := (sequenceLoop_cons.mp h).imp (fun _ => occursLoop_mono hle)
        fun _ _ _ _ _ hnext => ih hnext
      exact sequenceLoop_cons.mpr hround

theorem parseBody_mono {fuel : ℕ} {st : ArgState} {r : KpargvStatus × ArgState}
    (h : parseBody scheme V rec e fuel isFilter false st = some r) :
    parseBody scheme V rec' e fuel isFilter false st = some r := by
  unfold parseBody at h ⊢
  split at h
  · exact h
  · split at h
    · exact h
    · split at h
      · rename_i hn
        rw [if_pos hn]
        exact h
      · rename_i hn
        rw [if_neg hn]
        unfold parseNested at h ⊢
        split at h
        · obtain ⟨q, hq, rfl⟩ := Option.map_eq_some_iff.mp h
          rw [switchLoop_mono hle hq]
          rfl
        · obtain ⟨q, hq, rfl⟩ := Option.map_eq_some_iff.mp h
          rw [sequenceLoop_mono hle hq]
          rfl
        all_goals exact h

theorem levelsLoop_mono {dontParseUpper : Bool} {levels : List EntryId} {pstatus : KpargvStatus}
    {st : ArgState} {levelFound : ℕ} {r : LevelsEnd}
    (h : levelsLoop scheme rec dontParseUpper levels pstatus st levelFound = some r) :
    levelsLoop scheme rec' dontParseUpper levels pstatus st levelFound = some r := by
  induction levels generalizing pstatus st levelFound with
  | nil => exact h
  | cons e levels ih =>
    by_cases hp : scheme.purpose e = .common
    · cases hcall : rec e st with
      | none => simp [levelsLoop, hp, hcall] at h
      | some q =>
        rw [levelsLoop_common scheme hp hcall] at h
        rw [levelsLoop_common scheme hp (hle e st q hcall)]
        split at h
        · rename_i hstop
          rw [if_pos hstop]
          exact h
        · rename_i hstop
          rw [if_neg hstop]
          exact ih h
    · rw [levelsLoop_skip scheme hp] at h ⊢
      exact ih h

end Monotone

end Klish.Ksession
