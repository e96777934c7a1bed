import Klish.ParseConservation

/-!
# Progress

A call of `ksession_parse_arg` takes a word, or it leaves all as it was and returns NONE or
NOTFOUND. Which of them depends on the ENTRY and on the CONDs that hold, not on the words.
-/

namespace Klish.Ksession

section Skipped

variable (scheme : Kscheme) (f : EntryId → Bool)

/-- The COND of an ENTRY is met, where it is known for each COND if it holds. -/
def condMet (e : EntryId) : Bool :=
  match scheme.nestedByPurpose e .cond with
  | none => true
  | some cond => f cond

/-- Without a word a call on the ENTRY returns NONE. -/
inductive Skipped : EntryId → Prop
  | cond {e : EntryId} (hcond : condMet scheme f e = false) : Skipped e
  | leaf {e : EntryId} (hcontainer : scheme.container e = true)
      (hleaf : scheme.nested e = [] ∨ (scheme.entry e).mode = .empty ∨
        (scheme.entry e).mode = .none) : Skipped e
  | switch {e : EntryId} (hcontainer : scheme.container e = true)
      (hmode : (scheme.entry e).mode = .switch)
      (hnone : ∀ n ∈ scheme.nested e, scheme.purpose n ≠ .common) : Skipped e
  | sequence {e : EntryId} (hcontainer : scheme.container e = true)
      (hmode : (scheme.entry e).mode = .sequence)
      (hnone : ∀ n ∈ scheme.nested e, scheme.purpose n = .common → (scheme.entry n).max ≠ 0 →
        (scheme.entry n).min ≠ 0 → Skipped n) : Skipped e

/-- A SEQUENCE goes on behind the nested ENTRY when it takes no word. -/
def Passable (n : EntryId) : Prop :=
  scheme.purpose n = .common → (scheme.entry n).max ≠ 0 → (scheme.entry n).min ≠ 0 →
    Skipped scheme f n

theorem passable_iff {n : EntryId} (hcommon : scheme.purpose n = .common) :
    Passable scheme f n ↔
      (scheme.entry n).max = 0 ∨ (scheme.entry n).min ≤ 0 ∨ Skipped scheme f n := by
  rw [Nat.le_zero, or_iff_not_imp_left, or_iff_not_imp_left]
  exact ⟨fun h => h hcommon, fun h _ => h⟩

end Skipped

/-- Whether a COND holds. -/
def condOutcome (V : Oracle) (pargs : List Kparg) (cond : EntryId) : Bool :=
  let res := V cond pargs none
  res.completed && decide (res.retcode = 0)

/-- No word has been taken. -/
structure Idle (st st' : ArgState) : Prop where
  iter : st'.iter = st.iter
  pargs : st'.pargv.pargs = st.pargv.pargs
  candidate : st'.pargv.candidateParg = none

/-- The cursor has advanced. -/
structure Advance (st st' : ArgState) : Prop where
  shorter : st'.iter.length < st.iter.length
  candidate : st'.pargv.candidateParg = none

variable {scheme : Kscheme} {V : Oracle} {isFilter : Bool} {st st' st'' : ArgState}

theorem Idle.refl (h : st.pargv.candidateParg = none) : Idle st st := ⟨rfl, rfl, h⟩

theorem Idle.trans (h : Idle st st') (h' : Idle st' st'') : Idle st st'' :=
  ⟨h'.iter.trans h.iter, h'.pargs.trans h.pargs, h'.candidate⟩

theorem Idle.advance (h : Idle st st') (h' : Advance st' st'') : Advance st st'' :=
  ⟨h.iter ▸ h'.shorter, h'.candidate⟩

theorem Advance.idle (h : Advance st st') (h' : Idle st' st'') : Advance st st'' :=
  ⟨h'.iter ▸ h.shorter, h'.candidate⟩

/-- No call moves the cursor back. -/
theorem Advance.conserves (h : Advance st st') (h' : Conserves scheme V isFilter st' st'') :
    Advance st st'' := by
  obtain ⟨added, words, -, hiter, -⟩ := h'.added
  have hlength : st'.iter.length = words.length + st''.iter.length := by
    rw [hiter, List.length_append]
  have hshorter := h.shorter
  exact ⟨by omega, h'.candidate h.candidate⟩

theorem Advance.addPargs {p : Prop} [Decidable p] (h : Advance st st') (parg : Kparg) :
    Advance st (if p then st'.addPargs parg else st') := by
  split
  · exact ⟨h.shorter, h.candidate⟩
  · exact h

variable (scheme V) in
/-- What a call comes to: it advances, or it takes no word and is not satisfied. -/
def Outcome (e : EntryId) (st : ArgState) (r : KpargvStatus × ArgState) : Prop :=
  Advance st r.2 ∨ (Idle st r.2 ∧
    ((r.1 = .none ∧ Skipped scheme (condOutcome V st.pargv.pargs) e) ∨
      (r.1 = .notfound ∧ ¬ Skipped scheme (condOutcome V st.pargv.pargs) e)))

variable (scheme V isFilter) in
/-- What the loops need to know about their calls. -/
structure ProgressSpec (rec : ParseFn) : Prop where
  calls : CallSpec scheme V isFilter rec
  outcome : ∀ {n st r}, st.pargv.candidateParg = none → rec n st = some r → Outcome scheme V n st r

/-- An ENTRY that is no container takes a word or declines. -/
theorem resolveSelf_outcome (scheme : Kscheme) (V : Oracle) (isFilter : Bool) {e : EntryId}
    (hcontainer : scheme.container e = false) (hcandidate : st.pargv.candidateParg = none) :
    (∃ st', resolveSelf scheme V isFilter false e st = .ret .notfound st' ∧ Idle st st') ∨
      ∃ st', resolveSelf scheme V isFilter false e st = .cont .ok st' ∧ Advance st st' := by
  have hhinted : Idle st (st.addCompletions scheme e) :=
    ⟨rfl, Kpargv.addCompletions_pargs .., (Kpargv.addCompletions_candidateParg ..).trans hcandidate⟩
  unfold resolveSelf
  rw [if_neg (by decide), hcontainer, if_neg (by decide)]
  cases hiter : st.iter with
  | nil =>
    left
    dsimp only
    split
    · exact ⟨_, rfl, hhinted⟩
    · exact ⟨_, rfl, .refl hcandidate⟩
  | cons word rest =>
    dsimp only
    split
    · exact .inl ⟨_, rfl, hhinted⟩
    · obtain ⟨done, htry⟩ := tryCandidate_spec scheme V e word st
      rw [htry]
      cases accepts scheme V e st.pargv.pargs word with
      | none => exact .inl ⟨_, rfl, rfl, rfl, rfl⟩
      | some value =>
        refine .inr ⟨_, rfl, ?_, ?_⟩
        · rw [hiter]
          exact Nat.lt_succ_self _
        · dsimp only
          split <;> rfl

/-- The part of the call that concerns the ENTRY itself. -/
def enter (scheme : Kscheme) (V : Oracle) (isFilter : Bool) (e : EntryId) (st : ArgState) :
    SelfResult :=
  match testCond scheme V e st with
  | (false, st) => .ret .none st
  | (true, st) => resolveSelf scheme V isFilter false e st

theorem parseBody_enter (scheme : Kscheme) (V : Oracle) (isFilter : Bool) (rec : ParseFn)
    (e : EntryId) (fuel : ℕ) (st : ArgState) :
    parseBody scheme V rec e fuel isFilter false st =
      match enter scheme V isFilter e st with
      | .ret status st => some (status, st)
      | .cont retcode st =>
        if (scheme.nested e).isEmpty then some (retcode, st)
        else parseNested scheme rec e fuel retcode st := by
  unfold parseBody enter
  rcases testCond scheme V e st with ⟨met, st₁⟩
  cases met <;> rfl

variable (scheme V) in
/-- What becomes of the ENTRY itself. -/
inductive Entered (e : EntryId) (st : ArgState) : SelfResult → Prop
  | cond {st₁ : ArgState} (hidle : Idle st st₁)
      (hcond : condMet scheme (condOutcome V st.pargv.pargs) e = false) : Entered e st (.ret .none st₁)
  | container {st₁ : ArgState} (hidle : Idle st st₁)
      (hcond : condMet scheme (condOutcome V st.pargv.pargs) e = true)
      (hcontainer : scheme.container e = true) : Entered e st (.cont .none st₁)
  | decline {st₁ : ArgState} (hidle : Idle st st₁)
      (hcond : condMet scheme (condOutcome V st.pargv.pargs) e = true)
      (hcontainer : scheme.container e = false) : Entered e st (.ret .notfound st₁)
  | word {st₁ : ArgState} (hadvance : Advance st st₁)
      (hcontainer : scheme.container e = false) : Entered e st (.cont .ok st₁)

theorem testCond_met (scheme : Kscheme) (V : Oracle) (e : EntryId)
    (hcandidate : st.pargv.candidateParg = none) : ∃ done, testCond scheme V e st =
      (condMet scheme (condOutcome V st.pargv.pargs) e, { st with done }) := by
  unfold testCond condMet condOutcome
  cases scheme.nestedByPurpose e .cond with
  | none => exact ⟨st.done, rfl⟩
  | some cond =>
    rw [hcandidate]
    exact ⟨_, rfl⟩

theorem enter_entered (scheme : Kscheme) (V : Oracle) (isFilter : Bool) (e : EntryId)
    (hcandidate : st.pargv.candidateParg = none) :
    Entered scheme V e st (enter scheme V isFilter e st) := by
  obtain ⟨done, htest⟩ := testCond_met scheme V e hcandidate
  have hnoted : Idle st { st with done } := ⟨rfl, rfl, hcandidate⟩
  unfold enter
  rw [htest]
  cases hcond : condMet scheme (condOutcome V st.pargv.pargs) e with
  | false => exact .cond hnoted hcond
  | true =>
    dsimp only
    cases hcontainer : scheme.container e with
    | true =>
      unfold resolveSelf
      rw [if_neg (by decide), hcontainer, if_pos rfl]
      exact .container hnoted hcond hcontainer
    | false =>
      have hself : ({ st with done } : ArgState).pargv.candidateParg = none := hcandidate
      rcases resolveSelf_outcome scheme V isFilter hcontainer hself with
        ⟨st₁, hret, hidle⟩ | ⟨st₁, hret, hadvance⟩
      · rw [hret]
        exact .decline (hnoted.trans hidle) hcond hcontainer
      · rw [hret]
        exact .word (hnoted.advance hadvance) hcontainer

section Loops

variable {rec : ParseFn} (hrec : ProgressSpec scheme V isFilter rec) {e : EntryId}
include hrec

theorem switchLoop_outcome {iter : List EntryId} {rc rc' : KpargvStatus}
    (hsub : ∀ n ∈ iter, n ∈ scheme.nested e) (hcandidate : st.pargv.candidateParg = none)
    (h : switchLoop scheme rec e iter rc st = some (rc', st')) :
    Advance st st' ∨ (Idle st st' ∧
      ((rc' = rc ∧ ∀ n ∈ iter, scheme.purpose n ≠ .common) ∨
        (rc' = .notfound ∧ ∃ n ∈ iter, scheme.purpose n = .common))) := by
  induction iter generalizing rc st with
  | nil =>
    cases h
    exact .inr ⟨.refl hcandidate, .inl ⟨rfl, fun n hn => nomatch hn⟩⟩
  | cons n iter ih =>
    have hsub' : ∀ m ∈ iter, m ∈ scheme.nested e := fun m hm => hsub m (List.mem_cons_of_mem _ hm)
    rw [switchLoop] at h
    split at h
    · rename_i hpurpose
      rcases ih hsub' hcandidate h with hadvance | ⟨hidle, ⟨rfl, hnone⟩ | ⟨rfl, m, hm, hcommon⟩⟩
      · exact .inl hadvance
      · exact .inr ⟨hidle, .inl ⟨rfl, List.forall_mem_cons.mpr ⟨hpurpose, hnone⟩⟩⟩
      · exact .inr ⟨hidle, .inr ⟨rfl, m, List.mem_cons_of_mem _ hm, hcommon⟩⟩
    · rename_i hpurpose
      have hcommon : scheme.purpose n = .common := by simpa using hpurpose
      cases hcall : rec n st with
      | none =>
        rw [hcall] at h
        cases h
      | some r =>
        obtain ⟨res, st₁⟩ := r
        rw [hcall] at h
        dsimp only at h
        rcases hrec.outcome hcandidate hcall with hadvance | ⟨hidle, hres⟩
        · -- What comes after the call keeps the cursor where it is or advances it.
          left
          have hkept : Advance st (if res = .ok ∧ scheme.container e = true then
              st₁.addPargs ⟨e, some (scheme.name n)⟩ else st₁) := hadvance.addPargs _
          split at h
          · cases h
            exact hkept
          · exact hkept.conserves (switchLoop_conserves hrec.calls hsub' h)
        · have hgo : res ≠ .ok ∧ res ≠ .error := by
            rcases hres with ⟨hnone, -⟩ | ⟨hnotfound, -⟩
            · dsimp only at hnone
              rw [hnone]
              decide
            · dsimp only at hnotfound
              rw [hnotfound]
              decide
          have hstatus : (if res = .none then KpargvStatus.notfound else res) = .notfound := by
            rcases hres with ⟨hnone, -⟩ | ⟨hnotfound, -⟩
            · exact if_pos hnone
            · dsimp only at hnotfound
              rw [hnotfound]
              rfl
          have hnot : ¬ (res = .ok ∨ res = .error) := not_or.mpr hgo
          rw [if_neg hnot, hstatus, if_neg fun hok => hgo.1 hok.1] at h
          rcases ih hsub' hidle.candidate h with hadvance | ⟨hidle', hrc⟩
          · exact .inl (hidle.advance hadvance)
          · refine .inr ⟨hidle.trans hidle', .inr ⟨?_, n, List.mem_cons_self, hcommon⟩⟩
            rcases hrc with ⟨hrc, -⟩ | ⟨hrc, -⟩
            · exact hrc
            · exact hrc

theorem occursLoop_outcome {n : EntryId} {min left num : ℕ} {rc : KpargvStatus} {consumed : Bool}
    {occ : Occurs} (hcandidate : st.pargv.candidateParg = none)
    (h : occursLoop rec n min left num rc consumed st = some occ) :
    Advance st occ.st ∨ (Idle st occ.st ∧ occ.num = num ∧ occ.consumed = consumed ∧
      ((occ.breakLoop = false ∧ occ.rc = rc ∧
          (left = 0 ∨ min ≤ num ∨ Skipped scheme (condOutcome V st.pargv.pargs) n)) ∨
        (occ.breakLoop = true ∧ occ.rc = .notfound ∧
          ¬ (left = 0 ∨ min ≤ num ∨ Skipped scheme (condOutcome V st.pargv.pargs) n)))) := by
  cases left with
  | zero =>
    cases h
    exact .inr ⟨.refl hcandidate, rfl, rfl, .inl ⟨rfl, rfl, .inl rfl⟩⟩
  | succ left =>
    rw [occursLoop] at h
    cases hcall : rec n st with
    | none =>
      rw [hcall] at h
      cases h
    | some r =>
      obtain ⟨res, st₁⟩ := r
      rw [hcall] at h
      dsimp only at h
      rcases hrec.outcome hcandidate hcall with hadvance | ⟨hidle, ⟨rfl, hskip⟩ | ⟨rfl, hskip⟩⟩
      · left
        split at h
        · cases h
          exact hadvance
        · split at h
          · cases h
            exact hadvance
          · exact hadvance.conserves (occursLoop_conserves hrec.calls h).1
      · rw [if_pos (.inl rfl)] at h
        cases h
        exact .inr ⟨hidle, rfl, rfl, .inl ⟨rfl, rfl, .inr (.inr hskip)⟩⟩
      · by_cases hmin : min ≤ num
        · rw [if_pos (.inr ⟨rfl, hmin⟩)] at h
          cases h
          exact .inr ⟨hidle, rfl, rfl, .inl ⟨rfl, rfl, .inr (.inl hmin)⟩⟩
        · rw [if_neg (by simp [hmin]), if_pos (by decide)] at h
          cases h
          refine .inr ⟨hidle, rfl, rfl, .inr ⟨rfl, rfl, ?_⟩⟩
          rintro (hleft | hle | hskip')
          · omega
          · exact hmin hle
          · exact hskip hskip'

theorem sequenceLoop_outcome {fuel : ℕ} {iter savedIter : List EntryId} {cur : Kpargv}
    {rc' : KpargvStatus} (hsub : ∀ n ∈ iter, n ∈ scheme.nested e)
    (hsaved : ∀ n ∈ savedIter, n ∈ scheme.nested e) (hcur : cur.pargs = [])
    (hcandidate : st.pargv.candidateParg = none)
    (h : sequenceLoop scheme rec e fuel iter savedIter cur .none st = some (rc', st')) :
    Advance st st' ∨ (Idle st st' ∧
      ((rc' = .none ∧ ∀ n ∈ iter, Passable scheme (condOutcome V st.pargv.pargs) n) ∨
        (rc' = .notfound ∧ ∃ n ∈ iter, ¬ Passable scheme (condOutcome V st.pargv.pargs) n))) := by
  induction fuel generalizing iter st with
  | zero => cases h
  | succ fuel ih =>
    cases iter with
    | nil =>
      cases h
      exact .inr ⟨.refl hcandidate, .inl ⟨rfl, fun n hn => nomatch hn⟩⟩
    | cons n iter =>
      have hsub' : ∀ m ∈ iter, m ∈ scheme.nested e := fun m hm => hsub m (List.mem_cons_of_mem _ hm)
      have hnew : cur.entryExists n = false := by
        unfold Kpargv.entryExists
        rw [hcur]
        rfl
      -- An ENTRY that takes no word and does not end the loop is passed over.
      have hpass : ∀ {st₁ : ArgState}, Idle st st₁ →
          Passable scheme (condOutcome V st.pargv.pargs) n →
            sequenceLoop scheme rec e fuel iter savedIter cur .none st₁ = some (rc', st') →
              Advance st st' ∨ (Idle st st' ∧
                ((rc' = .none ∧ ∀ m ∈ n :: iter,
                    Passable scheme (condOutcome V st.pargv.pargs) m) ∨
                  (rc' = .notfound ∧ ∃ m ∈ n :: iter,
                    ¬ Passable scheme (condOutcome V st.pargv.pargs) m))) := by
        intro st₁ hidle hn hloop
        rcases ih hsub' hidle.candidate hloop with hadvance | ⟨hidle', hrc⟩
        · exact .inl (hidle.advance hadvance)
        · rw [hidle.pargs] at hrc
          refine .inr ⟨hidle.trans hidle', ?_⟩
          rcases hrc with ⟨hrc, hall⟩ | ⟨hrc, m, hm, hnot⟩
          · exact .inl ⟨hrc, List.forall_mem_cons.mpr ⟨hn, hall⟩⟩
          · exact .inr ⟨hrc, m, List.mem_cons_of_mem _ hm, hnot⟩
      cases sequenceLoop_cons.mp h with
      | pass hskip hnext =>
        refine hpass (.refl hcandidate) (fun hcommon => ?_) hnext
        exact absurd (hskip hcommon) (by rw [hnew]; decide)
      | stop hcommon _ hocc hbreak hr =>
        cases hr
        rcases occursLoop_outcome hrec hcandidate hocc with
          hadvance | ⟨hidle, -, -, ⟨hgoes, -⟩ | ⟨-, hrc, hwhy⟩⟩
        · exact .inl hadvance
        · rw [hgoes] at hbreak
          cases hbreak
        · exact .inr ⟨hidle, .inr ⟨hrc, n, List.mem_cons_self, fun hpassable =>
            hwhy ((passable_iff scheme _ hcommon).mp hpassable)⟩⟩
      | @taken occ _ _ hocc _ hconsumed hnext =>
        rcases occursLoop_outcome hrec hcandidate hocc with hadvance | ⟨-, -, hidle, -⟩
        · have hkept : Advance st (if scheme.container e = true then
              occ.st.addPargs ⟨e, some (scheme.name n)⟩ else occ.st) := hadvance.addPargs _
          obtain ⟨hiter', hsaved'⟩ :=
            after_forall (P := fun iter => ∀ m ∈ iter, m ∈ scheme.nested e) hsub' hsaved _
          exact .inl (hkept.conserves (sequenceLoop_conserves hrec.calls hiter' hsaved' hnext))
        · rw [hidle] at hconsumed
          cases hconsumed
      | idle hcommon _ hocc hbreak _ hnext =>
        rcases occursLoop_outcome hrec hcandidate hocc with
          hadvance | ⟨hidle, -, -, ⟨-, hrc, hwhy⟩ | ⟨hstops, -⟩⟩
        · exact .inl (hadvance.conserves (sequenceLoop_conserves hrec.calls hsub' hsaved hnext))
        · rw [hrc] at hnext
          exact hpass hidle ((passable_iff scheme _ hcommon).mpr hwhy) hnext
        · rw [hstops] at hbreak
          cases hbreak

theorem parseNested_conserves {fuel : ℕ} {retcode : KpargvStatus} {r : KpargvStatus × ArgState}
    (h : parseNested scheme rec e fuel retcode st = some r) :
    Conserves scheme V isFilter st r.2 := by
  unfold parseNested at h
  split at h
  · obtain ⟨⟨rc, st₁⟩, hloop, rfl⟩ := Option.map_eq_some_iff.mp h
    exact switchLoop_conserves hrec.calls (fun _ => id) hloop
  · obtain ⟨⟨rc, st₁⟩, hloop, rfl⟩ := Option.map_eq_some_iff.mp h
    exact sequenceLoop_conserves hrec.calls (fun _ => id) (fun _ => id) hloop
  all_goals
    cases h
    exact .refl _

/-- A container that is entered, with its COND met and ENTRYs nested in it. -/
theorem parseNested_outcome {fuel : ℕ} {r : KpargvStatus × ArgState}
    (hcond : condMet scheme (condOutcome V st.pargv.pargs) e = true)
    (hcontainer : scheme.container e = true) (hnested : scheme.nested e ≠ [])
    (hcandidate : st.pargv.candidateParg = none)
    (h : parseNested scheme rec e fuel .none st = some r) : Outcome scheme V e st r := by
  have hcombine : ∀ rc : KpargvStatus, combineStatus .none rc = rc := by
    intro rc
    cases rc <;> rfl
  unfold parseNested at h
  split at h
  · rename_i hmode
    obtain ⟨⟨rc, st₁⟩, hloop, rfl⟩ := Option.map_eq_some_iff.mp h
    unfold Outcome
    rw [hcombine]
    rcases switchLoop_outcome hrec (fun _ => id) hcandidate hloop with
      hadvance | ⟨hidle, ⟨hrc, hnone⟩ | ⟨hrc, n, hn, hcommon⟩⟩
    · exact .inl hadvance
    · exact .inr ⟨hidle, .inl ⟨hrc, .switch hcontainer hmode hnone⟩⟩
    · refine .inr ⟨hidle, .inr ⟨hrc, fun hskip => ?_⟩⟩
      cases hskip with
      | cond hcond' => simp [hcond] at hcond'
      | leaf _ hleaf => simp [hnested, hmode] at hleaf
      | switch _ _ hnone => exact hnone n hn hcommon
      | sequence _ hmode' => simp [hmode] at hmode'
  · rename_i hmode
    obtain ⟨⟨rc, st₁⟩, hloop, rfl⟩ := Option.map_eq_some_iff.mp h
    unfold Outcome
    rw [hcombine]
    rcases sequenceLoop_outcome hrec (fun _ => id) (fun _ => id) rfl hcandidate hloop with
      hadvance | ⟨hidle, ⟨hrc, hall⟩ | ⟨hrc, n, hn, hnot⟩⟩
    · exact .inl hadvance
    · exact .inr ⟨hidle, .inl ⟨hrc, .sequence hcontainer hmode hall⟩⟩
    · refine .inr ⟨hidle, .inr ⟨hrc, fun hskip => hnot ?_⟩⟩
      cases hskip with
      | cond hcond' => simp [hcond] at hcond'
      | leaf _ hleaf => simp [hnested, hmode] at hleaf
      | switch _ hmode' => simp [hmode] at hmode'
      | sequence _ _ hnone => exact hnone n hn
  all_goals
    rename_i hmode
    cases h
    exact .inr ⟨.refl hcandidate, .inl ⟨rfl, .leaf hcontainer (by simp [hmode])⟩⟩

theorem parseBody_outcome {fuel : ℕ} {r : KpargvStatus × ArgState}
    (hcandidate : st.pargv.candidateParg = none)
    (h : parseBody scheme V rec e fuel isFilter false st = some r) : Outcome scheme V e st r := by
  rw [parseBody_enter] at h
  have hentered := enter_entered scheme V isFilter e hcandidate
  cases hself : enter scheme V isFilter e st with
  | ret status st₁ =>
    rw [hself] at h hentered
    cases h
    cases hentered with
    | cond hidle hcond => exact .inr ⟨hidle, .inl ⟨rfl, .cond hcond⟩⟩
    | decline hidle hcond hcontainer =>
      refine .inr ⟨hidle, .inr ⟨rfl, fun hskip => ?_⟩⟩
      cases hskip with
      | cond hcond' => simp [hcond] at hcond'
      | leaf hcontainer' | switch hcontainer' | sequence hcontainer' =>
        simp [hcontainer] at hcontainer'
  | cont retcode st₁ =>
    rw [hself] at h hentered
    dsimp only at h
    cases hentered with
    | container hidle hcond hcontainer =>
      split at h
      · rename_i hempty
        cases h
        exact .inr ⟨hidle, .inl ⟨rfl, .leaf hcontainer (.inl (List.isEmpty_iff.mp hempty))⟩⟩
      · rename_i hnested
        rw [← hidle.pargs] at hcond
        have houtcome := parseNested_outcome hrec hcond hcontainer
          (fun hnil => hnested (List.isEmpty_iff.mpr hnil)) hidle.candidate h
        rcases houtcome with hadvance | ⟨hidle', hstatus⟩
        · exact .inl (hidle.advance hadvance)
        · rw [hidle.pargs] at hstatus
          exact .inr ⟨hidle.trans hidle', hstatus⟩
    | word hadvance hcontainer =>
      split at h
      · cases h
        exact .inl hadvance
      · exact .inl (hadvance.conserves (parseNested_conserves hrec h))

end Loops

/-- A call of the parser takes a word, or it returns NONE or NOTFOUND and leaves all as it was. -/
theorem parseArg_progress (fuel : ℕ) :
    ProgressSpec scheme V isFilter (parseArg scheme V isFilter fuel false) := by
  induction fuel with
  | zero => exact ⟨⟨(fun h => nomatch h), (fun h => nomatch h)⟩, (fun _ h => nomatch h)⟩
  | succ fuel ih =>
    refine ⟨⟨parseArg_conserves, fun hcall => ⟨fuel + 1, _, _, hcall, rfl, rfl⟩⟩, ?_⟩
    intro n st r hcandidate h
    rw [parseArg] at h
    exact parseBody_outcome ih hcandidate h

/-- An OK result means that the cursor has advanced. -/
theorem parseArg_ok_advances {fuel : ℕ} {e : EntryId} (hcandidate : st.pargv.candidateParg = none)
    (h : parseArg scheme V isFilter fuel false e st = some (.ok, st')) :
    st'.iter.length < st.iter.length := by
  rcases (parseArg_progress fuel).outcome hcandidate h with hadvance | ⟨-, ⟨hnone, -⟩ | ⟨hnone, -⟩⟩
  · exact hadvance.shorter
  · cases hnone
  · cases hnone

end Klish.Ksession
