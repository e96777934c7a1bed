import Klish.KschemeLive
import Klish.Lib.Chains
import Klish.ParseTermination

/-!
# Schemes whose lines are all parsed

The calls that are made before a word is taken come to an end unless they go round. In a prepared
scheme they can, since a link may lead back to an ENTRY it is nested in.
-/

namespace Klish

namespace Ksession

variable {scheme : Kscheme} {V : Oracle} {isFilter : Bool} {st : ArgState}

section Stuck

theorem Idle.of_outcome {e : EntryId} {r : KpargvStatus × ArgState} (hiter : st.iter = [])
    (h : Outcome scheme V e st r) : Idle st r.2 ∧ r.1 ≠ .ok ∧ r.1 ≠ .error := by
  rcases h with hadvance | ⟨hidle, hstatus⟩
  · have hshorter := hadvance.shorter
    rw [hiter] at hshorter
    exact absurd hshorter (Nat.not_lt_zero _)
  · refine ⟨hidle, ?_⟩
    rcases hstatus with ⟨hnone, -⟩ | ⟨hnotfound, -⟩
    · rw [hnone]
      decide
    · rw [hnotfound]
      decide

variable {rec : ParseFn} (hrec : ProgressSpec scheme V isFilter rec) {e n : EntryId}
include hrec

theorem switchLoop_stuck {iter : List EntryId} {rc : KpargvStatus} (hiter : st.iter = [])
    (hcandidate : st.pargv.candidateParg = none) (hcommon : scheme.purpose n = .common)
    (hn : n ∈ iter) (hstuck : ∀ st', Idle st st' → rec n st' = none) :
    switchLoop scheme rec e iter rc st = none := by
  induction iter generalizing rc st with
  | nil => cases hn
  | cons m iter ih =>
    rw [switchLoop]
    by_cases hpurpose : scheme.purpose m = .common
    · rw [if_neg (not_not.mpr hpurpose)]
      cases hcall : rec m st with
      | none => rfl
      | some r =>
        obtain ⟨hidle, hok, herror⟩ := Idle.of_outcome hiter (hrec.outcome hcandidate hcall)
        dsimp only
        rw [if_neg (show ¬ (r.1 = .ok ∨ r.1 = .error) from not_or.mpr ⟨hok, herror⟩),
          if_neg (show ¬ (r.1 = .ok ∧ scheme.container e = true) from fun h => hok h.1)]
        rcases List.mem_cons.mp hn with rfl | hn'
        · rw [hstuck st (.refl hcandidate)] at hcall
          cases hcall
        · exact ih (hidle.iter.trans hiter) hidle.candidate hn' fun st' hidle' =>
            hstuck st' (hidle.trans hidle')
    · rw [if_pos hpurpose]
      rcases List.mem_cons.mp hn with rfl | hn'
      · exact absurd hcommon hpurpose
      · exact ih hiter hcandidate hn' hstuck

theorem sequenceLoop_stuck {fuel : ℕ} {before after savedIter : List EntryId} {cur : Kpargv}
    {rc : KpargvStatus} (hiter : st.iter = []) (hcandidate : st.pargv.candidateParg = none)
    (hcur : cur.pargs = []) (hcommon : scheme.purpose n = .common)
    (hmax : (scheme.entry n).max ≠ 0)
    (hbefore : ∀ m ∈ before, Passable scheme (condOutcome V st.pargv.pargs) m)
    (hstuck : ∀ st', Idle st st' → rec n st' = none) :
    sequenceLoop scheme rec e fuel (before ++ n :: after) savedIter cur rc st = none := by
  have hnew : ∀ m, cur.entryExists m = false := by
    intro m
    unfold Kpargv.entryExists
    rw [hcur]
    rfl
  induction before generalizing fuel rc st with
  | nil =>
    cases fuel with
    | zero => rfl
    | succ fuel =>
      obtain ⟨left, hleft⟩ := Nat.exists_eq_succ_of_ne_zero hmax
      rw [List.nil_append, sequenceLoop, if_neg (not_not.mpr hcommon), hnew, if_neg (by decide),
        hleft, occursLoop, hstuck st (.refl hcandidate)]
  | cons m before ih =>
    obtain ⟨hm, hbefore'⟩ := List.forall_mem_cons.mp hbefore
    cases fuel with
    | zero => rfl
    | succ fuel =>
      rw [List.cons_append, sequenceLoop]
      by_cases hpurpose : scheme.purpose m = .common
      · rw [if_neg (not_not.mpr hpurpose), hnew, if_neg (by decide)]
        cases hocc : occursLoop rec m (scheme.entry m).min (scheme.entry m).max 0 rc false st with
        | none => rfl
        | some occ =>
          rcases occursLoop_outcome hrec hcandidate hocc with
            hadvance | ⟨hidle, -, hconsumed, ⟨hbreak, -⟩ | ⟨-, -, hwhy⟩⟩
          · have hshorter := hadvance.shorter
            rw [hiter] at hshorter
            exact absurd hshorter (Nat.not_lt_zero _)
          · dsimp only
            rw [hbreak, hconsumed, if_neg (by decide), if_neg (by decide)]
            rw [← hidle.pargs] at hbefore'
            exact ih (hidle.iter.trans hiter) hidle.candidate hbefore' fun st' hidle' =>
              hstuck st' (hidle.trans hidle')
          · exact absurd ((passable_iff scheme _ hpurpose).mp hm) hwhy
      · rw [if_pos hpurpose]
        exact ih hiter hcandidate hbefore' hstuck

end Stuck

/-- An ENTRY whose calls before a word go on for ever does not return when there is no word. -/
theorem parseArg_stuck {fuel : ℕ} {e : EntryId} (hiter : st.iter = [])
    (hcandidate : st.pargv.candidateParg = none)
    (hends : ¬ Acc (fun n e => Calls scheme (condOutcome V st.pargv.pargs) e n) e) :
    parseArg scheme V isFilter fuel false e st = none := by
  induction fuel generalizing e st with
  | zero => rfl
  | succ fuel ih =>
    obtain ⟨n, hcall, hn⟩ : ∃ n, Calls scheme (condOutcome V st.pargv.pargs) e n ∧
        ¬ Acc (fun n e => Calls scheme (condOutcome V st.pargv.pargs) e n) n := by
      by_contra hall
      apply hends
      constructor
      intro n hcall
      by_contra hn
      exact hall ⟨n, hcall, hn⟩
    obtain ⟨hcond, hcontainer, hcommon, htried⟩ := hcall
    have hstuck : ∀ {st₁}, Idle st st₁ → ∀ st', Idle st₁ st' →
        parseArg scheme V isFilter fuel false n st' = none := by
      intro st₁ hidle st' hidle'
      have hidle'' := hidle.trans hidle'
      rw [← hidle''.pargs] at hn
      exact ih (hidle''.iter.trans hiter) hidle''.candidate hn
    have hentered := enter_entered scheme V isFilter e hcandidate
    rw [parseArg, parseBody_enter]
    cases hself : enter scheme V isFilter e st with
    | ret status st₁ =>
      rw [hself] at hentered
      cases hentered with
      | cond _ hcond' => simp [hcond] at hcond'
      | decline _ _ hcontainer' => simp [hcontainer] at hcontainer'
    | cont retcode st₁ =>
      rw [hself] at hentered
      cases hentered with
      | word _ hcontainer' => simp [hcontainer] at hcontainer'
      | container hidle =>
        have hiter' : st₁.iter = [] := hidle.iter.trans hiter
        dsimp only
        rcases htried with ⟨hmode, hmem⟩ | ⟨hmode, hmax, before, after, hsplit, hbefore⟩
        · rw [if_neg (fun hnil => List.ne_nil_of_mem hmem (List.isEmpty_iff.mp hnil))]
          unfold parseNested
          rw [hmode]
          dsimp only
          rw [switchLoop_stuck (parseArg_progress fuel) hiter' hidle.candidate hcommon hmem
            (hstuck hidle)]
          rfl
        · rw [hsplit, if_neg (by simp)]
          unfold parseNested
          rw [hmode]
          dsimp only
          rw [← hidle.pargs] at hbefore
          rw [hsplit, sequenceLoop_stuck (parseArg_progress fuel) hiter' hidle.candidate rfl hcommon
            hmax hbefore (hstuck hidle)]
          rfl

variable (scheme) in
/-- Every parse of a line returns, and in all calls it makes an OK result means that a word was taken,
which bounds the occurrences of an ENTRY and the ways back of a SEQUENCE. -/
structure ParsesAll : Prop where
  returns : ∀ (V : Oracle) session argv purpose isFilter,
    (∀ e ∈ session.path.levels, Forests.Reached scheme.entrys scheme.nested e) →
      ∃ fuel result, parseLine scheme V session argv purpose isFilter fuel = some result
  advances : ∀ (V : Oracle) isFilter fuel e (st st' : ArgState), st.pargv.candidateParg = none →
    parseArg scheme V isFilter fuel false e st = some (.ok, st') →
      st'.iter.length < st.iter.length
  repeats : ∀ (V : Oracle) isFilter fuel n min max rc (st : ArgState) occ,
    st.pargv.candidateParg = none →
      occursLoop (parseArg scheme V isFilter fuel false) n min max 0 rc false st = some occ →
        occ.num ≤ st.iter.length
  rescans : ∀ (V : Oracle) isFilter fuel steps e rc (st : ArgState) r,
    st.pargv.candidateParg = none →
      sequenceLoop scheme (parseArg scheme V isFilter fuel false) e steps (scheme.nested e)
        (scheme.nested e) .new rc st = some r →
          sequenceLoop scheme (parseArg scheme V isFilter fuel false) e
            ((st.iter.length + 1) * ((scheme.nested e).length + 1)) (scheme.nested e)
            (scheme.nested e) .new rc st = some r

/-- What holds of every scheme once the parses of its lines return. -/
theorem ParsesAll.of_returns
    (h : ∀ (V : Oracle) session argv purpose isFilter,
      (∀ e ∈ session.path.levels, Forests.Reached scheme.entrys scheme.nested e) →
        ∃ fuel result, parseLine scheme V session argv purpose isFilter fuel = some result) :
    ParsesAll scheme where
  returns := h
  advances V isFilter fuel e st st' hcandidate hcall := parseArg_ok_advances hcandidate hcall
  repeats V isFilter fuel n min max rc st occ hcandidate hocc := by
    have hle := occursLoop_repeats (parseArg_progress fuel) hcandidate hocc
    omega
  rescans V isFilter fuel steps e rc st r hcandidate hloop := by
    apply sequenceLoop_rescans (parseArg_progress fuel) (Nat.le_refl _) (Nat.le_refl _) hcandidate
      hloop
    rw [Nat.succ_mul]
    omega

/-- The COND of an ENTRY holds or not, whatever the arguments are. -/
def condOracle (f : EntryId → Bool) : Oracle := fun cond _ _ =>
  ⟨true, if f cond then 0 else 1, none, false⟩

theorem condOutcome_condOracle (f : EntryId → Bool) (pargs : List Kparg) :
    condOutcome (condOracle f) pargs = f := by
  funext cond
  unfold condOutcome condOracle
  cases f cond <;> rfl

/-- The session at one level. -/
def atLevel (e : EntryId) : Ksession where
  path := ⟨[e], show 1 ≤ sizeMax by decide⟩
  done := false
  isattyStdin := false
  isattyStdout := false
  isattyStderr := false
  termWidth := 0
  termHeight := 0

/-- The calls from an ENTRY that can be reached come to such ones. -/
theorem Calls.reached {f : EntryId → Bool} {e n : EntryId}
    (h : Relation.ReflTransGen (Calls scheme f) e n)
    (he : Forests.Reached scheme.entrys scheme.nested e) :
    Forests.Reached scheme.entrys scheme.nested n := by
  induction h with
  | refl => exact he
  | tail _ hcall ih => exact .child ih hcall.2.2.mem

end Ksession

namespace Kscheme

open Forests Ksession

variable {scheme : Kscheme}

/-- The calls from an ENTRY stay in the finite set of those that can be reached. -/
theorem calls_finite (h : scheme.Fresh) {plugins : List Kplugin} {error : List String}
    {s : Kscheme} (hwalk : Pass.Walks (scheme.start plugins) ⟨s, [], true, error⟩)
    (f : EntryId → Bool) {e : EntryId} (he : Reached s.entrys s.nested e) :
    {n | Relation.TransGen (Calls s f) e n}.Finite := by
  have hgrounded : Grounded { scheme with plugins } := h.forest.grounded
  obtain ⟨F, hfin, hF⟩ := hgrounded.within
  have hF' : Within F s := hF.walks hwalk
  have hmem : ∀ n, Reached s.entrys s.nested n → n ∈ F := by
    intro n hn
    induction hn with
    | root hroot => exact hF'.entrys _ hroot
    | child _ hb ih => exact hF'.nested _ ih _ hb
  apply hfin.subset
  intro n hn
  exact hmem n (Calls.reached hn.to_reflTransGen he)

/-- A line with no word is never parsed at an ENTRY whose calls go on for ever. -/
theorem parseLine_stuck {f : EntryId → Bool} {e : EntryId} (hcommon : scheme.purpose e = .common)
    (hends : ¬ Acc (fun n e => Calls scheme f e n) e) (fuel : ℕ) :
    parseLine scheme (condOracle f) (atLevel e) ⟨[], false⟩ .exec false fuel = none := by
  have hcall : parseArg scheme (condOracle f) false fuel false e
      (initialState (atLevel e) ⟨[], false⟩ .exec) = none := by
    apply parseArg_stuck rfl rfl
    rwa [condOutcome_condOracle]
  unfold parseLine parseLevels
  have hlevels : (atLevel e).path.levels.reverse = [e] := rfl
  rw [hlevels, levelsLoop, if_neg (not_not.mpr hcommon), hcall]
  rfl

/-- In a prepared scheme every parse of a line returns exactly if the calls that are made before a
word is taken never go round, whichever CONDs hold. -/
theorem parses_all_iff (h : scheme.Fresh) {loadPlugins : List Kplugin → Option (List Kplugin)}
    {plugins : List Kplugin} (hload : loadPlugins scheme.plugins = some plugins) {fuel : ℕ}
    {r : Report} (hrun : prepare loadPlugins fuel scheme = some r) (hok : r.ok = true) :
    ParsesAll r.scheme ↔ ∀ f e, Reached r.scheme.entrys r.scheme.nested e →
      ¬ Chains.Cyclic (Calls r.scheme f) e := by
  obtain ⟨error, hwalk⟩ := (h.prepare_ok_iff hload).mp ⟨fuel, r, hrun, hok, rfl⟩
  constructor
  · rintro hall f e he ⟨b, hreach, hround⟩
    have hb : Reached r.scheme.entrys r.scheme.nested b := Calls.reached hreach he
    -- What is called is COMMON, so it can be the level of a session.
    have hcommon : r.scheme.purpose b = .common := by
      obtain ⟨c, -, hcall⟩ := Relation.TransGen.tail'_iff.mp hround
      exact hcall.2.2.1
    have hends : ¬ Acc (fun n e => Calls r.scheme f e n) b := fun hacc =>
      Chains.not_cyclic_of_acc hacc ⟨b, .refl, hround⟩
    obtain ⟨fuel', result, hresult⟩ := hall.returns (condOracle f) (atLevel b) ⟨[], false⟩ .exec false
      fun n hn => by rwa [List.mem_singleton.mp hn]
    rw [parseLine_stuck hcommon hends] at hresult
    cases hresult
  · intro hround
    apply ParsesAll.of_returns
    intro V session argv purpose isFilter hlevels
    have hreturns : ∀ e ∈ session.path.levels.reverse, r.scheme.purpose e = .common → ∀ st,
        st.pargv.candidateParg = none → Returns r.scheme V isFilter e st := by
      intro e he _ st hcandidate
      apply parseArg_returns (fun e he n hn => Reached.child he hn) _
        (hlevels e (List.mem_reverse.mp he)) hcandidate
      intro f e he
      exact Chains.acc_of_not_cyclic (calls_finite h hwalk f he) (hround f e he)
    have hcandidate : (initialState session argv purpose).pargv.candidateParg = none := rfl
    obtain ⟨fuel', levels, hrun'⟩ := levelsLoop_returns .none (sizeDec session.path.len) hcandidate
      hreturns
    exact ⟨fuel', _, parseLine_eq_some.mpr ⟨levels, hrun', rfl, rfl⟩⟩

/-- The VIEW `main` with a nested link, and the VIEW `common` with an ENTRY `word`. -/
def viewScheme (ref : String) : Kscheme where
  plugins := []
  entrys := [0, 1]
  entry e := { Kentry.new (["main", "common", "link"].getD e "word") e with
    container := decide (e < 3)
    refStr := if e = 2 then some ref else none }
  body b := { Kbody.new with entrys := [[2], [3]].getD b [] }

theorem viewScheme_fresh (ref : String) : (viewScheme ref).Fresh where
  legalFilter e := by
    intro h
    cases h
  ownBody e e' h := h
  unresolved e action haction := nomatch haction
  emptyTable e purpose := rfl
  forest := by
    have hforest : Forest [0, 1] fun e => [[2], [3]].getD e [] :=
      Forest.of_table (by decide) (by decide)
    exact hforest

theorem parses_all_sample : ∃ r, prepare some 6 (viewScheme "/common") = some r ∧
    ParsesAll r.scheme := by
  have hok : (prepare some 6 (viewScheme "/common")).map Report.ok = some true := by decide
  have hentrys : (prepare some 6 (viewScheme "/common")).map (fun r => r.scheme.entrys) =
      some [0, 1] := by decide
  have hgreater : (prepare some 6 (viewScheme "/common")).map (fun r => (List.range 4).all fun e =>
      (r.scheme.nested e).all fun n => decide (e < n ∧ n < 4)) = some true := by decide
  obtain ⟨r, hrun, hok⟩ := Option.map_eq_some_iff.mp hok
  rw [hrun] at hentrys hgreater
  have htop : r.scheme.entrys = [0, 1] := Option.some.inj hentrys
  have hnested : ∀ e < 4, ∀ n ∈ r.scheme.nested e, e < n ∧ n < 4 := by
    intro e he n hn
    have hlist := List.all_eq_true.mp (Option.some.inj hgreater) e (List.mem_range.mpr he)
    exact of_decide_eq_true (List.all_eq_true.mp hlist n hn)
  have hfour : ∀ e, Reached r.scheme.entrys r.scheme.nested e → e < 4 := by
    intro e he
    induction he with
    | @root e hroot =>
      rw [htop] at hroot
      have htwo : ∀ e ∈ [0, 1], e < 4 := by decide
      exact htwo e hroot
    | child _ hb ih => exact (hnested _ ih _ hb).2
  refine ⟨r, hrun, (parses_all_iff (viewScheme_fresh _) rfl hrun hok).mpr ?_⟩
  rintro f e he ⟨b, hreach, hround⟩
  -- The calls lead to greater numbers.
  have hb : Reached r.scheme.entrys r.scheme.nested b := Calls.reached hreach he
  have hlt : ∀ n, Relation.TransGen (Calls r.scheme f) b n → b < n := by
    intro n hn
    induction hn with
    | single hcall => exact (hnested b (hfour b hb) _ hcall.2.2.mem).1
    | @tail m n hm hcall ih =>
      have hreached := Calls.reached hm.to_reflTransGen hb
      exact Nat.lt_trans ih (hnested m (hfour m hreached) n hcall.2.2.mem).1
  exact Nat.lt_irrefl b (hlt b hround)

/-- The link in `main` leads back to `main`, and the scheme is accepted. -/
theorem own_ancestor_recursion : (viewScheme "/main").Fresh ∧
    ∃ r, prepare some 6 (viewScheme "/main") = some r ∧ r.ok = true ∧
      (∀ e ∈ (atLevel 0).path.levels, Reached r.scheme.entrys r.scheme.nested e) ∧
      ∀ fuel, parseLine r.scheme (condOracle fun _ => true) (atLevel 0) ⟨[], false⟩ .exec false fuel =
        none := by
  have hok : (prepare some 6 (viewScheme "/main")).map Report.ok = some true := by decide
  have hentrys : (prepare some 6 (viewScheme "/main")).map (fun r => r.scheme.entrys) =
      some [0, 1] := by decide
  have hcalls : (prepare some 6 (viewScheme "/main")).map (fun r => decide
      (∀ e ∈ [0, 2], condMet r.scheme (fun _ => true) e = true ∧ r.scheme.container e = true ∧
        r.scheme.purpose e = .common ∧ (r.scheme.entry e).mode = .sequence ∧
        (r.scheme.entry e).max ≠ 0 ∧ r.scheme.nested e = [2])) = some true := by decide
  obtain ⟨r, hrun, hok⟩ := Option.map_eq_some_iff.mp hok
  rw [hrun] at hentrys hcalls
  have htop : r.scheme.entrys = [0, 1] := Option.some.inj hentrys
  have hall := of_decide_eq_true (Option.some.inj hcalls)
  obtain ⟨-, -, hcommon, -⟩ := hall 0 (by decide)
  obtain ⟨-, -, hcommon₂, -, hmax₂, -⟩ := hall 2 (by decide)
  have hcall : ∀ e ∈ [0, 2], Calls r.scheme (fun _ => true) e 2 := by
    intro e he
    obtain ⟨hcond, hcontainer, -, hmode, -, hnested⟩ := hall e he
    exact ⟨hcond, hcontainer, hcommon₂, .inr ⟨hmode, hmax₂, [], [], hnested, fun m hm => nomatch hm⟩⟩
  refine ⟨viewScheme_fresh _, r, hrun, hok, ?_, fun fuel => ?_⟩
  · intro e he
    rw [List.mem_singleton.mp he]
    apply Reached.root
    rw [htop]
    decide
  · apply parseLine_stuck hcommon
    intro hacc
    exact Chains.not_cyclic_of_acc hacc
      ⟨2, .single (hcall 0 (by decide)), .single (hcall 2 (by decide))⟩

end Kscheme

end Klish
