import Klish.ParseCalls

/-!
# Termination of a line parse

A call that takes a word makes the rest of the line shorter. Only a container calls the ENTRYs nested
in it before a word is taken, and a link may bring the calls back to where they came from.
-/

namespace Klish.Ksession

open Kscheme

/-- The nested ENTRY is tried before any other one takes a word, where it is known for each COND if it
holds. -/
def Tried (scheme : Kscheme) (f : EntryId → Bool) (e n : EntryId) : Prop :=
  scheme.purpose n = .common ∧
    (((scheme.entry e).mode = .switch ∧ n ∈ scheme.nested e) ∨
      ((scheme.entry e).mode = .sequence ∧ (scheme.entry n).max ≠ 0 ∧
        ∃ before after, scheme.nested e = before ++ n :: after ∧
          ∀ m ∈ before, Passable scheme f m))

/-- A call on the first ENTRY makes a call on the second one before any word is taken. -/
def Calls (scheme : Kscheme) (f : EntryId → Bool) (e n : EntryId) : Prop :=
  condMet scheme f e = true ∧ scheme.container e = true ∧ Tried scheme f e n

theorem Tried.mem {scheme : Kscheme} {f : EntryId → Bool} {e n : EntryId}
    (h : Tried scheme f e n) : n ∈ scheme.nested e := by
  rcases h.2 with ⟨-, hn⟩ | ⟨-, -, before, after, hsplit, -⟩
  · exact hn
  · rw [hsplit]
    exact List.mem_append_right _ List.mem_cons_self

variable {scheme : Kscheme} {V : Oracle} {isFilter : Bool} {st st' : ArgState}

section Fuel

variable {rec : ParseFn} {e : EntryId}

theorem sequenceLoop_more {fuel fuel' : ℕ} {iter savedIter : List EntryId} {cur : Kpargv}
    {rc : KpargvStatus} {r : KpargvStatus × ArgState}
    (h : sequenceLoop scheme rec e fuel iter savedIter cur rc st = some r) (hle : fuel ≤ fuel') :
    sequenceLoop scheme rec e fuel' iter savedIter cur rc st = some r := by
  induction fuel generalizing fuel' iter savedIter cur rc st with
  | zero => cases h
  | succ fuel ih =>
    obtain ⟨fuel', rfl⟩ : ∃ n, fuel' = n + 1 := ⟨fuel' - 1, by omega⟩
    have hle' : fuel ≤ fuel' := by omega
    cases iter with
    | nil => exact h
    | cons n iter =>
      have hround := (sequenceLoop_cons.mp h).imp (fun _ hocc => hocc)
        fun _ _ _ _ _ hnext => ih hnext hle'
      exact sequenceLoop_cons.mpr hround

theorem parseBody_more {fuel fuel' : ℕ} {r : KpargvStatus × ArgState}
    (h : parseBody scheme V rec e fuel isFilter false st = some r) (hle : fuel ≤ fuel') :
    parseBody scheme V rec e fuel' isFilter false st = some r := by
  unfold parseBody at h ⊢
  split at h
  · exact h
  · split at h
    · exact h
    · split at h
      · rename_i hempty
        rw [if_pos hempty]
        exact h
      · rename_i hnested
        rw [if_neg hnested]
        unfold parseNested at h ⊢
        split at h
        · exact h
        · obtain ⟨q, hq, rfl⟩ := Option.map_eq_some_iff.mp h
          rw [sequenceLoop_more hq hle]
          rfl
        all_goals exact h

/-- More fuel gives the same result. -/
theorem parseArg_mono {fuel fuel' : ℕ} (hle : fuel ≤ fuel') :
    Below (parseArg scheme V isFilter fuel false) (parseArg scheme V isFilter fuel' false) := by
  induction fuel generalizing fuel' with
  | zero => exact fun _ _ _ h => nomatch h
  | succ fuel ih =>
    obtain ⟨fuel', rfl⟩ : ∃ n, fuel' = n + 1 := ⟨fuel' - 1, by omega⟩
    have hle' : fuel ≤ fuel' := by omega
    intro n st r h
    rw [parseArg] at h ⊢
    exact parseBody_more (parseBody_mono (ih hle') h) hle'

end Fuel

/-- The state after some calls: no word was taken, or the cursor has advanced. -/
def Moves (st st' : ArgState) : Prop := Idle st st' ∨ Advance st st'

theorem Advance.moves {st st' st'' : ArgState} (h : Advance st st') (h' : Moves st' st'') :
    Advance st st'' := by
  rcases h' with hidle' | hadvance'
  · exact h.idle hidle'
  · exact ⟨Nat.lt_trans hadvance'.shorter h.shorter, hadvance'.candidate⟩

theorem Moves.trans {st st' st'' : ArgState} (h : Moves st st') (h' : Moves st' st'') :
    Moves st st'' := by
  rcases h with hidle | hadvance
  · exact h'.imp hidle.trans hidle.advance
  · exact .inr (hadvance.moves h')

theorem Moves.advance {st st' st'' : ArgState} (h : Moves st st') (h' : Advance st' st'') :
    Advance st st'' :=
  h.elim (·.advance h') fun hadvance => hadvance.moves (.inr h')

theorem Moves.candidate (h : Moves st st') : st'.pargv.candidateParg = none :=
  h.elim Idle.candidate Advance.candidate

theorem Moves.length_le (h : Moves st st') : st'.iter.length ≤ st.iter.length := by
  rcases h with hidle | hadvance
  · exact Nat.le_of_eq (congrArg List.length hidle.iter)
  · exact Nat.le_of_lt hadvance.shorter

variable (scheme V isFilter) in
/-- A call on the ENTRY returns. -/
def Returns (e : EntryId) (st : ArgState) : Prop :=
  ∃ fuel r, parseArg scheme V isFilter fuel false e st = some r

section Bounds

variable {rec : ParseFn} (hrec : ProgressSpec scheme V isFilter rec) {e : EntryId}
include hrec

theorem rec_moves {n : EntryId} {r : KpargvStatus × ArgState}
    (hcandidate : st.pargv.candidateParg = none) (h : rec n st = some r) : Moves st r.2 := by
  rcases hrec.outcome hcandidate h with hadvance | ⟨hidle, -⟩
  · exact .inr hadvance
  · exact .inl hidle

/-- There are no more occurrences than words, whatever 'max' is. -/
theorem occursLoop_repeats {n : EntryId} {min left num : ℕ} {rc : KpargvStatus} {consumed : Bool}
    {occ : Occurs} (hcandidate : st.pargv.candidateParg = none)
    (h : occursLoop rec n min left num rc consumed st = some occ) :
    occ.num + occ.st.iter.length ≤ num + st.iter.length := by
  induction left generalizing num rc consumed st with
  | zero =>
    cases h
    exact Nat.le_refl _
  | succ left ih =>
    rw [occursLoop] at h
    cases hcall : rec n st with
    | none =>
      rw [hcall] at h
      cases h
    | some r =>
      obtain ⟨res, st₁⟩ := r
      have hle : st₁.iter.length ≤ st.iter.length := (rec_moves hrec hcandidate hcall).length_le
      rw [hcall] at h
      dsimp only at h
      split at h
      · cases h
        exact Nat.add_le_add_left hle num
      split at h
      · cases h
        exact Nat.add_le_add_left hle num
      · rename_i hok
        rcases hrec.outcome hcandidate hcall with hadvance | ⟨-, ⟨rfl, -⟩ | ⟨rfl, -⟩⟩
        · have hshorter := hadvance.shorter
          have hrest := ih hadvance.candidate h
          omega
        · exact absurd (by decide) hok
        · exact absurd (by decide) hok

/-- An occurrence takes a word. -/
theorem occursLoop_moves {n : EntryId} {min left num : ℕ} {rc : KpargvStatus} {occ : Occurs}
    (hcandidate : st.pargv.candidateParg = none)
    (h : occursLoop rec n min left num rc false st = some occ) :
    Moves st occ.st ∧ (occ.consumed = true → Advance st occ.st) := by
  rcases occursLoop_outcome hrec hcandidate h with hadvance | ⟨hidle, -, hsame, -⟩
  · exact ⟨.inr hadvance, fun _ => hadvance⟩
  · refine ⟨.inl hidle, fun hconsumed => ?_⟩
    rw [hsame] at hconsumed
    cases hconsumed

/-- The iterator of a SEQUENCE goes back once for each word at most. -/
theorem sequenceLoop_rescans {fuel fuel' size : ℕ} {iter savedIter : List EntryId} {cur : Kpargv}
    {rc : KpargvStatus} {r : KpargvStatus × ArgState} (hiter : iter.length ≤ size)
    (hsaved : savedIter.length ≤ size) (hcandidate : st.pargv.candidateParg = none)
    (h : sequenceLoop scheme rec e fuel iter savedIter cur rc st = some r)
    (hfuel : st.iter.length * (size + 1) + iter.length < fuel') :
    sequenceLoop scheme rec e fuel' iter savedIter cur rc st = some r := by
  induction fuel generalizing fuel' iter savedIter cur rc st with
  | zero => cases h
  | succ fuel ih =>
    obtain ⟨fuel', rfl⟩ : ∃ n, fuel' = n + 1 := ⟨fuel' - 1, by omega⟩
    cases iter with
    | nil => exact h
    | cons n iter =>
      rw [List.length_cons] at hiter hfuel
      have hiter' : iter.length ≤ size := by omega
      have hfuel' : st.iter.length * (size + 1) + iter.length < fuel' := by omega
      apply sequenceLoop_cons.mpr
      cases sequenceLoop_cons.mp h with
      | pass hpass hnext => exact .pass hpass (ih hiter' hsaved hcandidate hnext hfuel')
      | stop hcommon hnew hocc hbreak hr => exact .stop hcommon hnew hocc hbreak hr
      | taken hcommon hnew hocc hbreak hconsumed hnext =>
        obtain ⟨-, hadvance⟩ := occursLoop_moves hrec hcandidate hocc
        have hkept := (hadvance hconsumed).addPargs (p := scheme.container e = true)
          ⟨e, some (scheme.name n)⟩
        have hshorter := Nat.mul_le_mul_right (size + 1) hkept.shorter
        rw [Nat.succ_mul] at hshorter
        obtain ⟨hiter'', hsaved'⟩ := after_forall (P := fun iter => iter.length ≤ size) hiter' hsaved _
        exact .taken hcommon hnew hocc hbreak hconsumed
          (ih hiter'' hsaved' hkept.candidate hnext (by omega))
      | idle hcommon hnew hocc hbreak hconsumed hnext =>
        obtain ⟨hmoves, -⟩ := occursLoop_moves hrec hcandidate hocc
        have hle := Nat.mul_le_mul_right (size + 1) hmoves.length_le
        exact .idle hcommon hnew hocc hbreak hconsumed
          (ih hiter' hsaved hmoves.candidate hnext (by omega))

end Bounds

theorem parseArg_moves {fuel : ℕ} {e : EntryId} {r : KpargvStatus × ArgState}
    (hcandidate : st.pargv.candidateParg = none)
    (h : parseArg scheme V isFilter fuel false e st = some r) : Moves st r.2 :=
  rec_moves (parseArg_progress fuel) hcandidate h

section Loops

variable {e : EntryId}

theorem switchLoop_returns {iter : List EntryId} (rc : KpargvStatus)
    (hcandidate : st.pargv.candidateParg = none)
    (hcall : ∀ n ∈ iter, scheme.purpose n = .common → ∀ st', Moves st st' →
      Returns scheme V isFilter n st') :
    ∃ fuel r, switchLoop scheme (parseArg scheme V isFilter fuel false) e iter rc st = some r := by
  induction iter generalizing rc st with
  | nil => exact ⟨0, _, rfl⟩
  | cons n iter ih =>
    have hrest : ∀ {st₁}, Moves st st₁ → ∀ m ∈ iter, scheme.purpose m = .common → ∀ st',
        Moves st₁ st' → Returns scheme V isFilter m st' := fun hmoves m hm hcommon st' hmoves' =>
      hcall m (List.mem_cons_of_mem _ hm) hcommon st' (hmoves.trans hmoves')
    by_cases hpurpose : scheme.purpose n = .common
    · obtain ⟨fuel, ⟨res, st₁⟩, hr⟩ := hcall n List.mem_cons_self hpurpose st (.inl (.refl hcandidate))
      have hmoves : Moves st st₁ := parseArg_moves hcandidate hr
      by_cases hstop : res = .ok ∨ res = .error
      · refine ⟨fuel, ?_⟩
        rw [switchLoop, if_neg (not_not.mpr hpurpose), hr]
        dsimp only
        rw [if_pos hstop]
        exact ⟨_, rfl⟩
      · obtain ⟨fuel', r, hr'⟩ := ih (if res = .none then .notfound else res) hmoves.candidate
          (hrest hmoves)
        refine ⟨max fuel fuel', r, ?_⟩
        rw [switchLoop, if_neg (not_not.mpr hpurpose),
          parseArg_mono (Nat.le_max_left fuel fuel') n st _ hr]
        dsimp only
        rw [if_neg hstop, if_neg (show ¬ (res = .ok ∧ scheme.container e = true) from
          fun hok => hstop (.inl hok.1))]
        exact switchLoop_mono (parseArg_mono (Nat.le_max_right fuel fuel')) hr'
    · obtain ⟨fuel, r, hr⟩ := ih rc hcandidate (hrest (.inl (.refl hcandidate)))
      refine ⟨fuel, r, ?_⟩
      rw [switchLoop, if_pos hpurpose]
      exact hr

theorem occursLoop_returns {n : EntryId} (min left num : ℕ) (rc : KpargvStatus) (consumed : Bool)
    (hcandidate : st.pargv.candidateParg = none)
    (hcall : left ≠ 0 → ∀ st', Moves st st' → Returns scheme V isFilter n st') :
    ∃ fuel occ, occursLoop (parseArg scheme V isFilter fuel false) n min left num rc consumed st =
      some occ := by
  induction left generalizing num rc consumed st with
  | zero => exact ⟨0, _, rfl⟩
  | succ left ih =>
    obtain ⟨fuel, ⟨res, st₁⟩, hr⟩ := hcall (by omega) st (.inl (.refl hcandidate))
    have hmoves : Moves st st₁ := parseArg_moves hcandidate hr
    by_cases hstop : res = .none ∨ (res = .notfound ∧ min ≤ num)
    · refine ⟨fuel, ?_⟩
      rw [occursLoop, hr]
      dsimp only
      rw [if_pos hstop]
      exact ⟨_, rfl⟩
    · by_cases hok : res = .ok
      · obtain ⟨fuel', occ, hocc⟩ := ih (num + 1) res true hmoves.candidate
          fun _ st' hmoves' => hcall (by omega) st' (hmoves.trans hmoves')
        refine ⟨max fuel fuel', occ, ?_⟩
        rw [occursLoop, parseArg_mono (Nat.le_max_left fuel fuel') n st _ hr]
        dsimp only
        rw [if_neg hstop, if_neg (not_not.mpr hok)]
        exact occursLoop_mono (parseArg_mono (Nat.le_max_right fuel fuel')) hocc
      · refine ⟨fuel, ?_⟩
        rw [occursLoop, hr]
        dsimp only
        rw [if_neg hstop, if_pos hok]
        exact ⟨_, rfl⟩

variable (scheme V) in
/-- Where a SEQUENCE stands that was entered in the first state: the cursor has advanced since, or no
nested ENTRY was satisfied so far. -/
def Onward (e : EntryId) (start : ArgState) (iter : List EntryId) (cur : Kpargv) (st : ArgState) :
    Prop :=
  Advance start st ∨ (Idle start st ∧ cur.pargs = [] ∧ ∃ before, scheme.nested e = before ++ iter ∧
    ∀ m ∈ before, Passable scheme (condOutcome V start.pargv.pargs) m)

theorem Onward.moves {start : ArgState} {iter : List EntryId} {cur : Kpargv}
    (h : Onward scheme V e start iter cur st) : Moves start st :=
  h.elim .inr fun hidle => .inl hidle.1

/-- The SEQUENCE goes on behind an ENTRY that could be passed over. -/
theorem Onward.pass {start : ArgState} {n : EntryId} {iter : List EntryId} {cur : Kpargv}
    (h : Onward scheme V e start (n :: iter) cur st) (hmoves : Moves st st')
    (hpass : cur.pargs = [] → Idle start st → Idle st st' →
      Passable scheme (condOutcome V start.pargv.pargs) n) :
    Onward scheme V e start iter cur st' := by
  rcases h with hadvance | ⟨hidle, hcur, before, hsplit, hbefore⟩
  · exact .inl (hadvance.moves hmoves)
  · rcases hmoves with hidle' | hadvance'
    · refine .inr ⟨hidle.trans hidle', hcur, before ++ [n], by simpa using hsplit, ?_⟩
      intro m hm
      rcases List.mem_append.mp hm with hm | hm
      · exact hbefore m hm
      · rw [List.mem_singleton.mp hm]
        exact hpass hcur hidle hidle'
    · exact .inl (hidle.advance hadvance')

theorem Onward.then {start : ArgState} {iter : List EntryId} {cur : Kpargv}
    (h : Onward scheme V e start iter cur st) (hmoves : Moves st st') :
    Onward scheme V e start iter cur st' := by
  rcases h with hadvance | ⟨hidle, hrest⟩
  · exact .inl (hadvance.moves hmoves)
  · exact hmoves.symm.imp hidle.advance fun hidle' => ⟨hidle.trans hidle', hrest⟩

theorem sequenceLoop_fuel {fuel fuel' : ℕ} {iter savedIter : List EntryId} {cur : Kpargv}
    {rc : KpargvStatus} {r : KpargvStatus × ArgState} (hle : fuel ≤ fuel')
    (h : sequenceLoop scheme (parseArg scheme V isFilter fuel false) e fuel iter savedIter cur rc st =
      some r) :
    sequenceLoop scheme (parseArg scheme V isFilter fuel' false) e fuel' iter savedIter cur rc st =
      some r :=
  sequenceLoop_mono (parseArg_mono hle) (sequenceLoop_more h hle)

/-- A SEQUENCE ends if the calls do that it can make. -/
theorem sequenceLoop_returns {start : ArgState} {iter savedIter : List EntryId} {cur : Kpargv}
    (rc : KpargvStatus) (hsub : ∀ n ∈ iter, n ∈ scheme.nested e)
    (hsaved : ∀ n ∈ savedIter, n ∈ scheme.nested e)
    (honward : Onward scheme V e start iter cur st)
    (hmode : (scheme.entry e).mode = .sequence)
    (hfirst : ∀ n, Tried scheme (condOutcome V start.pargv.pargs) e n → ∀ st', Idle start st' →
      Returns scheme V isFilter n st')
    (hlater : ∀ n ∈ scheme.nested e, scheme.purpose n = .common → ∀ st', Advance start st' →
      Returns scheme V isFilter n st') :
    ∃ fuel r, sequenceLoop scheme (parseArg scheme V isFilter fuel false) e fuel iter savedIter cur
      rc st = some r := by
  -- A word is taken before the iterator goes back.
  induction hwords : st.iter.length using Nat.strongRecOn
    generalizing iter savedIter cur rc st with
  | ind words ihwords =>
    induction iter generalizing cur rc st with
    | nil => exact ⟨1, _, rfl⟩
    | cons n iter ih =>
      have hsub' : ∀ m ∈ iter, m ∈ scheme.nested e := fun m hm => hsub m (List.mem_cons_of_mem _ hm)
      -- An ENTRY that is not called is passed over with the state as it is.
      have hskip : (scheme.purpose n = .common → cur.entryExists n = true) →
          ∃ fuel r, sequenceLoop scheme (parseArg scheme V isFilter fuel false) e fuel (n :: iter)
            savedIter cur rc st = some r := by
        intro hskip
        have honward' : Onward scheme V e start iter cur st := by
          apply honward.pass (.inl (.refl honward.moves.candidate))
          intro hnil _ _ hcommon
          have hentered := hskip hcommon
          rw [Kpargv.entryExists, hnil] at hentered
          cases hentered
        obtain ⟨fuel, r, hr⟩ := ih rc hsub' honward' hwords
        exact ⟨fuel + 1, r, sequenceLoop_cons.mpr (.pass hskip
          (sequenceLoop_mono (parseArg_mono (Nat.le_succ fuel)) hr))⟩
      by_cases hpurpose : scheme.purpose n = .common
      case neg => exact hskip fun hcommon => absurd hcommon hpurpose
      cases hexists : cur.entryExists n with
      | true => exact hskip fun _ => hexists
      | false =>
        have hcandidate : st.pargv.candidateParg = none := honward.moves.candidate
        have hcall : (scheme.entry n).max ≠ 0 → ∀ st', Moves st st' →
            Returns scheme V isFilter n st' := by
          intro hmax st' hmoves
          have hturn := honward.then hmoves
          rcases hturn with hadvance | ⟨hidle, -, before, hsplit, hbefore⟩
          · exact hlater n (hsub n List.mem_cons_self) hpurpose st' hadvance
          · exact hfirst n ⟨hpurpose, .inr ⟨hmode, hmax, before, iter, hsplit, hbefore⟩⟩ st' hidle
        obtain ⟨fuel, occ, hocc⟩ :=
          occursLoop_returns (scheme.entry n).min (scheme.entry n).max 0 rc false hcandidate hcall
        obtain ⟨hmoves, hadvance⟩ := occursLoop_moves (parseArg_progress fuel) hcandidate hocc
        cases hbreak : occ.breakLoop with
        | true =>
          have hocc' := occursLoop_mono (parseArg_mono (Nat.le_succ fuel)) hocc
          exact ⟨fuel + 1, _, sequenceLoop_cons.mpr (.stop hpurpose hexists hocc' hbreak rfl)⟩
        | false =>
          cases hconsumed : occ.consumed with
          | true =>
            have hkept : Advance st (if scheme.container e = true then
                occ.st.addPargs ⟨e, some (scheme.name n)⟩ else occ.st) :=
              (hadvance hconsumed).addPargs _
            obtain ⟨hsub'', hsaved'⟩ :=
              after_forall (P := fun iter => ∀ m ∈ iter, m ∈ scheme.nested e) hsub' hsaved occ.num
            obtain ⟨fuel', r, hr⟩ := ihwords _ (hwords ▸ hkept.shorter) occ.rc hsub'' hsaved'
              (.inl (honward.moves.advance hkept) :
                Onward scheme V e start _ (cur.addPargs ⟨n, none⟩) _) rfl
            have hocc' := occursLoop_mono (parseArg_mono
              (Nat.le_succ_of_le (Nat.le_max_left fuel fuel'))) hocc
            have hr' := sequenceLoop_fuel (Nat.le_max_right fuel fuel') hr
            exact ⟨max fuel fuel' + 1, r, sequenceLoop_cons.mpr (.taken hpurpose hexists hocc' hbreak
              hconsumed (sequenceLoop_mono (parseArg_mono (Nat.le_succ _)) hr'))⟩
          | false =>
            have hpass : Onward scheme V e start iter cur occ.st := by
              apply honward.pass hmoves
              intro _ hidle hidle'
              rcases occursLoop_outcome (parseArg_progress fuel) hcandidate hocc with
                hadvance | ⟨-, -, -, ⟨-, -, hwhy⟩ | ⟨hbreak', -⟩⟩
              · exact absurd (congrArg List.length hidle'.iter) (Nat.ne_of_lt hadvance.shorter)
              · rw [hidle.pargs] at hwhy
                exact (passable_iff scheme _ hpurpose).mpr hwhy
              · rw [hbreak'] at hbreak
                cases hbreak
            have hrest : ∃ fuel r, sequenceLoop scheme (parseArg scheme V isFilter fuel false) e fuel
                iter savedIter cur occ.rc occ.st = some r := by
              rcases Nat.lt_or_eq_of_le hmoves.length_le with hlt | heq
              · exact ihwords _ (hwords ▸ hlt) occ.rc hsub' hsaved hpass rfl
              · exact ih occ.rc hsub' hpass (heq.trans hwords)
            obtain ⟨fuel', r, hr⟩ := hrest
            have hocc' := occursLoop_mono (parseArg_mono
              (Nat.le_succ_of_le (Nat.le_max_left fuel fuel'))) hocc
            have hr' := sequenceLoop_fuel (Nat.le_max_right fuel fuel') hr
            exact ⟨max fuel fuel' + 1, r, sequenceLoop_cons.mpr (.idle hpurpose hexists hocc' hbreak
              hconsumed (sequenceLoop_mono (parseArg_mono (Nat.le_succ _)) hr'))⟩

theorem parseNested_returns (retcode : KpargvStatus) (hcandidate : st.pargv.candidateParg = none)
    (hfirst : ∀ n, Tried scheme (condOutcome V st.pargv.pargs) e n → ∀ st', Idle st st' →
      Returns scheme V isFilter n st')
    (hlater : ∀ n ∈ scheme.nested e, scheme.purpose n = .common → ∀ st', Advance st st' →
      Returns scheme V isFilter n st') :
    ∃ fuel r, parseNested scheme (parseArg scheme V isFilter fuel false) e fuel retcode st =
      some r := by
  cases hmode : (scheme.entry e).mode with
  | switch =>
    obtain ⟨fuel, q, hq⟩ := switchLoop_returns (e := e) .none hcandidate
      fun n hn hcommon st' hmoves => by
        rcases hmoves with hidle | hadvance
        · exact hfirst n ⟨hcommon, .inl ⟨hmode, hn⟩⟩ st' hidle
        · exact hlater n hn hcommon st' hadvance
    refine ⟨fuel, (combineStatus retcode q.1, q.2), ?_⟩
    simp only [parseNested, hmode, hq, Option.map_some]
  | sequence =>
    have honward : Onward scheme V e st (scheme.nested e) .new st :=
      .inr ⟨.refl hcandidate, rfl, [], rfl, fun m hm => nomatch hm⟩
    obtain ⟨fuel, q, hq⟩ := sequenceLoop_returns .none (fun _ => id) (fun _ => id) honward hmode
      hfirst hlater
    refine ⟨fuel, (combineStatus retcode q.1, q.2), ?_⟩
    simp only [parseNested, hmode, hq, Option.map_some]
  | empty | none =>
    refine ⟨0, (retcode, st), ?_⟩
    simp only [parseNested, hmode]

/-- A call returns if the calls do that it makes before and after a word is taken. -/
theorem returns_of_calls (hcandidate : st.pargv.candidateParg = none)
    (hfirst : ∀ n, Calls scheme (condOutcome V st.pargv.pargs) e n → ∀ st', Idle st st' →
      Returns scheme V isFilter n st')
    (hlater : ∀ n ∈ scheme.nested e, scheme.purpose n = .common → ∀ st', Advance st st' →
      Returns scheme V isFilter n st') :
    Returns scheme V isFilter e st := by
  obtain ⟨fuel, r, hr⟩ : ∃ fuel r, parseBody scheme V (parseArg scheme V isFilter fuel false) e fuel
      isFilter false st = some r := by
    simp only [parseBody_enter]
    have hentered := enter_entered scheme V isFilter e hcandidate
    cases hself : enter scheme V isFilter e st with
    | ret status st₁ => exact ⟨0, _, rfl⟩
    | cont retcode st₁ =>
      rw [hself] at hentered
      by_cases hempty : (scheme.nested e).isEmpty = true
      · exact ⟨0, (retcode, st₁), if_pos hempty⟩
      simp only [if_neg hempty]
      cases hentered with
      | container hidle hcond hcontainer =>
        apply parseNested_returns _ hidle.candidate
        · intro n htried st' hidle'
          rw [hidle.pargs] at htried
          exact hfirst n ⟨hcond, hcontainer, htried⟩ st' (hidle.trans hidle')
        · intro n hn hcommon st' hadvance
          exact hlater n hn hcommon st' (hidle.advance hadvance)
      | word hadvance =>
        apply parseNested_returns _ hadvance.candidate
        · intro n htried st' hidle
          exact hlater n htried.mem htried.1 st' (hadvance.idle hidle)
        · intro n hn hcommon st' hadvance'
          exact hlater n hn hcommon st' (hadvance.moves (.inr hadvance'))
  exact ⟨fuel + 1, r, hr⟩

/-- From ENTRYs whose calls before a word all come to an end, the parser returns. -/
theorem parseArg_returns {D : EntryId → Prop} (hclosed : ∀ e, D e → ∀ n ∈ scheme.nested e, D n)
    (hends : ∀ f e, D e → Acc (fun n e => Calls scheme f e n) e) {e : EntryId} (he : D e)
    (hcandidate : st.pargv.candidateParg = none) : Returns scheme V isFilter e st := by
  induction hwords : st.iter.length using Nat.strongRecOn generalizing e st with
  | ind words ihwords =>
    -- Calls before a word leave the arguments alone and with them the outcomes of the CONDs.
    have hacc := hends (condOutcome V st.pargv.pargs) e he
    have hall : ∀ st', Idle st st' → Returns scheme V isFilter e st' := by
      induction hacc with
      | intro e _ ih =>
        intro st' hidle
        apply returns_of_calls hidle.candidate
        · intro n hn st'' hidle'
          rw [hidle.pargs] at hn
          exact ih n hn (hclosed e he n hn.2.2.mem) st'' (hidle.trans hidle')
        · intro n hn _ st'' hadvance
          have hshorter : st''.iter.length < words := by
            rw [← hwords, ← hidle.iter]
            exact hadvance.shorter
          exact ihwords _ hshorter (hclosed e he n hn) hadvance.candidate rfl
    exact hall st (.refl hcandidate)

end Loops

/-- The loop over the levels ends if the calls on them return. -/
theorem levelsLoop_returns {dontParseUpper : Bool} {levels : List EntryId} (pstatus : KpargvStatus)
    (levelFound : ℕ) (hcandidate : st.pargv.candidateParg = none)
    (hcall : ∀ e ∈ levels, scheme.purpose e = .common → ∀ st', st'.pargv.candidateParg = none →
      Returns scheme V isFilter e st') :
    ∃ fuel r, levelsLoop scheme (parseArg scheme V isFilter fuel false) dontParseUpper levels pstatus
      st levelFound = some r := by
  induction levels generalizing pstatus st levelFound with
  | nil => exact ⟨0, _, rfl⟩
  | cons e levels ih =>
    have hcall' : ∀ e ∈ levels, scheme.purpose e = .common → ∀ st',
        st'.pargv.candidateParg = none → Returns scheme V isFilter e st' :=
      fun n hn => hcall n (List.mem_cons_of_mem _ hn)
    by_cases hcommon : scheme.purpose e = .common
    · obtain ⟨fuel, r, hr⟩ := hcall e List.mem_cons_self hcommon st hcandidate
      by_cases hstop : StopsAt scheme dontParseUpper e r
      · refine ⟨fuel, ⟨r.1, r.2, levelFound⟩, ?_⟩
        rw [levelsLoop_common scheme hcommon hr, if_pos hstop]
      · obtain ⟨fuel', q, hq⟩ := ih r.1 (sizeDec levelFound)
          (parseArg_moves hcandidate hr).candidate hcall'
        refine ⟨max fuel fuel', q, ?_⟩
        rw [levelsLoop_common scheme hcommon
          (parseArg_mono (Nat.le_max_left fuel fuel') e st r hr), if_neg hstop]
        exact levelsLoop_mono (parseArg_mono (Nat.le_max_right fuel fuel')) hq
    · obtain ⟨fuel, q, hq⟩ := ih pstatus levelFound hcandidate hcall'
      refine ⟨fuel, q, ?_⟩
      rw [levelsLoop_skip scheme hcommon]
      exact hq

end Klish.Ksession
