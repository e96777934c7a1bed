import Klish.ParseLine

/-!
# Conservation of arguments

Whatever status a call of `ksession_parse_arg` returns, the arguments it appends account
for the words its cursor passed. The word arguments correspond to these words one to one
and in order, and an argument of a container names a nested ENTRY that was matched.
-/

namespace Klish.Ksession

variable (scheme : Kscheme) (V : Oracle)

/-- The value an argument gets when the PTYPE of the ENTRY accepts the word: the output of
the PTYPE, or the word itself when there is no output. -/
def accepts (e : EntryId) (pargs : List Kparg) (word : String) : Option String :=
  match scheme.nestedByPurpose e .ptype with
  | none => none
  | some ptypeEntry =>
    let res := V ptypeEntry pargs (some ⟨e, some word⟩)
    if res.completed = true ∧ res.retcode = 0 then
      if strIsEmpty res.out then some word else res.out
    else none

theorem tryCandidate_spec (e : EntryId) (word : String) (st : ArgState) :
    ∃ done, tryCandidate scheme V e word st =
      match accepts scheme V e st.pargv.pargs word with
      | some v => (true, ⟨st.iter,
          { st.pargv with pargs := st.pargv.pargs ++ [⟨e, some v⟩], candidateParg := none }, done⟩)
      | none => (false, ⟨st.iter, { st.pargv with candidateParg := none }, done⟩) := by
  simp only [tryCandidate, validateArg, ArgState.setCandidateParg, accepts]
  cases hp : scheme.nestedByPurpose e .ptype with
  | none => exact ⟨st.done, rfl⟩
  | some ptypeEntry =>
    rcases hres : V ptypeEntry st.pargv.pargs (some ⟨e, some word⟩) with
      ⟨completed, retcode, out, stopped⟩
    refine ⟨st.done || stopped, ?_⟩
    cases completed with
    | false => simp [hres, ArgState.noteStopped, Kpargv.declineCandidateParg]
    | true =>
      by_cases hr : retcode = 0
      · cases out with
        | none => simp [hres, hr, strIsEmpty, ArgState.noteStopped, Kpargv.acceptCandidateParg,
            Kpargv.addPargs]
        | some out =>
          by_cases hs : out = "" <;>
            simp [hres, hr, hs, strIsEmpty, ArgState.noteStopped, Kpargv.acceptCandidateParg,
              Kpargv.addPargs]
      · simp [hres, hr, ArgState.noteStopped, Kpargv.declineCandidateParg]

/-- The candidate is gone after every validation, accepted or not. -/
theorem tryCandidate_candidateParg (e : EntryId) (word : String) (st : ArgState) :
    (tryCandidate scheme V e word st).2.pargv.candidateParg = none := by
  obtain ⟨done, h⟩ := tryCandidate_spec scheme V e word st
  rw [h]
  split <;> rfl

/-- A call on the ENTRY that returned OK, from one list of arguments to another. -/
def OkCall (isFilter : Bool) (e : EntryId) (before after : List Kparg) : Prop :=
  ∃ fuel st st', parseArg scheme V isFilter fuel false e st = some (.ok, st') ∧
    st.pargv.pargs = before ∧ st'.pargv.pargs = after

/-- The arguments that calls starting from `start` append, and the words they stand for. -/
inductive Added (isFilter : Bool) (start : List Kparg) : List Kparg → List String → Prop
  | nil : Added isFilter start [] []
  | word {added words e word value} (h : Added isFilter start added words)
      (hcontainer : scheme.container e = false)
      (haccept : accepts scheme V e (start ++ added) word = some value) :
      Added isFilter start (added ++ [⟨e, some value⟩]) (words ++ [word])
  | container {added words e nested before after} (h : Added isFilter start added words)
      (hcontainer : scheme.container e = true)
      (hnested : nested ∈ scheme.nested e) (hcommon : scheme.purpose nested = .common)
      (hok : OkCall scheme V isFilter nested before after)
      (hbefore : start <+: before) (hafter : after <+: start ++ added) :
      Added isFilter start (added ++ [⟨e, some (scheme.name nested)⟩]) words

variable {scheme V} {isFilter : Bool}

theorem Added.trans {start a b : List Kparg} {ws vs : List String}
    (ha : Added scheme V isFilter start a ws) (hb : Added scheme V isFilter (start ++ a) b vs) :
    Added scheme V isFilter start (a ++ b) (ws ++ vs) := by
  induction hb with
  | nil => simpa using ha
  | word h hc hacc ih =>
    rw [← List.append_assoc, ← List.append_assoc]
    exact .word ih hc (by simpa using hacc)
  | container h hc hn hcommon hok hbefore hafter ih =>
    rw [← List.append_assoc]
    exact .container ih hc hn hcommon hok ((List.prefix_append _ _).trans hbefore)
      (by simpa using hafter)

theorem Added.words_eq_nil {start : List Kparg} {words : List String}
    (h : Added scheme V isFilter start [] words) : words = [] := by
  generalize hnil : ([] : List Kparg) = added at h
  cases h with
  | nil => rfl
  | word | container => simp at hnil

variable (scheme) in
/-- The ENTRY of the last word argument that has an ACTION. -/
def lastCommand (pargs : List Kparg) : Option EntryId :=
  (pargs.reverse.find? fun parg =>
    !scheme.container parg.entry && !(scheme.actions parg.entry).isEmpty).map Kparg.entry

@[simp] theorem lastCommand_nil : lastCommand scheme [] = none := rfl

theorem lastCommand_concat (pargs : List Kparg) (parg : Kparg) :
    lastCommand scheme (pargs ++ [parg]) =
      if scheme.container parg.entry = false ∧ (scheme.actions parg.entry).isEmpty = false then
        some parg.entry
      else lastCommand scheme pargs := by
  cases hc : scheme.container parg.entry <;>
    cases ha : (scheme.actions parg.entry).isEmpty <;> simp [lastCommand, hc, ha]

theorem lastCommand_eq_none_iff (pargs : List Kparg) :
    lastCommand scheme pargs = none ↔
      ∀ parg ∈ pargs, scheme.container parg.entry = false → scheme.actions parg.entry = [] := by
  simp [lastCommand]

variable (scheme V isFilter) in
/-- What a call does to the shared state, whatever it returns. -/
structure Conserves (st st' : ArgState) : Prop where
  added : ∃ added words, st'.pargv.pargs = st.pargv.pargs ++ added ∧
    st.iter = words ++ st'.iter ∧ Added scheme V isFilter st.pargv.pargs added words
  candidate : st.pargv.candidateParg = none → st'.pargv.candidateParg = none
  command : st.pargv.command = lastCommand scheme st.pargv.pargs →
    st'.pargv.command = lastCommand scheme st'.pargv.pargs
  purpose : st'.pargv.purpose = st.pargv.purpose

namespace Conserves

theorem refl (st : ArgState) : Conserves scheme V isFilter st st :=
  ⟨⟨[], [], by simp, by simp, .nil⟩, id, id, rfl⟩

theorem trans {a b c : ArgState} (h : Conserves scheme V isFilter a b)
    (h' : Conserves scheme V isFilter b c) : Conserves scheme V isFilter a c := by
  obtain ⟨x, ws, hx, hw, hadd⟩ := h.added
  obtain ⟨y, vs, hy, hv, hadd'⟩ := h'.added
  refine ⟨⟨x ++ y, ws ++ vs, ?_, ?_, ?_⟩, h'.candidate ∘ h.candidate, h'.command ∘ h.command,
    h'.purpose.trans h.purpose⟩
  · rw [hy, hx, List.append_assoc]
  · rw [hw, hv, List.append_assoc]
  · exact hadd.trans (hx ▸ hadd')

/-- The session's flag is no part of the account. -/
theorem of_done {st : ArgState} {done : Bool} :
    Conserves scheme V isFilter st { st with done } :=
  ⟨(refl st).added, id, id, rfl⟩

theorem addCompletions (st : ArgState) (e : EntryId) :
    Conserves scheme V isFilter st (st.addCompletions scheme e) := by
  refine ⟨⟨[], [], ?_, ?_, .nil⟩, ?_, ?_, ?_⟩ <;> simp [ArgState.addCompletions]

theorem pargs_prefix {st st' : ArgState} (h : Conserves scheme V isFilter st st') :
    st.pargv.pargs <+: st'.pargv.pargs := by
  obtain ⟨added, _, hp, _⟩ := h.added
  exact ⟨added, hp.symm⟩

/-- A call that appended nothing took no words. -/
theorem iter_eq {st st' : ArgState} (h : Conserves scheme V isFilter st st')
    (heq : st'.pargv.pargs = st.pargv.pargs) : st'.iter = st.iter := by
  obtain ⟨added, words, hp, hw, hadd⟩ := h.added
  have hnil : added = [] := by simpa [heq] using hp
  subst hnil
  rw [hw, hadd.words_eq_nil, List.nil_append]

/-- The argument of a container is appended after a call on a nested ENTRY returned OK. -/
theorem addContainer {st st' : ArgState} {e nested : EntryId} {before after : List Kparg}
    (h : Conserves scheme V isFilter st st') (hcontainer : scheme.container e = true)
    (hnested : nested ∈ scheme.nested e) (hcommon : scheme.purpose nested = .common)
    (hok : OkCall scheme V isFilter nested before after)
    (hbefore : st.pargv.pargs <+: before) (hafter : after <+: st'.pargv.pargs) :
    Conserves scheme V isFilter st (st'.addPargs ⟨e, some (scheme.name nested)⟩) := by
  obtain ⟨added, words, hp, hw, hadd⟩ := h.added
  refine ⟨⟨added ++ [⟨e, some (scheme.name nested)⟩], words, ?_, hw,
    .container hadd hcontainer hnested hcommon hok hbefore (hp ▸ hafter)⟩, h.candidate, ?_,
    h.purpose⟩
  · simp [ArgState.addPargs, hp]
  · intro hcmd
    simpa [ArgState.addPargs, lastCommand_concat, hcontainer] using h.command hcmd

end Conserves

theorem tryCandidate_conserves {e : EntryId} {word : String} {rest : List String} {st st' : ArgState}
    (hcontainer : scheme.container e = false) (hiter : st.iter = word :: rest)
    (h : tryCandidate scheme V e word st = (true, st')) :
    Conserves scheme V isFilter st
      { (if (scheme.actions e).isEmpty then st' else st'.setCommand e) with iter := rest } := by
  obtain ⟨done, hspec⟩ := tryCandidate_spec scheme V e word st
  rw [hspec] at h
  cases hacc : accepts scheme V e st.pargv.pargs word with
  | none => simp [hacc] at h
  | some v =>
    simp only [hacc, Prod.mk.injEq, true_and] at h
    subst h
    refine ⟨⟨[⟨e, some v⟩], [word], ?_, ?_, ?_⟩, fun _ => ?_, ?_, ?_⟩
    · split <;> rfl
    · exact hiter
    · have hword := Added.word (.nil : Added scheme V isFilter st.pargv.pargs [] []) hcontainer
        (by simpa using hacc)
      simpa using hword
    · split <;> rfl
    · intro hcmd
      cases ha : (scheme.actions e).isEmpty <;>
        simp [ha, ArgState.setCommand, lastCommand_concat, hcontainer, hcmd]
    · split <;> rfl

/-- The state in which the call leaves the ENTRY itself. -/
def SelfResult.state : SelfResult → ArgState
  | .ret _ st | .cont _ st => st

theorem resolveSelf_conserves (e : EntryId) (st : ArgState) :
    Conserves scheme V isFilter st (resolveSelf scheme V isFilter false e st).state := by
  simp only [resolveSelf, Bool.false_eq_true, ↓reduceIte]
  cases hc : scheme.container e with
  | true => exact .refl st
  | false =>
    simp only [Bool.false_eq_true, ↓reduceIte]
    cases hi : st.iter with
    | nil =>
      simp only []
      split
      · exact .addCompletions st e
      · exact .refl st
    | cons word rest =>
      simp only []
      split
      · exact .addCompletions st e
      · split <;> rename_i st' htry
        · exact tryCandidate_conserves hc hi htry
        · obtain ⟨done, hspec⟩ := tryCandidate_spec scheme V e word st
          rw [hspec] at htry
          cases hacc : accepts scheme V e st.pargv.pargs word with
          | some v => simp [hacc] at htry
          | none =>
            simp only [hacc, Prod.mk.injEq, true_and] at htry
            subst htry
            exact ⟨⟨[], [], by simp [SelfResult.state], by simp [SelfResult.state, hi], .nil⟩,
              fun _ => rfl, id, rfl⟩

variable (scheme V isFilter) in
/-- What the loops need to know about the calls they make. -/
structure CallSpec (rec : ParseFn) : Prop where
  conserves : ∀ {n st s st'}, rec n st = some (s, st') → Conserves scheme V isFilter st st'
  okCall : ∀ {n st st'}, rec n st = some (.ok, st') →
    OkCall scheme V isFilter n st.pargv.pargs st'.pargv.pargs

section Rounds

variable {scheme : Kscheme} {rec rec' : ParseFn} {e n : EntryId}

/-- Where the iterator of a SEQUENCE goes back to, after an ENTRY was satisfied. -/
def savedAfter (scheme : Kscheme) (n : EntryId) (iter savedIter : List EntryId) : List EntryId :=
  if 0 < (scheme.entry n).min || (scheme.entry n).order then iter else savedIter

/-- Where the iterator goes on. -/
def iterAfter (scheme : Kscheme) (n : EntryId) (num : ℕ) (iter savedIter : List EntryId) :
    List EntryId :=
  if (scheme.entry n).min = 0 ∧ 0 < num then savedAfter scheme n iter savedIter else iter

/-- One round of the loop over a SEQUENCE, over what the loop does next. -/
inductive SequenceRound (scheme : Kscheme) (rec : ParseFn) (e n : EntryId)
    (iter savedIter : List EntryId) (cur : Kpargv) (rc : KpargvStatus) (st : ArgState)
    (r : KpargvStatus × ArgState)
    (next : List EntryId → List EntryId → Kpargv → KpargvStatus → ArgState → Prop) : Prop
  | pass (hpass : scheme.purpose n = .common → cur.entryExists n = true)
      (hnext : next iter savedIter cur rc st)
  | stop {occ : Occurs} (hcommon : scheme.purpose n = .common) (hnew : cur.entryExists n = false)
      (hocc : occursLoop rec n (scheme.entry n).min (scheme.entry n).max 0 rc false st = some occ)
      (hbreak : occ.breakLoop = true) (hr : r = (occ.rc, occ.st))
  | taken {occ : Occurs} (hcommon : scheme.purpose n = .common) (hnew : cur.entryExists n = false)
      (hocc : occursLoop rec n (scheme.entry n).min (scheme.entry n).max 0 rc false st = some occ)
      (hbreak : occ.breakLoop = false) (hconsumed : occ.consumed = true)
      (hnext : next (iterAfter scheme n occ.num iter savedIter) (savedAfter scheme n iter savedIter)
        (cur.addPargs ⟨n, none⟩) occ.rc
        (if scheme.container e = true then occ.st.addPargs ⟨e, some (scheme.name n)⟩ else occ.st))
  | idle {occ : Occurs} (hcommon : scheme.purpose n = .common) (hnew : cur.entryExists n = false)
      (hocc : occursLoop rec n (scheme.entry n).min (scheme.entry n).max 0 rc false st = some occ)
      (hbreak : occ.breakLoop = false) (hconsumed : occ.consumed = false)
      (hnext : next iter savedIter cur occ.rc occ.st)

theorem after_forall {P : List EntryId → Prop} {iter savedIter : List EntryId} (hiter : P iter)
    (hsaved : P savedIter) (num : ℕ) :
    P (iterAfter scheme n num iter savedIter) ∧ P (savedAfter scheme n iter savedIter) := by
  have hafter : P (savedAfter scheme n iter savedIter) := by
    rw [savedAfter]
    split
    · exact hiter
    · exact hsaved
  refine ⟨?_, hafter⟩
  rw [iterAfter]
  split
  · exact hafter
  · exact hiter

/-- The loop over a SEQUENCE makes its rounds. -/
theorem sequenceLoop_cons {fuel : ℕ} {iter savedIter : List EntryId} {cur : Kpargv}
    {rc : KpargvStatus} {st : ArgState} {r : KpargvStatus × ArgState} :
    sequenceLoop scheme rec e (fuel + 1) (n :: iter) savedIter cur rc st = some r ↔
      SequenceRound scheme rec e n iter savedIter cur rc st r
        fun iter savedIter cur rc st =>
          sequenceLoop scheme rec e fuel iter savedIter cur rc st = some r := by
  rw [sequenceLoop]
  dsimp only
  constructor
  · intro h
    split at h
    case isTrue hpurpose => exact .pass (fun hcommon => absurd hcommon hpurpose) h
    rename_i hpurpose
    have hcommon : scheme.purpose n = .common := not_not.mp hpurpose
    split at h
    case isTrue hexists => exact .pass (fun _ => hexists) h
    rename_i hexists
    have hnew : cur.entryExists n = false := by simpa using hexists
    cases hocc : occursLoop rec n (scheme.entry n).min (scheme.entry n).max 0 rc false st with
    | none =>
      rw [hocc] at h
      cases h
    | some occ =>
      rw [hocc] at h
      cases hbreak : occ.breakLoop with
      | true =>
        simp only [hbreak, if_true, Option.some.injEq] at h
        exact .stop hcommon hnew hocc hbreak h.symm
      | false =>
        cases hconsumed : occ.consumed with
        | true =>
          simp only [hbreak, hconsumed, Bool.false_eq_true, if_false, if_true] at h
          exact .taken hcommon hnew hocc hbreak hconsumed h
        | false =>
          simp only [hbreak, hconsumed, Bool.false_eq_true, if_false] at h
          exact .idle hcommon hnew hocc hbreak hconsumed h
  · intro h
    cases h with
    | pass hpass hnext =>
      by_cases hcommon : scheme.purpose n = .common
      · rw [if_neg (not_not.mpr hcommon), if_pos (hpass hcommon), hnext]
      · rw [if_pos hcommon, hnext]
    | stop hcommon hnew hocc hbreak hr =>
      simp [hcommon, hnew, hocc, hbreak, hr]
    | taken hcommon hnew hocc hbreak hconsumed hnext =>
      simp only [hcommon, hnew, hocc, hbreak, hconsumed]
      exact hnext
    | idle hcommon hnew hocc hbreak hconsumed hnext =>
      simp only [hcommon, hnew, hocc, hbreak, hconsumed]
      exact hnext

theorem SequenceRound.imp {iter savedIter : List EntryId} {cur : Kpargv} {rc : KpargvStatus}
    {st : ArgState} {r : KpargvStatus × ArgState}
    {next next' : List EntryId → List EntryId → Kpargv → KpargvStatus → ArgState → Prop}
    (h : SequenceRound scheme rec e n iter savedIter cur rc st r next)
    (hrec : ∀ occ, occursLoop rec n (scheme.entry n).min (scheme.entry n).max 0 rc false st =
      some occ →
        occursLoop rec' n (scheme.entry n).min (scheme.entry n).max 0 rc false st = some occ)
    (hnext : ∀ iter savedIter cur rc st, next iter savedIter cur rc st →
      next' iter savedIter cur rc st) :
    SequenceRound scheme rec' e n iter savedIter cur rc st r next' := by
  cases h with
  | pass hpass h => exact .pass hpass (hnext _ _ _ _ _ h)
  | stop hcommon hnew hocc hbreak hr => exact .stop hcommon hnew (hrec _ hocc) hbreak hr
  | taken hcommon hnew hocc hbreak hconsumed h =>
    exact .taken hcommon hnew (hrec _ hocc) hbreak hconsumed (hnext _ _ _ _ _ h)
  | idle hcommon hnew hocc hbreak hconsumed h =>
    exact .idle hcommon hnew (hrec _ hocc) hbreak hconsumed (hnext _ _ _ _ _ h)

end Rounds

section Loops

variable {rec : ParseFn} (hrec : CallSpec scheme V isFilter rec) {e : EntryId}

include hrec

theorem switchLoop_conserves {iter : List EntryId} {rc rc' : KpargvStatus} {st st' : ArgState}
    (hsub : ∀ n ∈ iter, n ∈ scheme.nested e)
    (h : switchLoop scheme rec e iter rc st = some (rc', st')) :
    Conserves scheme V isFilter st st' := by
  induction iter generalizing rc st with
  | nil =>
    cases h
    exact .refl _
  | cons nested iter ih =>
    have hnested := hsub nested List.mem_cons_self
    have hsub' : ∀ n ∈ iter, n ∈ scheme.nested e := fun n hn => hsub n (List.mem_cons_of_mem _ hn)
    rw [switchLoop] at h
    split at h
    · exact ih hsub' h
    · rename_i hcommon
      cases hcall : rec nested st with
      | none => simp [hcall] at h
      | some r =>
        obtain ⟨res, st₁⟩ := r
        have hcons := hrec.conserves hcall
        simp only [hcall] at h
        by_cases hres : res = .ok
        · subst hres
          simp only [true_and, reduceCtorEq, or_false, ↓reduceIte, Option.some.injEq,
            Prod.mk.injEq] at h
          obtain ⟨-, rfl⟩ := h
          split
          · rename_i hc
            exact hcons.addContainer hc hnested (by simpa using hcommon) (hrec.okCall hcall)
              (List.prefix_refl _) (List.prefix_refl _)
          · exact hcons
        · simp only [hres, false_and, ↓reduceIte, false_or] at h
          split at h
          · simp only [Option.some.injEq, Prod.mk.injEq] at h
            exact h.2 ▸ hcons
          · exact hcons.trans (ih hsub' h)

theorem occursLoop_conserves {nested : EntryId} {min left num : ℕ} {rc : KpargvStatus}
    {consumed : Bool} {st : ArgState} {occ : Occurs}
    (h : occursLoop rec nested min left num rc consumed st = some occ) :
    Conserves scheme V isFilter st occ.st ∧
      (occ.consumed = true → consumed = true ∨ ∃ before after,
        OkCall scheme V isFilter nested before after ∧ st.pargv.pargs <+: before ∧
          after <+: occ.st.pargv.pargs) := by
  induction left generalizing num rc consumed st with
  | zero =>
    cases h
    exact ⟨.refl st, Or.inl⟩
  | succ left ih =>
    rw [occursLoop] at h
    cases hcall : rec nested st with
    | none => simp [hcall] at h
    | some r =>
      obtain ⟨res, st₁⟩ := r
      have hcons := hrec.conserves hcall
      simp only [hcall] at h
      split at h
      · cases h
        exact ⟨hcons, Or.inl⟩
      · split at h
        · cases h
          exact ⟨hcons, Or.inl⟩
        · rename_i hok
          have hres : res = .ok := by simpa using hok
          subst hres
          obtain ⟨hrest, -⟩ := ih h
          exact ⟨hcons.trans hrest, fun _ => Or.inr ⟨_, _, hrec.okCall hcall,
            List.prefix_refl _, hrest.pargs_prefix⟩⟩

theorem sequenceLoop_conserves {fuel : ℕ} {iter savedIter : List EntryId} {cur : Kpargv}
    {rc rc' : KpargvStatus} {st st' : ArgState}
    (hsub : ∀ n ∈ iter, n ∈ scheme.nested e) (hsaved : ∀ n ∈ savedIter, n ∈ scheme.nested e)
    (h : sequenceLoop scheme rec e fuel iter savedIter cur rc st = some (rc', st')) :
    Conserves scheme V isFilter st st' := by
  induction fuel generalizing iter savedIter cur rc st with
  | zero => simp [sequenceLoop] at h
  | succ fuel ih =>
    cases iter with
    | nil =>
      cases h
      exact .refl _
    | cons nested iter =>
      have hnested := hsub nested List.mem_cons_self
      have hsub' : ∀ n ∈ iter, n ∈ scheme.nested e := fun n hn =>
        hsub n (List.mem_cons_of_mem _ hn)
      cases sequenceLoop_cons.mp h with
      | pass _ hnext => exact ih hsub' hsaved hnext
      | stop _ _ hocc _ hr =>
        cases hr
        exact (occursLoop_conserves hrec hocc).1
      | taken hcommon _ hocc _ hconsumed hnext =>
        obtain ⟨hcons, htook⟩ := occursLoop_conserves hrec hocc
        obtain ⟨hiter', hsaved'⟩ :=
          after_forall (P := fun iter => ∀ n ∈ iter, n ∈ scheme.nested e) hsub' hsaved _
        refine Conserves.trans ?_ (ih hiter' hsaved' hnext)
        split
        · rename_i hcont
          obtain ⟨before, after, hcall, hb, ha⟩ := (htook hconsumed).resolve_left (by simp)
          exact hcons.addContainer hcont hnested hcommon hcall hb ha
        · exact hcons
      | idle _ _ hocc _ _ hnext =>
        exact (occursLoop_conserves hrec hocc).1.trans (ih hsub' hsaved hnext)

theorem parseBody_conserves {fuel : ℕ} {st st' : ArgState} {status : KpargvStatus}
    (h : parseBody scheme V rec e fuel isFilter false st = some (status, st')) :
    Conserves scheme V isFilter st st' := by
  rw [parseBody] at h
  have hcond : Conserves scheme V isFilter st (testCond scheme V e st).2 := by
    unfold testCond
    split
    · exact .refl st
    · exact .of_done
  split at h <;> rename_i st₁ htest <;> simp only [htest] at hcond
  · cases h
    exact hcond
  · have hself := hcond.trans (resolveSelf_conserves e st₁)
    split at h <;> rename_i retcode st₂ hres <;> simp only [hres, SelfResult.state] at hself
    · cases h
      exact hself
    · split at h
      · cases h
        exact hself
      · apply hself.trans
        unfold parseNested at h
        split at h
        · obtain ⟨⟨rc, st₃⟩, hloop, heq⟩ := Option.map_eq_some_iff.mp h
          cases heq
          exact switchLoop_conserves hrec (fun _ => id) hloop
        · obtain ⟨⟨rc, st₃⟩, hloop, heq⟩ := Option.map_eq_some_iff.mp h
          cases heq
          exact sequenceLoop_conserves hrec (fun _ => id) (fun _ => id) hloop
        all_goals
          cases h
          exact .refl _

end Loops

/-- Every call of the parser on a nested ENTRY or on a level of the path conserves the
arguments. -/
theorem parseArg_conserves {fuel : ℕ} {e : EntryId} {st st' : ArgState} {status : KpargvStatus}
    (h : parseArg scheme V isFilter fuel false e st = some (status, st')) :
    Conserves scheme V isFilter st st' := by
  induction fuel generalizing e st status st' with
  | zero => simp [parseArg] at h
  | succ fuel ih =>
    rw [parseArg] at h
    exact parseBody_conserves ⟨ih, fun hcall => ⟨fuel, _, _, hcall, rfl, rfl⟩⟩ h

section Line

variable {session session' : Ksession} {argv : FauxArgv} {purpose : KpargvPurpose} {fuel : ℕ}
  {pargv : Kpargv}

theorem levelsLoop_conserves {dontParseUpper : Bool} {levels : List EntryId}
    {pstatus : KpargvStatus} {st : ArgState} {levelFound : ℕ} {r : LevelsEnd}
    (h : levelsLoop scheme (parseArg scheme V isFilter fuel false) dontParseUpper levels pstatus st
      levelFound = some r) :
    Conserves scheme V isFilter st r.st := by
  induction levels generalizing pstatus st levelFound with
  | nil =>
    cases h
    exact .refl _
  | cons e levels ih =>
    by_cases hp : scheme.purpose e = .common
    · cases hcall : parseArg scheme V isFilter fuel false e st with
      | none => simp [levelsLoop, hp, hcall] at h
      | some q =>
        have hcons := parseArg_conserves hcall
        rw [levelsLoop_common scheme hp hcall] at h
        split at h
        · cases h
          exact hcons
        · exact hcons.trans (ih h)
    · rw [levelsLoop_skip scheme hp] at h
      exact ih h

theorem parseLevels_conserves {r : LevelsEnd}
    (h : parseLevels scheme V session argv purpose isFilter fuel = some r) :
    Conserves scheme V isFilter (initialState session argv purpose) r.st :=
  levelsLoop_conserves h

/-- The command of a parsed line. -/
theorem parseLevels_command {r : LevelsEnd}
    (h : parseLevels scheme V session argv purpose isFilter fuel = some r) :
    r.st.pargv.command = lastCommand scheme r.st.pargv.pargs :=
  (parseLevels_conserves h).command rfl

/-- Every call appends exactly the arguments of the words it passes, whatever it returns. No
validation leaves a candidate behind, and the command of a parsed line is the ENTRY of its
last word argument that has ACTIONs. -/
theorem parse_conserves_arguments (scheme : Kscheme) (V : Oracle) (isFilter : Bool) (fuel : ℕ) :
    (∀ e st status st', parseArg scheme V isFilter fuel false e st = some (status, st') →
      ∃ added words, st'.pargv.pargs = st.pargv.pargs ++ added ∧ st.iter = words ++ st'.iter ∧
        Added scheme V isFilter st.pargv.pargs added words) ∧
    (∀ e word st, (tryCandidate scheme V e word st).2.pargv.candidateParg = none) ∧
    (∀ session argv purpose pargv session',
      parseLine scheme V session argv purpose isFilter fuel = some (pargv, session') →
        pargv.candidateParg = none ∧ pargv.command = lastCommand scheme pargv.pargs) ∧
    (∀ session argv purpose r,
      parseLevels scheme V session argv purpose isFilter fuel = some r →
        r.pstatus = .ok → r.st.iter = [] →
          (r.pargv.status = .noaction ↔ ∀ parg ∈ r.pargv.pargs,
            scheme.container parg.entry = false → scheme.actions parg.entry = [])) := by
  refine ⟨fun e st status st' h => (parseArg_conserves h).added,
    tryCandidate_candidateParg scheme V, ?_, ?_⟩
  · intro session argv purpose pargv session' h
    obtain ⟨r, hr, rfl, -⟩ := parseLine_eq_some.mp h
    exact ⟨(parseLevels_conserves hr).candidate rfl, parseLevels_command hr⟩
  · intro session argv purpose r hr hok hiter
    rw [← lastCommand_eq_none_iff, show r.pargv.pargs = r.st.pargv.pargs from rfl,
      ← parseLevels_command hr]
    cases hcmd : r.st.pargv.command <;> simp [LevelsEnd.pargv, lineStatus, hok, hiter, hcmd]

end Line

def sampleEntry : EntryId → Kentry
  | 0 => { Kentry.new "view" 0 with container := true, mode := .switch }
  | 1 => { Kentry.new "pair" 1 with container := true }
  | 2 => Kentry.new "x" 2
  | 3 => Kentry.new "a" 3
  | 4 => Kentry.new "b" 4
  | n => { Kentry.new "__ptype" n with purpose := .ptype }

def sampleBody : BodyId → Kbody
  | 0 => { Kbody.new with entrys := [1, 2] }
  | 1 => { Kbody.new with entrys := [3, 4] }
  | 2 => ⟨[5], [.new], [], fun purpose => if purpose = .ptype then some 5 else none⟩
  | 3 => ⟨[6], [], [], fun purpose => if purpose = .ptype then some 6 else none⟩
  | 4 => ⟨[8], [.new], [], fun purpose => if purpose = .ptype then some 8 else none⟩
  | _ => Kbody.new

/-- A view with the choice between the sequence `a b` and the word `x`. -/
def sampleScheme : Kscheme := ⟨[], [0], sampleEntry, sampleBody⟩

/-- The PTYPE of each COMMAND accepts the name of the ENTRY. -/
def commandPtype (entry : EntryId → Kentry) : Oracle := fun _ _ candidate =>
  ⟨true, if candidate.any (fun parg => parg.value == some (entry parg.entry).name) then 0 else 1,
    none, false⟩

/-- A session of a client without a terminal. -/
def sampleSession (levels : List EntryId) (h : levels.length ≤ sizeMax) : Ksession where
  path := ⟨levels, h⟩
  done := false
  isattyStdin := false
  isattyStdout := false
  isattyStderr := false
  termWidth := 80
  termHeight := 25

/-- A session in the view 0. -/
def sampleRoot : Ksession := sampleSession [0] (by decide)

/-- The line `a b`: the call on the sequence, a candidate for its first word, the line, and the
loop over the levels. -/
theorem parse_conserves_arguments_sample :
    (∃ status st', parseArg sampleScheme (commandPtype sampleEntry) false 5 false 1
        ⟨["a", "b"], .new, false⟩ = some (status, st') ∧ ∃ added words, st'.pargv.pargs = [] ++ added ∧
      ["a", "b"] = words ++ st'.iter ∧
      Added sampleScheme (commandPtype sampleEntry) false [] added words) ∧
    (tryCandidate sampleScheme (commandPtype sampleEntry) 3 "a"
      ⟨["a", "b"], .new, false⟩).2.pargv.candidateParg = none ∧
    (∃ pargv session', parseLine sampleScheme (commandPtype sampleEntry)
        sampleRoot ⟨["a", "b"], false⟩ .exec false 5 = some (pargv, session') ∧
      pargv.candidateParg = none ∧ pargv.command = lastCommand sampleScheme pargv.pargs) ∧
    ∃ r, parseLevels sampleScheme (commandPtype sampleEntry) sampleRoot ⟨["a", "b"], false⟩ .exec
        false 5 = some r ∧
      (r.pargv.status = .noaction ↔ ∀ parg ∈ r.pargv.pargs,
        sampleScheme.container parg.entry = false → sampleScheme.actions parg.entry = []) := by
  obtain ⟨hcall, hcandidate, hline, hlevels⟩ :=
    parse_conserves_arguments sampleScheme (commandPtype sampleEntry) false 5
  refine ⟨?_, hcandidate 3 "a" _, ?_, ?_⟩
  · have hrun : (parseArg sampleScheme (commandPtype sampleEntry) false 5 false 1
        ⟨["a", "b"], .new, false⟩).isSome = true := by decide
    obtain ⟨⟨status, st'⟩, hparse⟩ := Option.isSome_iff_exists.mp hrun
    exact ⟨status, st', hparse, hcall 1 _ status st' hparse⟩
  · have hrun : (parseLine sampleScheme (commandPtype sampleEntry) sampleRoot
        ⟨["a", "b"], false⟩ .exec false 5).isSome = true := by decide
    obtain ⟨⟨pargv, session'⟩, hparse⟩ := Option.isSome_iff_exists.mp hrun
    exact ⟨pargv, session', hparse, hline _ _ _ _ _ hparse⟩
  · have hrun : (parseLevels sampleScheme (commandPtype sampleEntry) sampleRoot
        ⟨["a", "b"], false⟩ .exec false 5).any
          (fun r => r.pstatus == .ok && r.st.iter.isEmpty) = true := by decide
    obtain ⟨r, hparse, hr⟩ := (Option.any_eq_true _ _).mp hrun
    obtain ⟨hok, hiter⟩ := Bool.and_eq_true_iff.mp hr
    exact ⟨r, hparse, hlevels _ _ _ r hparse (by simpa using hok) (by simpa using hiter)⟩

end Klish.Ksession
