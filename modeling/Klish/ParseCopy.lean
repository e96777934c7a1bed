import Klish.ParseConservation
import Mathlib.Data.List.Nodup

/-!
# Parsing over a copy of a scheme

One scheme mirrors another one if each of its ENTRYs has the attributes and the lists of its image.
Several ENTRYs may have one image, as the copies of an ENTRY that links share. A line is parsed in
the same way over both.
-/

namespace Klish

section Rename

variable (φ : EntryId → EntryId)

def Kparg.rename (parg : Kparg) : Kparg := { parg with entry := φ parg.entry }

def Kpargv.rename (pargv : Kpargv) : Kpargv :=
  { pargv with
    pargs := pargv.pargs.map (Kparg.rename φ)
    completions := pargv.completions.map φ
    command := pargv.command.map φ
    candidateParg := pargv.candidateParg.map (Kparg.rename φ) }

def ArgState.rename (st : ArgState) : ArgState := { st with pargv := st.pargv.rename φ }

theorem ArgState.rename_addPargs (st : ArgState) (e : EntryId) (value : Option String) :
    (st.addPargs ⟨e, value⟩).rename φ = (st.rename φ).addPargs ⟨φ e, value⟩ := by
  simp [ArgState.addPargs, ArgState.rename, Kpargv.rename, Kpargv.addPargs, Kparg.rename]

theorem ArgState.rename_setCandidateParg (st : ArgState) (e : EntryId) (value : Option String) :
    (st.setCandidateParg ⟨e, value⟩).rename φ = (st.rename φ).setCandidateParg ⟨φ e, value⟩ := rfl

theorem ArgState.rename_setCommand (st : ArgState) (e : EntryId) :
    (st.setCommand e).rename φ = (st.rename φ).setCommand (φ e) := rfl

theorem Kpargv.rename_acceptCandidateParg (pargv : Kpargv) :
    pargv.acceptCandidateParg.rename φ = (pargv.rename φ).acceptCandidateParg := by
  unfold acceptCandidateParg
  cases hparg : pargv.candidateParg with
  | none => simp [rename, hparg]
  | some parg => simp [rename, hparg, addPargs]

end Rename

/-- The attributes of an ENTRY, without its place in the scheme. -/
def Kentry.record (entry : Kentry) : Kentry :=
  { entry with parent := none, refStr := none, body := 0 }

/-- What a service ACTION may look at in an ENTRY. -/
structure KentryAttributes where
  name : String
  value : Option String
  help : Option String
  mode : KentryMode
  actions : List Kaction

namespace Kscheme

def attributes (scheme : Kscheme) (e : EntryId) : KentryAttributes where
  name := (scheme.entry e).name
  value := (scheme.entry e).value
  help := (scheme.entry e).help
  mode := (scheme.entry e).mode
  actions := scheme.actions e

/-- Each ENTRY of a set has the attributes and the lists of its image. -/
structure Mirrors (φ : EntryId → EntryId) (D : EntryId → Prop) (X S : Kscheme) : Prop where
  record : ∀ i, D i → (S.entry (φ i)).record = (X.entry i).record
  actions : ∀ i, D i → S.actions (φ i) = X.actions i
  nested : ∀ i, D i → S.nested (φ i) = (X.nested i).map φ
  nodup : ∀ i, D i → (S.nested (φ i)).Nodup
  closed : ∀ i, D i → ∀ n ∈ X.nested i, D n
  slot : ∀ i p, D i → p ≠ .log → S.nestedByPurpose (φ i) p = (X.nestedByPurpose i p).map φ
  slotMem : ∀ i p n, D i → p ≠ .log → X.nestedByPurpose i p = some n → D n

end Kscheme

/-- The service ACTIONs, as a function of the attributes of the ENTRYs. -/
abbrev AttributeOracle := KentryAttributes → List (KentryAttributes × Option String) →
  Option (KentryAttributes × Option String) → LocalExec

def AttributeOracle.oracle (W : AttributeOracle) (scheme : Kscheme) : Oracle :=
  fun e pargs candidate =>
    W (scheme.attributes e)
      (pargs.map fun parg => (scheme.attributes parg.entry, parg.value))
      (candidate.map fun parg => (scheme.attributes parg.entry, parg.value))

/-- The state names ENTRYs of the set only. -/
structure ArgState.Within (D : EntryId → Prop) (st : ArgState) : Prop where
  pargs : ∀ parg ∈ st.pargv.pargs, D parg.entry
  completions : ∀ e ∈ st.pargv.completions, D e
  candidate : ∀ parg ∈ st.pargv.candidateParg, D parg.entry

theorem ArgState.Within.addPargs {D : EntryId → Prop} {st : ArgState} {i : EntryId}
    (h : st.Within D) (hi : D i) (value : Option String) :
    (st.addPargs ⟨i, value⟩).Within D where
  pargs parg hparg := by
    rcases List.mem_append.mp hparg with hparg | hparg
    · exact h.pargs parg hparg
    · rw [List.mem_singleton.mp hparg]
      exact hi
  completions := h.completions
  candidate := h.candidate

namespace Ksession

open Kscheme

variable {φ : EntryId → EntryId} {D : EntryId → Prop} {X S : Kscheme} {W : AttributeOracle}
  {i : EntryId} {st : ArgState}

/-- Two returns of the parser, the second over the images. -/
def Renamed (φ : EntryId → EntryId) (D : EntryId → Prop)
    (r r' : Option (KpargvStatus × ArgState)) : Prop :=
  r' = r.map (fun q => (q.1, q.2.rename φ)) ∧ ∀ q ∈ r, q.2.Within D

theorem renamed_some (status : KpargvStatus) (h : st.Within D) :
    Renamed φ D (some (status, st)) (some (status, st.rename φ)) := by
  refine ⟨rfl, fun q hq => ?_⟩
  cases hq
  exact h

theorem renamed_none : Renamed φ D none none :=
  ⟨rfl, fun _ h => absurd h (Option.not_mem_none _)⟩

variable (hM : Mirrors φ D X S)
include hM

theorem attributes_image (hi : D i) : S.attributes (φ i) = X.attributes i := by
  have hrecord := hM.record i hi
  unfold Kscheme.attributes
  rw [hM.actions i hi]
  have hname := congrArg Kentry.name hrecord
  have hvalue := congrArg Kentry.value hrecord
  have hhelp := congrArg Kentry.help hrecord
  have hmode := congrArg Kentry.mode hrecord
  simp only [Kentry.record] at hname hvalue hhelp hmode
  rw [hname, hvalue, hhelp, hmode]

theorem name_image (hi : D i) : S.name (φ i) = X.name i := by
  have hname := congrArg Kentry.name (hM.record i hi)
  exact hname

theorem purpose_image (hi : D i) : S.purpose (φ i) = X.purpose i := by
  have hpurpose := congrArg Kentry.purpose (hM.record i hi)
  exact hpurpose

theorem container_image (hi : D i) : S.container (φ i) = X.container i := by
  have hcontainer := congrArg Kentry.container (hM.record i hi)
  exact hcontainer

/-- The service ACTIONs see the same. -/
theorem oracle_image {pargs : List Kparg} {candidate : Option Kparg} (hi : D i)
    (hpargs : ∀ parg ∈ pargs, D parg.entry) (hcandidate : ∀ parg ∈ candidate, D parg.entry) :
    W.oracle S (φ i) (pargs.map (Kparg.rename φ)) (candidate.map (Kparg.rename φ)) =
      W.oracle X i pargs candidate := by
  have hparg : ∀ parg : Kparg, D parg.entry →
      (S.attributes (parg.rename φ).entry, (parg.rename φ).value) =
        (X.attributes parg.entry, parg.value) := by
    intro parg hparg
    exact congrArg (·, parg.value) (attributes_image hM hparg)
  unfold AttributeOracle.oracle
  rw [attributes_image hM hi, List.map_map, Option.map_map]
  congr 1
  · exact List.map_congr_left fun parg hmem => hparg parg (hpargs parg hmem)
  · cases candidate with
    | none => rfl
    | some parg => exact congrArg some (hparg parg (hcandidate parg rfl))

theorem testCond_image (hi : D i) (hst : st.Within D) :
    testCond S (W.oracle S) (φ i) (st.rename φ) =
        ((testCond X (W.oracle X) i st).1, (testCond X (W.oracle X) i st).2.rename φ) ∧
      (testCond X (W.oracle X) i st).2.Within D := by
  unfold testCond
  rw [hM.slot i .cond hi (by decide)]
  cases hcond : X.nestedByPurpose i .cond with
  | none => exact ⟨rfl, hst⟩
  | some cond =>
    have hmem : D cond := hM.slotMem i .cond cond hi (by decide) hcond
    have hres := oracle_image (W := W) hM hmem hst.pargs hst.candidate
    dsimp only [Option.map_some]
    have hview : (st.rename φ).pargv.pargs = st.pargv.pargs.map (Kparg.rename φ) ∧
        (st.rename φ).pargv.candidateParg = st.pargv.candidateParg.map (Kparg.rename φ) :=
      ⟨rfl, rfl⟩
    rw [hview.1, hview.2, hres]
    exact ⟨rfl, hst.pargs, hst.completions, hst.candidate⟩

theorem validateArg_image (hst : st.Within D) :
    validateArg S (W.oracle S) (st.rename φ) =
        ((validateArg X (W.oracle X) st).1, (validateArg X (W.oracle X) st).2.rename φ) ∧
      (validateArg X (W.oracle X) st).2.Within D := by
  unfold validateArg
  cases hcandidate : st.pargv.candidateParg with
  | none =>
    have hnone : (st.rename φ).pargv.candidateParg = none := congrArg (Option.map _) hcandidate
    rw [hnone]
    exact ⟨rfl, hst⟩
  | some candidate =>
    have hsome : (st.rename φ).pargv.candidateParg = some (candidate.rename φ) :=
      congrArg (Option.map _) hcandidate
    have hin : D candidate.entry := hst.candidate candidate hcandidate
    rw [hsome]
    dsimp only
    have hslot : S.nestedByPurpose (candidate.rename φ).entry .ptype =
        (X.nestedByPurpose candidate.entry .ptype).map φ :=
      hM.slot candidate.entry .ptype hin (by decide)
    rw [hslot]
    cases hptype : X.nestedByPurpose candidate.entry .ptype with
    | none => exact ⟨rfl, hst⟩
    | some ptype =>
      have hmem : D ptype := hM.slotMem candidate.entry .ptype ptype hin (by decide) hptype
      have hres := oracle_image (W := W) hM hmem hst.pargs
        (show ∀ parg ∈ some candidate, D parg.entry from fun parg hparg => by cases hparg; exact hin)
      have hview : (st.rename φ).pargv.pargs = st.pargv.pargs.map (Kparg.rename φ) := rfl
      dsimp only [Option.map_some] at hres ⊢
      rw [hview, hres]
      have hnoted : (st.noteStopped (W.oracle X ptype st.pargv.pargs (some candidate))).Within D :=
        ⟨hst.pargs, hst.completions, hst.candidate⟩
      split
      · exact ⟨rfl, hnoted⟩
      · split
        · exact ⟨rfl, hnoted⟩
        · split
          · exact ⟨rfl, hnoted⟩
          · refine ⟨rfl, hst.pargs, hst.completions, fun parg hparg => ?_⟩
            cases hparg
            exact hin

theorem tryCandidate_image (hi : D i) (arg : String) (hst : st.Within D) :
    tryCandidate S (W.oracle S) (φ i) arg (st.rename φ) =
        ((tryCandidate X (W.oracle X) i arg st).1,
          (tryCandidate X (W.oracle X) i arg st).2.rename φ) ∧
      (tryCandidate X (W.oracle X) i arg st).2.Within D := by
  have hset : (st.setCandidateParg ⟨i, some arg⟩).Within D := by
    refine ⟨hst.pargs, hst.completions, fun parg hparg => ?_⟩
    cases hparg
    exact hi
  obtain ⟨hvalidate, hwithin⟩ := validateArg_image (W := W) hM hset
  unfold tryCandidate
  rw [← ArgState.rename_setCandidateParg, hvalidate]
  rcases hres : validateArg X (W.oracle X) (st.setCandidateParg ⟨i, some arg⟩) with ⟨ok, st₁⟩
  rw [hres] at hwithin
  cases ok with
  | true =>
    refine ⟨?_, ?_⟩
    · dsimp only
      unfold ArgState.rename
      rw [Kpargv.rename_acceptCandidateParg]
    · dsimp only
      unfold Kpargv.acceptCandidateParg
      split
      · exact hwithin
      · rename_i parg hparg
        have haccepted := hwithin.addPargs (hwithin.candidate parg hparg) parg.value
        exact ⟨haccepted.pargs, hwithin.completions, fun _ h => nomatch h⟩
  | false =>
    refine ⟨rfl, ?_⟩
    exact ⟨hwithin.pargs, hwithin.completions, fun _ h => nomatch h⟩

theorem isHinted_image (hi : D i) (isFilter : Bool) (pargv : Kpargv) :
    isHinted S isFilter (φ i) (pargv.rename φ) = isHinted X isFilter i pargv := by
  have hfilter := congrArg Kentry.filter (hM.record i hi)
  simp only [Kentry.record] at hfilter
  unfold isHinted
  rw [hfilter]
  simp [Kpargv.rename]

theorem addCompletions_image (hi : D i) (hst : st.Within D) :
    (st.rename φ).addCompletions S (φ i) = (st.addCompletions X i).rename φ ∧
      (st.addCompletions X i).Within D := by
  have hany : ((st.pargv.completions.map φ).any fun c => S.name c == S.name (φ i)) =
      st.pargv.completions.any fun c => X.name c == X.name i := by
    have hname : ∀ c ∈ st.pargv.completions, S.name (φ c) = X.name c :=
      fun c hc => name_image hM (hst.completions c hc)
    rw [List.any_map, name_image hM hi, Bool.eq_iff_iff, List.any_eq_true, List.any_eq_true]
    constructor
    · rintro ⟨c, hc, hsame⟩
      exact ⟨c, hc, hname c hc ▸ hsame⟩
    · rintro ⟨c, hc, hsame⟩
      refine ⟨c, hc, ?_⟩
      dsimp only [Function.comp]
      rwa [hname c hc]
  unfold ArgState.addCompletions Kpargv.addCompletions
  have hview : (st.rename φ).pargv.completions = st.pargv.completions.map φ := rfl
  rw [hview, hany]
  split
  · exact ⟨rfl, hst⟩
  · refine ⟨?_, hst.pargs, fun c hc => ?_, hst.candidate⟩
    · simp [ArgState.rename, Kpargv.rename]
    · rcases List.mem_append.mp hc with hc | hc
      · exact hst.completions c hc
      · rw [List.mem_singleton.mp hc]
        exact hi

def SelfResult.rename (φ : EntryId → EntryId) : SelfResult → SelfResult
  | .ret status st => .ret status (st.rename φ)
  | .cont retcode st => .cont retcode (st.rename φ)

theorem resolveSelf_image (hi : D i) (isFilter entryIsCommand : Bool) (hst : st.Within D) :
    resolveSelf S (W.oracle S) isFilter entryIsCommand (φ i) (st.rename φ) =
        (resolveSelf X (W.oracle X) isFilter entryIsCommand i st).rename φ ∧
      (resolveSelf X (W.oracle X) isFilter entryIsCommand i st).state.Within D := by
  unfold resolveSelf
  rw [hM.actions i hi, container_image hM hi]
  split
  · split
    · exact ⟨rfl, hst⟩
    · refine ⟨?_, ?_⟩
      · rw [SelfResult.rename, ArgState.rename_setCommand, ArgState.rename_addPargs]
      · have hadded := hst.addPargs hi none
        exact ⟨hadded.pargs, hadded.completions, hadded.candidate⟩
  · split
    · exact ⟨rfl, hst⟩
    · have hhinted : isHinted S isFilter (φ i) (st.rename φ).pargv = isHinted X isFilter i st.pargv :=
        isHinted_image hM hi isFilter st.pargv
      have hiter : (st.rename φ).iter = st.iter := rfl
      have hcontinuable : (st.rename φ).pargv.continuable = st.pargv.continuable := rfl
      obtain ⟨hcompletion, hcompletions⟩ := addCompletions_image hM hi hst
      dsimp only
      rw [hhinted, hiter, hcontinuable]
      cases st.iter with
      | nil =>
        dsimp only
        split
        · rw [hcompletion]
          exact ⟨rfl, hcompletions⟩
        · exact ⟨rfl, hst⟩
      | cons arg rest =>
        dsimp only
        split
        · rw [hcompletion]
          exact ⟨rfl, hcompletions⟩
        · obtain ⟨htry, hwithin⟩ := tryCandidate_image (W := W) hM hi arg hst
          rw [htry]
          rcases htried : tryCandidate X (W.oracle X) i arg st with ⟨ok, st₁⟩
          rw [htried] at hwithin
          cases ok with
          | false => exact ⟨rfl, hwithin⟩
          | true =>
            dsimp only
            split
            · exact ⟨rfl, hwithin.pargs, hwithin.completions, hwithin.candidate⟩
            · exact ⟨rfl, hwithin.pargs, hwithin.completions, hwithin.candidate⟩

section Loops

variable {rec rec' : ParseFn}
  (hrec : ∀ n, D n → ∀ st : ArgState, st.Within D →
    Renamed φ D (rec n st) (rec' (φ n) (st.rename φ)))
include hrec

theorem switchLoop_image (hi : D i) {iter : List EntryId} (hsub : ∀ n ∈ iter, n ∈ X.nested i)
    (rc : KpargvStatus) (hst : st.Within D) :
    Renamed φ D (switchLoop X rec i iter rc st)
      (switchLoop S rec' (φ i) (iter.map φ) rc (st.rename φ)) := by
  induction iter generalizing rc st with
  | nil => exact renamed_some rc hst
  | cons n iter ih =>
    have hn : D n := hM.closed i hi n (hsub n List.mem_cons_self)
    have hsub' : ∀ m ∈ iter, m ∈ X.nested i := fun m hm => hsub m (List.mem_cons_of_mem _ hm)
    rw [List.map_cons, switchLoop, switchLoop, purpose_image hM hn]
    split
    · exact ih hsub' rc hst
    · obtain ⟨hcall, hwithin⟩ := hrec n hn st hst
      rw [hcall]
      cases hres : rec n st with
      | none => exact renamed_none
      | some q =>
        obtain ⟨res, st₁⟩ := q
        have hst₁ : st₁.Within D := hwithin _ hres
        have hkept : (if res = .ok ∧ X.container i = true then
            st₁.addPargs ⟨i, some (X.name n)⟩ else st₁).Within D := by
          split
          · exact hst₁.addPargs hi _
          · exact hst₁
        have hsame : (if res = .ok ∧ X.container i = true then
              (st₁.rename φ).addPargs ⟨φ i, some (X.name n)⟩ else st₁.rename φ) =
            (if res = .ok ∧ X.container i = true then
              st₁.addPargs ⟨i, some (X.name n)⟩ else st₁).rename φ := by
          split
          · rw [ArgState.rename_addPargs]
          · rfl
        dsimp only [Option.map_some]
        rw [container_image hM hi, name_image hM hn, hsame]
        split
        · exact renamed_some _ hkept
        · exact ih hsub' _ hkept

omit hM in
theorem occursLoop_image {n : EntryId} (hn : D n) (min left num : ℕ) (rc : KpargvStatus)
    (consumed : Bool) (hst : st.Within D) :
    occursLoop rec' (φ n) min left num rc consumed (st.rename φ) =
        (occursLoop rec n min left num rc consumed st).map
          (fun occ => { occ with st := occ.st.rename φ }) ∧
      ∀ occ ∈ occursLoop rec n min left num rc consumed st, occ.st.Within D := by
  induction left generalizing num rc consumed st with
  | zero =>
    refine ⟨rfl, fun occ hocc => ?_⟩
    cases hocc
    exact hst
  | succ left ih =>
    obtain ⟨hcall, hwithin⟩ := hrec n hn st hst
    rw [occursLoop, occursLoop, hcall]
    cases hres : rec n st with
    | none => exact ⟨rfl, fun _ h => absurd h (Option.not_mem_none _)⟩
    | some q =>
      obtain ⟨res, st₁⟩ := q
      have hst₁ : st₁.Within D := hwithin _ hres
      dsimp only [Option.map_some]
      split
      · refine ⟨rfl, fun occ hocc => ?_⟩
        cases hocc
        exact hst₁
      · split
        · refine ⟨rfl, fun occ hocc => ?_⟩
          cases hocc
          exact hst₁
        · exact ih (num + 1) res true hst₁

omit hrec in
/-- The copies in one list have images of their own. -/
theorem entryExists_image (hi : D i) {n : EntryId} (hn : n ∈ X.nested i) {cur : Kpargv}
    (hcur : ∀ parg ∈ cur.pargs, parg.entry ∈ X.nested i) :
    (cur.rename φ).entryExists (φ n) = cur.entryExists n := by
  have hnodup : ((X.nested i).map φ).Nodup := hM.nested i hi ▸ hM.nodup i hi
  unfold Kpargv.entryExists Kpargv.rename
  rw [List.any_map, Bool.eq_iff_iff, List.any_eq_true, List.any_eq_true]
  constructor
  · rintro ⟨parg, hparg, hsame⟩
    have himage : φ parg.entry = φ n := by simpa [Kparg.rename] using hsame
    refine ⟨parg, hparg, ?_⟩
    rw [List.inj_on_of_nodup_map hnodup (hcur parg hparg) hn himage]
    exact beq_self_eq_true n
  · rintro ⟨parg, hparg, hsame⟩
    have heq : parg.entry = n := by simpa using hsame
    refine ⟨parg, hparg, ?_⟩
    simp [Kparg.rename, heq]

theorem sequenceLoop_image (hi : D i) (fuel : ℕ) {iter savedIter : List EntryId}
    (hsub : ∀ n ∈ iter, n ∈ X.nested i) (hsaved : ∀ n ∈ savedIter, n ∈ X.nested i) {cur : Kpargv}
    (hcur : ∀ parg ∈ cur.pargs, parg.entry ∈ X.nested i) (rc : KpargvStatus)
    (hst : st.Within D) :
    Renamed φ D (sequenceLoop X rec i fuel iter savedIter cur rc st)
      (sequenceLoop S rec' (φ i) fuel (iter.map φ) (savedIter.map φ) (cur.rename φ) rc
        (st.rename φ)) := by
  induction fuel generalizing iter savedIter cur rc st with
  | zero => exact renamed_none
  | succ fuel ih =>
    cases iter with
    | nil => exact renamed_some rc hst
    | cons n iter =>
      have hmem : n ∈ X.nested i := hsub n List.mem_cons_self
      have hn : D n := hM.closed i hi n hmem
      have hsub' : ∀ m ∈ iter, m ∈ X.nested i := fun m hm => hsub m (List.mem_cons_of_mem _ hm)
      have hmin := congrArg Kentry.min (hM.record n hn)
      have hmax := congrArg Kentry.max (hM.record n hn)
      have horder := congrArg Kentry.order (hM.record n hn)
      simp only [Kentry.record] at hmin hmax horder
      rw [List.map_cons, sequenceLoop, sequenceLoop]
      dsimp only
      rw [purpose_image hM hn, entryExists_image hM hi hmem hcur, hmin, hmax, horder,
        container_image hM hi, name_image hM hn]
      split
      · exact ih hsub' hsaved hcur rc hst
      split
      · exact ih hsub' hsaved hcur rc hst
      obtain ⟨hoccurs, hwithin⟩ := occursLoop_image hrec hn (X.entry n).min (X.entry n).max 0 rc
        false hst
      rw [hoccurs]
      cases hocc : occursLoop rec n (X.entry n).min (X.entry n).max 0 rc false st with
      | none => exact renamed_none
      | some occ =>
        have hocc' : occ.st.Within D := hwithin occ hocc
        dsimp only [Option.map_some]
        split
        · exact renamed_some _ hocc'
        split
        · -- The lists that the iterator may go back to are renamed alike.
          have hkept : (if X.container i = true then
              occ.st.addPargs ⟨i, some (X.name n)⟩ else occ.st).Within D := by
            split
            · exact hocc'.addPargs hi _
            · exact hocc'
          have hsame : (if X.container i = true then
                (occ.st.rename φ).addPargs ⟨φ i, some (X.name n)⟩ else occ.st.rename φ) =
              (if X.container i = true then
                occ.st.addPargs ⟨i, some (X.name n)⟩ else occ.st).rename φ := by
            split
            · rw [ArgState.rename_addPargs]
            · rfl
          have hcur' : ∀ parg ∈ (cur.addPargs ⟨n, none⟩).pargs, parg.entry ∈ X.nested i := by
            intro parg hparg
            rcases List.mem_append.mp hparg with hparg | hparg
            · exact hcur parg hparg
            · rw [List.mem_singleton.mp hparg]
              exact hmem
          have hrenamed : (cur.rename φ).addPargs ⟨φ n, none⟩ =
              (cur.addPargs ⟨n, none⟩).rename φ := by
            simp [Kpargv.addPargs, Kpargv.rename, Kparg.rename]
          rw [hsame, hrenamed, ← apply_ite (List.map φ), ← apply_ite (List.map φ)]
          apply ih
          · split
            · split
              · exact hsub'
              · exact hsaved
            · exact hsub'
          · split
            · exact hsub'
            · exact hsaved
          · exact hcur'
          · exact hkept
        · exact ih hsub' hsaved hcur _ hocc'

theorem parseNested_image (hi : D i) (fuel : ℕ) (retcode : KpargvStatus) (hst : st.Within D) :
    Renamed φ D (parseNested X rec i fuel retcode st)
      (parseNested S rec' (φ i) fuel retcode (st.rename φ)) := by
  have hcombine : ∀ {r r' : Option (KpargvStatus × ArgState)}, Renamed φ D r r' →
      Renamed φ D (r.map fun q => (combineStatus retcode q.1, q.2))
        (r'.map fun q => (combineStatus retcode q.1, q.2)) := by
    rintro r _ ⟨rfl, hwithin⟩
    refine ⟨?_, fun q hq => ?_⟩
    · rw [Option.map_map, Option.map_map]
      rfl
    · obtain ⟨q', hq', rfl⟩ := Option.map_eq_some_iff.mp hq
      exact hwithin q' hq'
  have hmode := congrArg Kentry.mode (hM.record i hi)
  simp only [Kentry.record] at hmode
  unfold parseNested
  rw [hmode, hM.nested i hi]
  cases (X.entry i).mode with
  | switch => exact hcombine (switchLoop_image hM hrec hi (fun _ => id) _ hst)
  | sequence =>
    have hnew : ∀ parg ∈ Kpargv.new.pargs, parg.entry ∈ X.nested i := by
      intro parg hparg
      cases hparg
    exact hcombine (sequenceLoop_image hM hrec hi fuel (fun _ => id) (fun _ => id) hnew _ hst)
  | empty => exact renamed_some _ hst
  | none => exact renamed_some _ hst

theorem parseBody_image (hi : D i) (fuel : ℕ) (isFilter entryIsCommand : Bool)
    (hst : st.Within D) :
    Renamed φ D (parseBody X (W.oracle X) rec i fuel isFilter entryIsCommand st)
      (parseBody S (W.oracle S) rec' (φ i) fuel isFilter entryIsCommand (st.rename φ)) := by
  obtain ⟨htest, hwithin⟩ := testCond_image (W := W) hM hi hst
  unfold parseBody
  rw [htest]
  rcases hcond : testCond X (W.oracle X) i st with ⟨holds, st₁⟩
  rw [hcond] at hwithin
  cases holds with
  | false => exact renamed_some _ hwithin
  | true =>
    obtain ⟨hself, hstate⟩ :=
      resolveSelf_image (W := W) hM hi isFilter entryIsCommand hwithin
    dsimp only at hself ⊢
    rw [hself]
    cases hres : resolveSelf X (W.oracle X) isFilter entryIsCommand i st₁ with
    | ret status st₂ =>
      rw [hres] at hstate
      exact renamed_some _ hstate
    | cont retcode st₂ =>
      rw [hres] at hstate
      have hempty : (S.nested (φ i)).isEmpty = (X.nested i).isEmpty := by
        rw [hM.nested i hi, List.isEmpty_map]
      dsimp only [SelfResult.rename]
      rw [hempty]
      split
      · exact renamed_some _ hstate
      · exact parseNested_image hM hrec hi fuel retcode hstate

end Loops

/-- A call on an ENTRY and on its image. -/
theorem parseArg_image (isFilter : Bool) (fuel : ℕ) (entryIsCommand : Bool) (hi : D i)
    (hst : st.Within D) :
    Renamed φ D (parseArg X (W.oracle X) isFilter fuel entryIsCommand i st)
      (parseArg S (W.oracle S) isFilter fuel entryIsCommand (φ i) (st.rename φ)) := by
  induction fuel generalizing entryIsCommand i st with
  | zero => exact renamed_none
  | succ fuel ih =>
    rw [parseArg, parseArg]
    exact parseBody_image hM (fun n hn st hst => ih false hn hst) hi fuel isFilter entryIsCommand hst

def LevelsEnd.rename (φ : EntryId → EntryId) (r : LevelsEnd) : LevelsEnd :=
  { r with st := r.st.rename φ }

theorem levelsLoop_image {rec rec' : ParseFn}
    (hrec : ∀ n, D n → ∀ st : ArgState, st.Within D →
      Renamed φ D (rec n st) (rec' (φ n) (st.rename φ)))
    (stop : Bool) {levels : List EntryId} (hlevels : ∀ e ∈ levels, D e) (pstatus : KpargvStatus)
    (hst : st.Within D) (levelFound : ℕ) :
    levelsLoop S rec' stop (levels.map φ) pstatus (st.rename φ) levelFound =
      (levelsLoop X rec stop levels pstatus st levelFound).map (LevelsEnd.rename φ) := by
  induction levels generalizing pstatus st levelFound with
  | nil => rfl
  | cons e levels ih =>
    have he : D e := hlevels e List.mem_cons_self
    have hrest : ∀ e ∈ levels, D e := fun e he => hlevels e (List.mem_cons_of_mem _ he)
    have htransparent := congrArg Kentry.transparent (hM.record e he)
    simp only [Kentry.record] at htransparent
    rw [List.map_cons, levelsLoop, levelsLoop, purpose_image hM he, htransparent]
    split
    · exact ih hrest pstatus hst levelFound
    · obtain ⟨hcall, hwithin⟩ := hrec e he st hst
      rw [hcall]
      cases hres : rec e st with
      | none => rfl
      | some q =>
        obtain ⟨status, st₁⟩ := q
        have hempty : (st₁.rename φ).pargv.pargs.isEmpty = st₁.pargv.pargs.isEmpty :=
          List.isEmpty_map
        dsimp only [Option.map_some]
        rw [hempty]
        split
        · rfl
        split
        · rfl
        split
        · rfl
        split
        · rfl
        exact ih hrest status (hwithin _ hres) (sizeDec levelFound)

/-- A line is parsed over a scheme as it is over its copy. -/
theorem parseLine_image {session session' : Ksession} (argv : FauxArgv) (purpose : KpargvPurpose)
    (isFilter : Bool) (fuel : ℕ) (hpath : session.path.levels = session'.path.levels.map φ)
    (hlevels : ∀ e ∈ session'.path.levels, D e) (hdone : session.done = session'.done) :
    parseLine S (W.oracle S) session argv purpose isFilter fuel =
      (parseLine X (W.oracle X) session' argv purpose isFilter fuel).map fun q =>
        (q.1.rename φ, { session with done := q.2.done }) := by
  have hinitial : initialState session argv purpose =
      (initialState session' argv purpose).rename φ := by
    unfold initialState
    rw [hdone]
    rfl
  have hwithin : (initialState session' argv purpose).Within D := by
    constructor
    · intro parg hparg
      cases hparg
    · intro e he
      cases he
    · intro parg hparg
      cases hparg
  have hlen : session.path.len = session'.path.len := by
    unfold Kpath.len
    rw [hpath, List.length_map]
  have hloop := levelsLoop_image hM
    (fun n hn st hst => parseArg_image (W := W) hM isFilter fuel false hn hst)
    (dontParseUpper argv purpose) 
    (fun e he => hlevels e (List.mem_reverse.mp he)) .none hwithin (sizeDec session'.path.len)
  unfold parseLine parseLevels
  rw [hinitial, hlen, hpath, ← List.map_reverse, hloop, Option.map_map, Option.map_map]
  congr 1
  funext r
  have hcommand : ((r.rename φ).st.pargv.command).isNone = r.st.pargv.command.isNone :=
    Option.isNone_map
  have hstatus : (r.rename φ).pargv = r.pargv.rename φ := by
    unfold LevelsEnd.pargv lineStatus
    rw [hcommand]
    rfl
  exact congrArg (·, { session with done := r.st.done }) hstatus

end Ksession

end Klish
