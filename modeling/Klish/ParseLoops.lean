import Klish.ParseCalls
import Klish.ParseGrammar

/-!
# The loops of the parser

What a SWITCH, the occurrences of one ENTRY and a SEQUENCE take off the line is derivable, if
this is so for the calls that the loops make.
-/

namespace Klish.Ksession

variable {scheme : Kscheme} {V : Oracle} {isFilter : Bool}

/-- The line is parsed to be executed and no validation is going on. -/
structure Executing (st : ArgState) : Prop where
  purpose : st.pargv.purpose = .exec
  candidate : st.pargv.candidateParg = none

theorem Conserves.executing {st st' : ArgState} (h : Conserves scheme V isFilter st st')
    (hst : Executing st) : Executing st' :=
  ⟨h.purpose.trans hst.purpose, h.candidate hst.candidate⟩

section Loops

variable {rec : ParseFn} {e : EntryId}

/-- The boundary a repetition has reached. -/
theorem MatchRepeat.boundary {n : EntryId} {p p' : List Kparg} {w w' : List String} {count : ℕ}
    {inner : List (List Kparg)} (h : MatchRepeat scheme V n p w count inner p' w') :
    p' = p ∨ p' ∈ inner := by
  cases h with
  | zero => exact .inl rfl
  | succ => simp

theorem MatchRepeat.of_zero {n : EntryId} {p p' : List Kparg} {w w' : List String}
    {inner : List (List Kparg)} (h : MatchRepeat scheme V n p w 0 inner p' w') :
    p' = p ∧ w' = w ∧ inner = [] := by
  cases h
  exact ⟨rfl, rfl, rfl⟩

variable (scheme V) in
/-- How the loop over the occurrences ends when it does not break: it has come to 'max', or
satisfied 'min', or the ENTRY may be left out there. -/
structure OccursDone (nested : EntryId) (min left num : ℕ) (rc : KpargvStatus) (p : List Kparg)
    (w : List String) (calls : List ParseCall) (occ : Occurs) : Prop where
  repeated : ∃ inner, MatchRepeat scheme V nested p w occ.num inner occ.st.pargv.pargs occ.st.iter ∧
    ∀ call ∈ calls, call.st.pargv.pargs = p ∨ call.st.pargv.pargs ∈ inner
  consumed : occ.consumed = true ↔ 0 < occ.num
  rc : occ.rc = if 0 < occ.num then .ok else rc
  lower : num ≤ occ.num
  upper : occ.num ≤ num + left
  stopped : occ.num = num + left ∨ min ≤ occ.num ∨ Nullable scheme V nested occ.st.pargv.pargs

variable (scheme V rec) in
/-- How a turn of a SEQUENCE ends that does not break the loop. -/
abbrev TurnDone (rc : KpargvStatus) (turn : SequenceTurn) : Prop :=
  OccursDone scheme V turn.entry (scheme.entry turn.entry).min (scheme.entry turn.entry).max 0 rc
    turn.st.pargv.pargs turn.st.iter (turnCalls scheme rec turn) turn.occ

/-- A turn stands at the boundaries of its occurrences. -/
theorem turnPlaces_spec {rc : KpargvStatus} {turn : SequenceTurn}
    (h : TurnDone scheme V rec rc turn) : ∃ inner,
      MatchRepeat scheme V turn.entry turn.st.pargv.pargs turn.st.iter turn.occ.num inner
        turn.occ.st.pargv.pargs turn.occ.st.iter ∧
      ∀ pargs ∈ turnPlaces scheme rec turn, pargs = turn.st.pargv.pargs ∨ pargs ∈ inner := by
  obtain ⟨inner, hrep, hcalls⟩ := h.repeated
  refine ⟨inner, hrep, fun pargs hmem => ?_⟩
  rcases List.mem_append.mp hmem with hmem | hmem
  · obtain ⟨call, hcall, rfl⟩ := List.mem_map.mp hmem
    exact hcalls call hcall
  · rw [List.mem_singleton.mp hmem]
    exact hrep.boundary

/-- A turn that is not stopped short has enough occurrences, or the ENTRY may be left out there. -/
theorem TurnDone.enough {rc : KpargvStatus} {turn : SequenceTurn}
    (h : TurnDone scheme V rec rc turn) (hbreak : turn.occ.breakLoop = false)
    (hshort : stopsShort scheme turn = false) : (scheme.entry turn.entry).min ≤ turn.occ.num ∨
      Nullable scheme V turn.entry turn.occ.st.pargv.pargs := by
  rcases h.stopped with hend | hend
  · left
    have hmax : turn.occ.num = (scheme.entry turn.entry).max := by omega
    simpa [stopsShort, hbreak, hmax] using hshort
  · exact hend

variable (scheme V) in
/-- The ENTRY has occurred often enough, or it could be left out when it was tried. -/
def Enough (n : EntryId) (groups : List Group) (tried : List (List Kparg)) : Prop :=
  (∃ g ∈ groups, g.entry = n ∧ (scheme.entry n).min ≤ g.count) ∨
    ∃ pargs ∈ tried, Nullable scheme V n pargs

theorem Enough.mono {n : EntryId} {groups groups' : List Group} {tried tried' : List (List Kparg)}
    (h : Enough scheme V n groups tried) (hg : groups ⊆ groups') (ht : tried ⊆ tried') :
    Enough scheme V n groups' tried' := by
  rcases h with ⟨g, hmem, hrest⟩ | ⟨pargs, hmem, hnull⟩
  · exact .inl ⟨g, hg hmem, hrest⟩
  · exact .inr ⟨pargs, ht hmem, hnull⟩

variable (scheme V) in
/-- The state of the loop over the nested ENTRYs of a SEQUENCE, entered with `p` and `w`. The
iterators stand at the declarations number `i` and `s`. The ENTRYs of `short` may have too few
occurrences. -/
structure SequenceInv (short : EntryId → Prop) (e : EntryId) (p : List Kparg) (w : List String)
    (i s : ℕ) (cur : Kpargv) (rc : KpargvStatus) (st : ArgState) (groups : List Group)
    (tried : List (List Kparg)) : Prop where
  executing : Executing st
  matched : MatchGroups scheme V e p w groups tried st.pargv.pargs st.iter
  here : st.pargv.pargs ∈ tried
  saved_le : s ≤ i
  declared : ∀ g ∈ groups, (scheme.nested e)[g.pos]? = some g.entry ∧
    scheme.purpose g.entry = .common
  counted : ∀ g ∈ groups, 0 < g.count ∧ g.count ≤ (scheme.entry g.entry).max
  entered : ∀ n, cur.entryExists n = true ↔ ∃ g ∈ groups, g.entry = n
  nodup : (groups.map Group.entry).Nodup
  enough : ∀ n, scheme.purpose n = .common → 0 < (scheme.entry n).min →
    n ∈ (scheme.nested e).take i ∨ cur.entryExists n = true →
      short n ∨ Enough scheme V n groups tried
  ordered : groups.Pairwise fun g h => g.pos < h.pos ∨
    ((scheme.entry g.entry).min = 0 ∧ (scheme.entry g.entry).order = false)
  reopened : ∀ g ∈ groups, g.pos < s ∨
    ((scheme.entry g.entry).min = 0 ∧ (scheme.entry g.entry).order = false)
  rc : rc = if groups = [] then .none else .ok

namespace SequenceInv

variable {short : EntryId → Prop} {p : List Kparg} {w : List String} {i s : ℕ} {cur : Kpargv}
  {rc : KpargvStatus} {st : ArgState} {groups : List Group} {tried : List (List Kparg)}
  {nested : EntryId}

theorem initial (e : EntryId) (hst : Executing st) :
    SequenceInv scheme V short e st.pargv.pargs st.iter 0 0 .new .none st [] [st.pargv.pargs] where
  executing := hst
  matched := .nil
  here := List.mem_singleton_self _
  saved_le := Nat.le_refl 0
  declared := by simp
  counted := by simp
  entered := by simp
  nodup := List.nodup_nil
  enough := by simp
  ordered := .nil
  reopened := by simp
  rc := rfl

theorem mem_take_succ {i : ℕ} {n : EntryId} (hi : (scheme.nested e)[i]? = some nested)
    (hn : n ∈ (scheme.nested e).take (i + 1)) : n ∈ (scheme.nested e).take i ∨ n = nested := by
  rw [List.take_add_one, hi] at hn
  simpa using hn

/-- The loop steps over a nested ENTRY that needs no attention any more. -/
theorem skip (h : SequenceInv scheme V short e p w i s cur rc st groups tried)
    (hi : (scheme.nested e)[i]? = some nested)
    (hskip : scheme.purpose nested = .common → 0 < (scheme.entry nested).min →
      short nested ∨ Enough scheme V nested groups tried) :
    SequenceInv scheme V short e p w (i + 1) s cur rc st groups tried where
  __ := h
  saved_le := Nat.le_succ_of_le h.saved_le
  enough n hcommon hmin hn := by
    rcases hn with hn | hn
    · rcases mem_take_succ hi hn with hn | rfl
      · exact h.enough n hcommon hmin (.inl hn)
      · exact hskip hcommon hmin
    · exact h.enough n hcommon hmin (.inr hn)

/-- No word was taken by the nested ENTRY. -/
theorem pass {occ : Occurs} (h : SequenceInv scheme V short e p w i s cur rc st groups tried)
    (hi : (scheme.nested e)[i]? = some nested)
    (hshort : stopsShort scheme ⟨nested, st, occ⟩ = true → short nested)
    (hexec : Executing occ.st) (hbreak : occ.breakLoop = false)
    (hocc : TurnDone scheme V rec rc ⟨nested, st, occ⟩) (hnum : occ.num = 0) :
    SequenceInv scheme V short e p w (i + 1) s cur occ.rc occ.st groups tried ∧
      ∀ pargs ∈ turnPlaces scheme rec ⟨nested, st, occ⟩, pargs ∈ tried := by
  obtain ⟨inner, hrep, hplaces⟩ := turnPlaces_spec hocc
  dsimp only at hrep hplaces
  rw [hnum] at hrep
  obtain ⟨hpargs, hiter, rfl⟩ := hrep.of_zero
  have hrc : occ.rc = rc := by
    have hocc' := hocc.rc
    dsimp only at hocc'
    rw [hocc', hnum]
    rfl
  have hsame : SequenceInv scheme V short e p w i s cur occ.rc occ.st groups tried :=
    { h with
      executing := hexec
      matched := by rw [hpargs, hiter]; exact h.matched
      here := by rw [hpargs]; exact h.here
      rc := by rw [hrc]; exact h.rc }
  refine ⟨hsame.skip hi fun _ hmin => ?_, fun pargs hmem => ?_⟩
  · cases hstops : stopsShort scheme ⟨nested, st, occ⟩ with
    | true => exact .inl (hshort hstops)
    | false =>
      right
      rcases TurnDone.enough hocc hbreak hstops with hend | hend
      · dsimp only at hend
        omega
      · exact .inr ⟨occ.st.pargv.pargs, hpargs ▸ h.here, hend⟩
  · rcases hplaces pargs hmem with rfl | hmem
    · exact h.here
    · cases hmem

/-- The nested ENTRY took words. An optional one sends the iterator back. -/
theorem enter {occ : Occurs} (h : SequenceInv scheme V short e p w i s cur rc st groups tried)
    (hi : (scheme.nested e)[i]? = some nested) (hcommon : scheme.purpose nested = .common)
    (hnew : cur.entryExists nested = false)
    (hshort : stopsShort scheme ⟨nested, st, occ⟩ = true → short nested)
    (hbreak : occ.breakLoop = false) (hocc : TurnDone scheme V rec rc ⟨nested, st, occ⟩)
    (hnum : 0 < occ.num) {i' s' : ℕ}
    (hs' : s' = if 0 < (scheme.entry nested).min || (scheme.entry nested).order then i + 1 else s)
    (hi' : i' = i + 1 ∨ i' = s') {st' : ArgState} (hiter : st'.iter = occ.st.iter)
    (hexec' : Executing st')
    (hpargs : st'.pargv.pargs = occ.st.pargv.pargs ++ containerArg scheme e nested) :
    ∃ tried', SequenceInv scheme V short e p w i' s' (cur.addPargs ⟨nested, none⟩) occ.rc st'
      (groups ++ [⟨i, nested, occ.num⟩]) tried' ∧ tried ⊆ tried' ∧
      ∀ pargs ∈ turnPlaces scheme rec ⟨nested, st, occ⟩, pargs ∈ tried' := by
  obtain ⟨inner, hrep, hplaces⟩ := turnPlaces_spec hocc
  dsimp only at hrep hplaces
  have hsaved := h.saved_le
  have hss : s ≤ s' ∧ s' ≤ i + 1 := by
    rw [hs']
    split <;> omega
  have hi'' : s' ≤ i' ∧ i' ≤ i + 1 := by omega
  have hgroups : groups ⊆ groups ++ [⟨i, nested, occ.num⟩] := List.subset_append_left _ _
  have htried : tried ⊆ tried ++ inner ++ [st'.pargv.pargs] := by
    rw [List.append_assoc]
    exact List.subset_append_left _ _
  have hwithin : ∀ pargs, pargs = st.pargv.pargs ∨ pargs ∈ inner →
      pargs ∈ tried ++ inner ++ [st'.pargv.pargs] := by
    rintro pargs (rfl | hmem)
    · exact htried h.here
    · simp [hmem]
  have hself : short nested ∨ Enough scheme V nested (groups ++ [⟨i, nested, occ.num⟩])
      (tried ++ inner ++ [st'.pargv.pargs]) := by
    cases hstops : stopsShort scheme ⟨nested, st, occ⟩ with
    | true => exact .inl (hshort hstops)
    | false =>
      right
      rcases TurnDone.enough hocc hbreak hstops with hend | hend
      · exact .inl ⟨⟨i, nested, occ.num⟩, by simp, rfl, hend⟩
      · exact .inr ⟨occ.st.pargv.pargs, hwithin _ hrep.boundary, hend⟩
  refine ⟨tried ++ inner ++ [st'.pargv.pargs], ?_, htried, fun pargs hmem =>
    hwithin pargs (hplaces pargs hmem)⟩
  constructor
  · exact hexec'
  · rw [hpargs, hiter]
    exact .group h.matched hrep
  · simp
  · exact hi''.1
  · intro g hg
    rcases List.mem_append.mp hg with hg | hg
    · exact h.declared g hg
    · rw [List.mem_singleton.mp hg]
      exact ⟨hi, hcommon⟩
  · intro g hg
    rcases List.mem_append.mp hg with hg | hg
    · exact h.counted g hg
    · rw [List.mem_singleton.mp hg]
      have hupper := hocc.upper
      exact ⟨hnum, by simpa using hupper⟩
  · intro n
    rw [Kpargv.entryExists_addPargs, h.entered n]
    simp [or_and_right, exists_or]
  · rw [List.map_append, List.nodup_append]
    refine ⟨h.nodup, by simp, ?_⟩
    intro n hn m hm
    obtain ⟨g, hg, rfl⟩ := List.mem_map.mp hn
    simp only [List.map_cons, List.map_nil, List.mem_singleton] at hm
    rw [hm]
    intro heq
    rw [(h.entered nested).mpr ⟨g, hg, heq⟩] at hnew
    simp at hnew
  · intro n hn hmin hwhere
    have hold : n ∈ (scheme.nested e).take i ∨ cur.entryExists n = true →
        short n ∨ Enough scheme V n (groups ++ [⟨i, nested, occ.num⟩])
          (tried ++ inner ++ [st'.pargv.pargs]) := fun hwhere =>
      (h.enough n hn hmin hwhere).imp_right fun henough => henough.mono hgroups htried
    rcases hwhere with hwhere | hwhere
    · have hmem : n ∈ (scheme.nested e).take (i + 1) :=
        List.take_subset_take_left _ hi''.2 hwhere
      rcases mem_take_succ hi hmem with hmem | rfl
      · exact hold (.inl hmem)
      · exact hself
    · rcases Kpargv.entryExists_addPargs.mp hwhere with hwhere | rfl
      · exact hold (.inr hwhere)
      · exact hself
  · rw [List.pairwise_append]
    refine ⟨h.ordered, List.pairwise_singleton _ _, ?_⟩
    intro g hg k hk
    rw [List.mem_singleton.mp hk]
    rcases h.reopened g hg with hpos | hfree
    · left
      show g.pos < i
      omega
    · exact .inr hfree
  · intro g hg
    rcases List.mem_append.mp hg with hg | hg
    · rcases h.reopened g hg with hpos | hfree
      · left
        omega
      · exact .inr hfree
    · rw [List.mem_singleton.mp hg]
      by_cases hc : (0 < (scheme.entry nested).min || (scheme.entry nested).order) = true
      · left
        rw [hs', if_pos hc]
        exact Nat.lt_succ_self i
      · right
        simpa using hc
  · have hocc' := hocc.rc
    dsimp only at hocc'
    rw [hocc', if_pos hnum]
    simp

/-- The groups of a loop that has come to the end of the declaration fit it. -/
theorem fits (h : SequenceInv scheme V short e p w i s cur rc st groups tried)
    (hi : (scheme.nested e).length ≤ i)
    (hshort : ∀ n, short n → ∃ pargs ∈ tried, Nullable scheme V n pargs) :
    FitsSequence scheme V e groups tried where
  declared := h.declared
  atMostMax := h.counted
  consecutive := h.nodup
  mandatory n hn hcommon hmin := by
    have hmem : n ∈ (scheme.nested e).take i := by rwa [List.take_of_length_le hi]
    rcases h.enough n hcommon hmin (.inl hmem) with hstops | henough
    · exact .inr (hshort n hstops)
    · exact henough
  ordered := h.ordered

end SequenceInv

variable (scheme V rec) in
/-- The end of a SEQUENCE that had tried the arguments of `tried` before it took some turns. -/
def SequenceDone (short : EntryId → Prop) (e : EntryId) (p : List Kparg) (w : List String)
    (tried : List (List Kparg)) (turns : List SequenceTurn) (rc : KpargvStatus) (st : ArgState) :
    Prop :=
  ∃ i s cur groups tried', (scheme.nested e).length ≤ i ∧
    SequenceInv scheme V short e p w i s cur rc st groups tried' ∧ tried ⊆ tried' ∧
    ∀ turn ∈ turns, ∀ pargs ∈ turnPlaces scheme rec turn, pargs ∈ tried'

theorem SequenceDone.cons {short : EntryId → Prop} {p : List Kparg} {w : List String}
    {tried tried₁ : List (List Kparg)} {turn : SequenceTurn} {turns : List SequenceTurn}
    {rc : KpargvStatus} {st : ArgState}
    (h : SequenceDone scheme V rec short e p w tried₁ turns rc st) (htried : tried ⊆ tried₁)
    (hplaces : ∀ pargs ∈ turnPlaces scheme rec turn, pargs ∈ tried₁) :
    SequenceDone scheme V rec short e p w tried (turn :: turns) rc st := by
  obtain ⟨i, s, cur, groups, tried', hend, hinv, htried', hturns⟩ := h
  refine ⟨i, s, cur, groups, tried', hend, hinv, List.Subset.trans htried htried', ?_⟩
  exact List.forall_mem_cons.mpr ⟨fun pargs hmem => htried' (hplaces pargs hmem), hturns⟩

end Loops

end Klish.Ksession
