import Klish.KschemePass
import Klish.Lib.Chains

/-!
# Chains of references

A link refers to another ENTRY by a path, and that may be a link too. The chain is followed in the
scheme as the preparation has left it so far.
-/

namespace Klish

namespace Kscheme

variable {scheme : Kscheme}

/-- The ENTRYs are nested like trees of finite height. -/
def Grounded (scheme : Kscheme) : Prop :=
  ∀ e ∈ scheme.entrys, Acc (fun n e => n ∈ scheme.nested e) e

/-- The reference of a link leads to another ENTRY. -/
def Refers (scheme : Kscheme) (e e' : EntryId) : Prop :=
  ∃ ref, (scheme.entry e).refStr = some ref ∧ scheme.findEntryByPath ref = some e'

/-- The loop that follows the references returns exactly if they lead to an end. -/
theorem target_iff_acc {e : EntryId} :
    (∃ t, scheme.Target e t) ↔ Acc (fun e' e => scheme.Refers e e') e := by
  constructor
  · rintro ⟨t, fuel, h⟩
    induction fuel generalizing e with
    | zero => cases h
    | succ fuel ih =>
      constructor
      rintro e' ⟨ref, href, hfind⟩
      rw [findTarget, href] at h
      dsimp only at h
      rw [hfind] at h
      exact ih h
  · intro h
    induction h with
    | intro e _ ih =>
      cases href : (scheme.entry e).refStr with
      | none =>
        refine ⟨.ok e, 1, ?_⟩
        rw [findTarget, href]
      | some ref =>
        cases hfind : scheme.findEntryByPath ref with
        | none =>
          refine ⟨.error ref, 1, ?_⟩
          rw [findTarget, href]
          dsimp only
          rw [hfind]
        | some e' =>
          obtain ⟨t, fuel, ht⟩ := ih e' ⟨ref, href, hfind⟩
          refine ⟨t, fuel + 1, ?_⟩
          rw [findTarget, href]
          dsimp only
          rw [hfind]
          exact ht

/-- The end of a chain is no link. -/
theorem Target.node {e src : EntryId} (h : scheme.Target e (.ok src)) :
    (scheme.entry src).refStr = none := by
  obtain ⟨fuel, h⟩ := h
  induction fuel generalizing e with
  | zero => cases h
  | succ fuel ih =>
    rw [findTarget] at h
    split at h
    · rename_i href
      cases h
      exact href
    · split at h
      · cases h
      · exact ih h

/-- The end of the chain of a link is found by a path. -/
theorem Target.found {e src : EntryId} (h : scheme.Target e (.ok src)) :
    src = e ∨ ∃ ref, scheme.findEntryByPath ref = some src := by
  obtain ⟨fuel, h⟩ := h
  induction fuel generalizing e with
  | zero => cases h
  | succ fuel ih =>
    rw [findTarget] at h
    split at h
    · cases h
      exact .inl rfl
    · split at h
      · cases h
      · rename_i hfind
        rcases ih h with rfl | hfound
        · exact .inr ⟨_, hfind⟩
        · exact .inr hfound

/-- The set has the top-level ENTRYs and the nested ENTRYs of all its ENTRYs. -/
structure Within (F : Set EntryId) (scheme : Kscheme) : Prop where
  entrys : ∀ e ∈ scheme.entrys, e ∈ F
  nested : ∀ e ∈ F, ∀ n ∈ scheme.nested e, n ∈ F

variable {F : Set EntryId}

theorem findEntry_mem {entrys : List EntryId} {name : String} {e : EntryId}
    (h : scheme.findEntry entrys name = some e) : e ∈ entrys := List.mem_of_find?_eq_some h

/-- A path leads to an ENTRY of the set. -/
theorem Within.find (hF : Within F scheme) {ref : String} {e : EntryId}
    (h : scheme.findEntryByPath ref = some e) : e ∈ F := by
  have hfold : ∀ (names : List String) (start : Option EntryId), (∀ e ∈ start, e ∈ F) →
      ∀ e ∈ names.foldl (fun entry name =>
        entry.bind fun e => scheme.findEntry (scheme.nested e) name) start, e ∈ F := by
    intro names
    induction names with
    | nil => exact fun start hstart => hstart
    | cons name names ih =>
      intro start hstart
      apply ih
      intro e he
      obtain ⟨e', he', hfind⟩ := Option.bind_eq_some_iff.mp he
      exact hF.nested e' (hstart e' he') e (findEntry_mem hfind)
  unfold findEntryByPath at h
  split at h
  · cases h
  · exact hfold _ _ (fun e he => hF.entrys e (findEntry_mem he)) e h

theorem Within.refers (hF : Within F scheme) {e e' : EntryId} (h : scheme.Refers e e') : e' ∈ F := by
  obtain ⟨ref, -, hfind⟩ := h
  exact hF.find hfind

theorem link_nested (e src e' : EntryId) : (scheme.link e src).nested e' =
    if e' = e then scheme.nested src else scheme.nested e' := by
  by_cases he : e' = e <;> simp [link, setEntry, he, nested, bodyOf]

theorem Within.step {p q : Pass} (hF : Within F p.scheme) (h : Pass.Step p q) :
    Within F q.scheme := by
  cases h with
  | missing => exact hF
  | @link s e src work ok error hlink htarget =>
    refine ⟨hF.entrys, fun e' he' n hn => ?_⟩
    dsimp only at hn
    rw [link_nested] at hn
    split at hn
    · rename_i heq
      rcases htarget.found with rfl | ⟨ref, hfind⟩
      · exact hF.nested src (heq ▸ he') n hn
      · exact hF.nested src (hF.find hfind) n hn
    · exact hF.nested e' he' n hn
  | @node s e work ok error hnode =>
    have hsame := sameBut_enter s e
    refine ⟨fun e he => hF.entrys e (hsame.entrys ▸ he), fun e he n hn => ?_⟩
    exact hF.nested e he n (hsame.nested_eq e ▸ hn)

theorem Within.walks {p q : Pass} (hF : Within F p.scheme) (h : Pass.Walks p q) :
    Within F q.scheme := by
  induction h with
  | refl => exact hF
  | tail _ hstep ih => exact ih.step hstep

theorem Within.comes {entrys : List EntryId} {p : Pass} (hF : Within F scheme)
    (h : Pass.Comes scheme entrys p) : Within F p.scheme := by
  induction h with
  | inside h => exact hF.walks h
  | next h _ ih => exact ih (hF.walks h)

/-- The ENTRYs of a scheme are finite in number. -/
theorem Grounded.within (h : scheme.Grounded) : ∃ F : Set EntryId, F.Finite ∧ Within F scheme := by
  refine ⟨⋃ e ∈ {e | e ∈ scheme.entrys}, {b | Relation.ReflTransGen
    (fun e n => n ∈ scheme.nested e) e b}, ?_, fun e he => ?_, fun e he n hn => ?_⟩
  · exact (List.finite_toSet scheme.entrys).biUnion fun e he => Chains.finite_reach (h e he)
  · exact Set.mem_biUnion he Relation.ReflTransGen.refl
  · obtain ⟨top, htop, hreach⟩ := Set.mem_iUnion₂.mp he
    exact Set.mem_biUnion htop (Relation.ReflTransGen.tail hreach hn)

/-- In a finite scheme the references of a link end exactly if they do not come to a cycle. -/
theorem target_iff_not_cyclic (hfin : F.Finite) (hF : Within F scheme) {e : EntryId} :
    (∃ t, scheme.Target e t) ↔ ¬ Chains.Cyclic scheme.Refers e := by
  have hsub : {e' | Relation.TransGen scheme.Refers e e'} ⊆ F := by
    intro e' h
    obtain ⟨mid, -, hrefers⟩ := Relation.TransGen.tail'_iff.mp h
    exact hF.refers hrefers
  rw [target_iff_acc, Chains.acc_iff_not_cyclic (hfin.subset hsub)]

/-- What the walk comes to from an ENTRY is nested in it. -/
theorem Grounded.spread (h : scheme.Grounded) {e : EntryId} (he : e ∈ scheme.entrys) :
    Acc (fun n e => n ∈ Pass.spread scheme e) e := by
  refine Subrelation.accessible (fun {n e} hn => ?_) (h e he)
  unfold Pass.spread at hn
  split at hn
  · cases hn
  · exact hn

/-- The references of the links that `kscheme_prepare` comes to lead to no cycle, where they are
followed. -/
def NoCycle (loadPlugins : List Kplugin → Option (List Kplugin)) (scheme : Kscheme) : Prop :=
  ∀ plugins, loadPlugins scheme.plugins = some plugins → ∀ p e work,
    Pass.Comes { scheme with plugins } scheme.entrys p → p.work = e :: work →
      ¬ Chains.Cyclic p.scheme.Refers e

/-- The references of each link that `kscheme_prepare` comes to lead to an ENTRY that is no link,
or the one that leads nowhere is reported. -/
def LinksResolved (loadPlugins : List Kplugin → Option (List Kplugin)) (scheme : Kscheme)
    (r : Report) : Prop :=
  ∀ plugins, loadPlugins scheme.plugins = some plugins → ∀ p e work,
    Pass.Comes { scheme with plugins } scheme.entrys p → p.work = e :: work →
      (p.scheme.entry e).refStr.isSome = true →
        (∃ src, p.scheme.Target e (.ok src) ∧ (p.scheme.entry src).refStr = none) ∨
        ∃ ref, p.scheme.Target e (.error ref) ∧ r.ok = false ∧
          ("Can't find ENTRY \"" ++ ref ++ "\"") ∈ r.error

/-- `kscheme_prepare` returns, and has resolved or reported all links, exactly if the references
lead to no cycle. -/
theorem prepare_returns_iff (hgrounded : scheme.Grounded)
    (loadPlugins : List Kplugin → Option (List Kplugin)) :
    (∃ fuel r, prepare loadPlugins fuel scheme = some r ∧ LinksResolved loadPlugins scheme r) ↔
      NoCycle loadPlugins scheme := by
  unfold NoCycle LinksResolved prepare
  cases hload : loadPlugins scheme.plugins with
  | none =>
    constructor
    · intro _ _ h
      cases h
    · intro _
      refine ⟨0, _, rfl, fun _ h => ?_⟩
      cases h
  | some plugins =>
    dsimp only
    have hgrounded' : Grounded { scheme with plugins } := hgrounded
    obtain ⟨F, hfin, hF⟩ := hgrounded'.within
    have hreturns : (∃ fuel r, prepareEntrys fuel scheme.entrys { scheme with plugins } = some r) ↔
        ∀ p, Pass.Comes { scheme with plugins } scheme.entrys p → ¬ p.Stuck :=
      Pass.prepareEntrys_returns_iff (fun e he => hgrounded'.spread he) rfl
    have hends : ∀ {p : Pass} {e : EntryId}, Pass.Comes { scheme with plugins } scheme.entrys p →
        ((∃ t, p.scheme.Target e t) ↔ ¬ Chains.Cyclic p.scheme.Refers e) :=
      fun hp => target_iff_not_cyclic hfin (hF.comes hp)
    constructor
    · rintro ⟨fuel, r, hrun, -⟩ _ ⟨⟩ p e work hp hwork
      rw [← hends hp]
      by_contra hnone
      refine hreturns.mp ⟨fuel, r, hrun⟩ p hp ⟨e, work, hwork, ?_, fun t ht => hnone ⟨t, ht⟩⟩
      by_contra hlink
      refine hnone ⟨.ok e, 1, ?_⟩
      rw [findTarget, show (p.scheme.entry e).refStr = none by simpa using hlink]
    · intro hno
      have hgoes : ∀ p, Pass.Comes { scheme with plugins } scheme.entrys p → ¬ p.Stuck := by
        rintro p hp ⟨e, work, hwork, _, hnone⟩
        obtain ⟨t, ht⟩ := (hends hp).mpr (hno plugins rfl p e work hp hwork)
        exact hnone t ht
      obtain ⟨fuel, r, hrun⟩ := hreturns.mpr hgoes
      refine ⟨fuel, r, hrun, ?_⟩
      rintro _ ⟨⟩ p e work hp hwork hlink
      obtain ⟨t, ht⟩ := (hends hp).mpr (hno plugins rfl p e work hp hwork)
      cases t with
      | ok src => exact .inl ⟨src, ht, ht.node⟩
      | error ref =>
        right
        obtain ⟨s, _, ok, error⟩ := p
        subst hwork
        obtain ⟨hfail, herror⟩ := hp.reported hrun (.missing hlink ht)
        exact ⟨ref, ht, hfail rfl, herror _ (List.mem_append_right _ List.mem_cons_self)⟩

/-- Two top-level ENTRYs, `a` that refers to a path and `b`. -/
def refScheme (ref : String) : Kscheme where
  plugins := []
  entrys := [0, 1]
  entry e := { Kentry.new (if e = 0 then "a" else "b") e with
    refStr := if e = 0 then some ref else none }
  body _ := .new

theorem refScheme_grounded (ref : String) : (refScheme ref).Grounded := by
  intro e _
  constructor
  intro n hn
  cases hn

theorem prepare_returns_iff_sample :
    (∃ fuel r, prepare some fuel (refScheme "/b") = some r ∧
      LinksResolved some (refScheme "/b") r) ↔ NoCycle some (refScheme "/b") :=
  prepare_returns_iff (refScheme_grounded "/b") some

/-- A link that refers to itself. -/
theorem prepare_never_returns : ¬ ∃ fuel r, prepare some fuel (refScheme "/a") = some r := by
  have hlink : ((refScheme "/a").entry 0).refStr = some "/a" := rfl
  have hself : (refScheme "/a").findEntryByPath "/a" = some 0 := by decide
  have htarget : ∀ n, (refScheme "/a").findTarget n 0 = none := by
    intro n
    induction n with
    | zero => rfl
    | succ n ih =>
      rw [findTarget, hlink]
      dsimp only
      rw [hself]
      exact ih
  have hentry : ∀ fuel, prepareEntry fuel (refScheme "/a") 0 = none := by
    intro fuel
    cases fuel with
    | zero => rfl
    | succ fuel =>
      have hlinked : ((refScheme "/a").entry 0).refStr.isSome = true := by rw [hlink]; rfl
      rw [prepareEntry, if_pos hlinked, htarget]
      rfl
  rintro ⟨fuel, r, hrun⟩
  have hentrys : prepareEntrys fuel [0, 1] (refScheme "/a") = some r := hrun
  rw [prepareEntrys, hentry] at hentrys
  cases hentrys

end Kscheme

end Klish
