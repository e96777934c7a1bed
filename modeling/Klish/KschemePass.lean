import Klish.Kscheme
import Mathlib.Logic.Relation
import Mathlib.Data.Set.Finite.Lattice

/-!
# The preparation as a walk

The ENTRYs that are still to be prepared stand in a list, and a step takes the first of them. The
walk comes to an end where the functions of the preparation return, with the same scheme.
-/

namespace Klish

namespace Kscheme

variable {scheme : Kscheme}

/-- The chain of references that begins at an ENTRY ends, with an ENTRY that is no link or with a
reference that leads nowhere. -/
def Target (scheme : Kscheme) (e : EntryId) (t : Except String EntryId) : Prop :=
  ∃ fuel, scheme.findTarget fuel e = some t

theorem findTarget_mono {fuel fuel' : ℕ} {e : EntryId} {t : Except String EntryId}
    (h : scheme.findTarget fuel e = some t) (hle : fuel ≤ fuel') :
    scheme.findTarget fuel' e = some t := by
  induction fuel generalizing fuel' e with
  | zero => cases h
  | succ fuel ih =>
    obtain ⟨fuel', rfl⟩ : ∃ n, fuel' = n + 1 := ⟨fuel' - 1, by omega⟩
    rw [findTarget] at h ⊢
    split at h
    · exact h
    · split at h
      · exact h
      · exact ih h (by omega)

theorem Target.unique {e : EntryId} {t t' : Except String EntryId} (h : scheme.Target e t)
    (h' : scheme.Target e t') : t = t' := by
  obtain ⟨n, hn⟩ := h
  obtain ⟨n', hn'⟩ := h'
  have hmax := findTarget_mono hn (Nat.le_max_left n n')
  have hmax' := findTarget_mono hn' (Nat.le_max_right n n')
  exact Option.some.inj (hmax.symm.trans hmax')

theorem prepareNested_mono {prepare prepare' : Kscheme → EntryId → Option Report}
    (hprepare : ∀ s e r, prepare s e = some r → prepare' s e = some r) {entrys : List EntryId}
    {s : Kscheme} {r : Report} (h : prepareNested prepare entrys s = some r) :
    prepareNested prepare' entrys s = some r := by
  induction entrys generalizing s r with
  | nil => exact h
  | cons e entrys ih =>
    obtain ⟨r₁, h₁, h⟩ := Option.bind_eq_some_iff.mp h
    obtain ⟨r₂, h₂, rfl⟩ := Option.map_eq_some_iff.mp h
    rw [prepareNested, hprepare s e r₁ h₁, Option.bind_some, ih h₂]
    rfl

/-- More fuel gives the same report. -/
theorem prepareEntry_mono {fuel fuel' : ℕ} {e : EntryId} {r : Report}
    (h : prepareEntry fuel scheme e = some r) (hle : fuel ≤ fuel') :
    prepareEntry fuel' scheme e = some r := by
  induction fuel generalizing fuel' scheme e r with
  | zero => cases h
  | succ fuel ih =>
    obtain ⟨fuel', rfl⟩ : ∃ n, fuel' = n + 1 := ⟨fuel' - 1, by omega⟩
    rw [prepareEntry] at h ⊢
    split at h
    · rename_i hlink
      obtain ⟨t, ht, rfl⟩ := Option.map_eq_some_iff.mp h
      rw [if_pos hlink, findTarget_mono ht (by omega)]
      rfl
    · rename_i hnode
      obtain ⟨r₁, h₁, rfl⟩ := Option.map_eq_some_iff.mp h
      rw [if_neg hnode]
      dsimp only
      rw [prepareNested_mono (fun s e r hr => ih hr (by omega)) h₁]
      rfl

theorem prepareEntrys_mono {fuel fuel' : ℕ} {entrys : List EntryId} {r : Report}
    (h : prepareEntrys fuel entrys scheme = some r) (hle : fuel ≤ fuel') :
    prepareEntrys fuel' entrys scheme = some r := by
  induction entrys generalizing scheme r with
  | nil => exact h
  | cons e entrys ih =>
    obtain ⟨r₁, h₁, h⟩ := Option.bind_eq_some_iff.mp h
    rw [prepareEntrys, prepareEntry_mono h₁ hle, Option.bind_some]
    split at h
    · rename_i hok
      obtain ⟨r₂, h₂, rfl⟩ := Option.map_eq_some_iff.mp h
      rw [if_pos hok, ih h₂]
      rfl
    · rename_i hok
      rw [if_neg hok]
      exact h

/-- What becomes of an ENTRY that is no link, before its nested ENTRYs are prepared. -/
def enter (scheme : Kscheme) (e : EntryId) : Kscheme :=
  (scheme.prepareActionList e).scheme.linkPurposes e

section Enter

variable (scheme) (e e' : EntryId)

@[simp] theorem setBody_entry (b : BodyId) (body : Kbody) :
    (scheme.setBody b body).entry = scheme.entry := rfl

@[simp] theorem setBody_entrys (b : BodyId) (body : Kbody) :
    (scheme.setBody b body).entrys = scheme.entrys := rfl

@[simp] theorem setBody_plugins (b : BodyId) (body : Kbody) :
    (scheme.setBody b body).plugins = scheme.plugins := rfl

theorem setBody_body (b b' : BodyId) (body : Kbody) :
    (scheme.setBody b body).body b' = if b' = b then body else scheme.body b' := rfl

/-- The fields of a scheme that steps on the lists of one ENTRY leave alone. -/
structure SameBut (e : EntryId) (s s' : Kscheme) : Prop where
  plugins : s'.plugins = s.plugins
  entrys : s'.entrys = s.entrys
  entry : s'.entry = s.entry
  body : ∀ b, b ≠ (s.entry e).body → s'.body b = s.body b
  nested : ∀ b, (s'.body b).entrys = (s.body b).entrys
  hotkeys : ∀ b, (s'.body b).hotkeys = (s.body b).hotkeys

variable {scheme e}

theorem SameBut.refl : SameBut e scheme scheme :=
  ⟨rfl, rfl, rfl, fun _ _ => rfl, fun _ => rfl, fun _ => rfl⟩

theorem SameBut.trans {s₁ s₂ s₃ : Kscheme} (h : SameBut e s₁ s₂) (h' : SameBut e s₂ s₃) :
    SameBut e s₁ s₃ where
  plugins := h'.plugins.trans h.plugins
  entrys := h'.entrys.trans h.entrys
  entry := h'.entry.trans h.entry
  body b hb := (h'.body b (by rwa [h.entry])).trans (h.body b hb)
  nested b := (h'.nested b).trans (h.nested b)
  hotkeys b := (h'.hotkeys b).trans (h.hotkeys b)

theorem SameBut.setBody {body : Kbody} (hentrys : body.entrys = (scheme.bodyOf e).entrys)
    (hhotkeys : body.hotkeys = (scheme.bodyOf e).hotkeys) :
    SameBut e scheme (scheme.setBody (scheme.entry e).body body) where
  plugins := rfl
  entrys := rfl
  entry := rfl
  body b hb := by rw [setBody_body, if_neg hb]
  nested b := by
    rw [setBody_body]
    split
    · rename_i hb
      rw [hentrys, hb]
      rfl
    · rfl
  hotkeys b := by
    rw [setBody_body]
    split
    · rename_i hb
      rw [hhotkeys, hb]
      rfl
    · rfl

theorem SameBut.linkPurposes : SameBut e scheme (scheme.linkPurposes e) := by
  have hset : ∀ (s : Kscheme) purpose nested, SameBut e s (s.setNestedByPurpose e purpose nested) :=
    fun s purpose nested => .setBody rfl rfl
  have hfold : ∀ (entrys : List EntryId) (s : Kscheme), SameBut e s (entrys.foldl
      (fun s nested => s.setNestedByPurpose e (s.purpose nested) (some nested)) s) := by
    intro entrys
    induction entrys with
    | nil => exact fun s => .refl
    | cons nested entrys ih => exact fun s => (hset s _ _).trans (ih _)
  unfold Kscheme.linkPurposes
  dsimp only
  split
  · exact hfold _ _
  · split
    · exact hfold _ _
    · exact (hfold _ _).trans (hset _ _ _)

theorem sameBut_enter (scheme : Kscheme) (e : EntryId) : SameBut e scheme (scheme.enter e) :=
  have hactions : SameBut e scheme (scheme.prepareActionList e).scheme := .setBody rfl rfl
  hactions.trans .linkPurposes

theorem SameBut.nested_eq {s s' : Kscheme} (h : SameBut e s s') (e' : EntryId) :
    s'.nested e' = s.nested e' := by
  unfold Kscheme.nested Kscheme.bodyOf
  rw [h.entry, h.nested]

end Enter

end Kscheme

/-- A point of the walk: the scheme so far, the ENTRYs still to come, whether no error has been
found, and the messages. -/
structure Pass where
  scheme : Kscheme
  work : List EntryId
  ok : Bool
  error : List String

namespace Pass

open Kscheme

/-- A step of the walk: `kscheme_prepare_entry` up to its loop over the nested ENTRYs. -/
inductive Step : Pass → Pass → Prop
  | missing {s : Kscheme} {e : EntryId} {work : List EntryId} {ok : Bool} {error : List String}
      {ref : String} (hlink : (s.entry e).refStr.isSome = true)
      (htarget : s.Target e (.error ref)) :
      Step ⟨s, e :: work, ok, error⟩
        ⟨s, work, false, error ++ ["Can't find ENTRY \"" ++ ref ++ "\""]⟩
  | link {s : Kscheme} {e src : EntryId} {work : List EntryId} {ok : Bool} {error : List String}
      (hlink : (s.entry e).refStr.isSome = true) (htarget : s.Target e (.ok src)) :
      Step ⟨s, e :: work, ok, error⟩ ⟨s.link e src, work, ok, error⟩
  | node {s : Kscheme} {e : EntryId} {work : List EntryId} {ok : Bool} {error : List String}
      (hnode : (s.entry e).refStr.isSome = false) :
      Step ⟨s, e :: work, ok, error⟩
        ⟨s.enter e, s.nested e ++ work, ok && (s.prepareActionList e).ok,
          error ++ (s.prepareActionList e).error⟩

/-- The walk goes on to another point. -/
abbrev Walks : Pass → Pass → Prop := Relation.ReflTransGen Step

/-- The walk has come to a link whose references do not end. -/
def Stuck (p : Pass) : Prop :=
  ∃ e work, p.work = e :: work ∧ (p.scheme.entry e).refStr.isSome = true ∧
    ∀ t, ¬ p.scheme.Target e t

theorem step_unique : Relator.RightUnique Step := by
  intro p q r hq hr
  cases hq with
  | missing hlink htarget =>
    cases hr with
    | missing _ htarget' =>
      cases htarget.unique htarget'
      rfl
    | link _ htarget' => cases htarget.unique htarget'
    | node hnode => simp [hlink] at hnode
  | link hlink htarget =>
    cases hr with
    | missing _ htarget' => cases htarget.unique htarget'
    | link _ htarget' =>
      cases htarget.unique htarget'
      rfl
    | node hnode => simp [hlink] at hnode
  | node hnode =>
    cases hr with
    | missing hlink => simp [hnode] at hlink
    | link hlink => simp [hnode] at hlink
    | node => rfl

theorem Stuck.no_step {p q : Pass} (h : p.Stuck) (hstep : Step p q) : False := by
  obtain ⟨e, work, hwork, hlink, hnone⟩ := h
  cases hstep <;> cases hwork
  case missing _ htarget => exact hnone _ htarget
  case link _ htarget => exact hnone _ htarget
  case node hnode =>
    dsimp only at hlink
    rw [hnode] at hlink
    cases hlink

/-- The walk has come to its end. -/
theorem no_step_nil {p q : Pass} (hwork : p.work = []) (h : Step p q) : False := by
  cases h <;> cases hwork

/-- The first ENTRYs of the list are not affected by those behind them. -/
theorem Walks.append {p q : Pass} (h : Walks p q) (work : List EntryId) :
    Walks ⟨p.scheme, p.work ++ work, p.ok, p.error⟩ ⟨q.scheme, q.work ++ work, q.ok, q.error⟩ := by
  induction h with
  | refl => exact .refl
  | tail _ hstep ih =>
    refine ih.tail ?_
    cases hstep with
    | missing hlink htarget => exact .missing hlink htarget
    | link hlink htarget => exact .link hlink htarget
    | node hnode =>
      dsimp only
      rw [List.append_assoc]
      exact .node hnode

/-- The walk over a list of ENTRYs that `kscheme_prepare_entry` is called for. -/
theorem prepareNested_walks {prepare : Kscheme → EntryId → Option Report}
    (hprepare : ∀ s e r work ok error, prepare s e = some r →
      Walks ⟨s, e :: work, ok, error⟩ ⟨r.scheme, work, ok && r.ok, error ++ r.error⟩)
    {entrys : List EntryId} {s : Kscheme} {r : Report} (h : prepareNested prepare entrys s = some r)
    (work : List EntryId) (ok : Bool) (error : List String) :
    Walks ⟨s, entrys ++ work, ok, error⟩ ⟨r.scheme, work, ok && r.ok, error ++ r.error⟩ := by
  induction entrys generalizing s r ok error with
  | nil =>
    cases h
    rw [Bool.and_true, List.append_nil]
    exact .refl
  | cons e entrys ih =>
    obtain ⟨r₁, h₁, h⟩ := Option.bind_eq_some_iff.mp h
    obtain ⟨r₂, h₂, rfl⟩ := Option.map_eq_some_iff.mp h
    have hfirst := hprepare s e r₁ (entrys ++ work) ok error h₁
    have hrest := ih h₂ (ok && r₁.ok) (error ++ r₁.error)
    rw [Bool.and_assoc, List.append_assoc] at hrest
    exact hfirst.trans hrest

/-- What `kscheme_prepare_entry` returns is where the walk comes to. -/
theorem prepareEntry_walks {fuel : ℕ} {s : Kscheme} {e : EntryId} {r : Report}
    (h : prepareEntry fuel s e = some r) (work : List EntryId) (ok : Bool) (error : List String) :
    Walks ⟨s, e :: work, ok, error⟩ ⟨r.scheme, work, ok && r.ok, error ++ r.error⟩ := by
  induction fuel generalizing s e r work ok error with
  | zero => cases h
  | succ fuel ih =>
    rw [prepareEntry] at h
    split at h
    · rename_i hlink
      obtain ⟨t, ht, rfl⟩ := Option.map_eq_some_iff.mp h
      cases t with
      | error ref =>
        rw [Bool.and_false]
        exact .single (.missing hlink ⟨fuel, ht⟩)
      | ok src =>
        rw [Bool.and_true, List.append_nil]
        exact .single (.link hlink ⟨fuel, ht⟩)
    · rename_i hnode
      obtain ⟨r₁, h₁, rfl⟩ := Option.map_eq_some_iff.mp h
      have hnested : ((s.prepareActionList e).scheme.linkPurposes e).nested e = s.nested e :=
        (sameBut_enter s e).nested_eq e
      rw [hnested] at h₁
      have hrest := prepareNested_walks (fun s e r work ok error hr => ih hr work ok error) h₁ work
        (ok && (s.prepareActionList e).ok) (error ++ (s.prepareActionList e).error)
      rw [Bool.and_assoc, List.append_assoc] at hrest
      exact .head (.node (by simpa using hnode)) hrest

/-- The ENTRYs that the walk comes to from an ENTRY: its nested ones, but those of no link. -/
def spread (s : Kscheme) (e : EntryId) : List EntryId :=
  if (s.entry e).refStr.isSome then [] else s.nested e

theorem spread_of_node {s : Kscheme} {e : EntryId} (hnode : (s.entry e).refStr.isSome = false) :
    spread s e = s.nested e := by simp [spread, hnode]

theorem spread_of_link {s : Kscheme} {e : EntryId} (hlink : (s.entry e).refStr.isSome = true) :
    spread s e = [] := by simp [spread, hlink]

theorem spread_link {s : Kscheme} {e : EntryId} (hlink : (s.entry e).refStr.isSome = true)
    (src : EntryId) : spread (s.link e src) = spread s := by
  funext e'
  by_cases he : e' = e
  · subst he
    rw [spread_of_link hlink, spread_of_link]
    simpa [Kscheme.link, setEntry] using hlink
  · simp [spread, Kscheme.link, setEntry, he, nested, bodyOf]

theorem spread_enter (s : Kscheme) (e : EntryId) : spread (s.enter e) = spread s := by
  funext e'
  have hsame := sameBut_enter s e
  unfold spread
  rw [hsame.nested_eq e', hsame.entry]

/-- What the walk will come to is fixed when it begins. -/
theorem Step.spread {p q : Pass} (h : Step p q) : spread q.scheme = spread p.scheme := by
  cases h with
  | missing => rfl
  | link hlink => exact spread_link hlink _
  | node => exact spread_enter _ _

theorem Walks.spread {p q : Pass} (h : Walks p q) : Pass.spread q.scheme = Pass.spread p.scheme := by
  induction h with
  | refl => rfl
  | tail _ hstep ih => exact hstep.spread.trans ih

/-- `kscheme_prepare_entry` returns for some amount of fuel. -/
def Returns (s : Kscheme) (e : EntryId) : Prop := ∃ fuel r, prepareEntry fuel s e = some r

theorem prepareNested_returns {spread₀ : EntryId → List EntryId} {entrys : List EntryId}
    (hentrys : ∀ e ∈ entrys, ∀ s, Pass.spread s = spread₀ → ∀ work ok error,
      Returns s e ∨ ∃ p, Walks ⟨s, e :: work, ok, error⟩ p ∧ p.Stuck)
    {s : Kscheme} (hs : Pass.spread s = spread₀) (work : List EntryId) (ok : Bool)
    (error : List String) :
    (∃ fuel r, prepareNested (prepareEntry fuel) entrys s = some r) ∨
      ∃ p, Walks ⟨s, entrys ++ work, ok, error⟩ p ∧ p.Stuck := by
  induction entrys generalizing s ok error with
  | nil => exact .inl ⟨0, _, rfl⟩
  | cons e entrys ih =>
    rcases hentrys e List.mem_cons_self s hs (entrys ++ work) ok error with ⟨n, r, hr⟩ | hstuck
    · have hwalk := prepareEntry_walks hr (entrys ++ work) ok error
      rcases ih (fun e he => hentrys e (List.mem_cons_of_mem _ he))
          (hwalk.spread.trans hs) (ok && r.ok) (error ++ r.error) with ⟨n', r', hr'⟩ | ⟨p, hp, hstuck⟩
      · refine .inl ⟨max n n', ?_⟩
        rw [prepareNested, prepareEntry_mono hr (Nat.le_max_left n n'), Option.bind_some,
          prepareNested_mono (fun s e r h => prepareEntry_mono h (Nat.le_max_right n n')) hr']
        exact ⟨_, rfl⟩
      · exact .inr ⟨p, hwalk.trans hp, hstuck⟩
    · exact .inr hstuck

/-- `kscheme_prepare_entry` returns if the walk does not come to a link whose references do not
end. The induction is on the nesting of the ENTRYs. -/
theorem returns_or_stuck {spread₀ : EntryId → List EntryId} {e : EntryId}
    (hacc : Acc (fun n e => n ∈ spread₀ e) e) {s : Kscheme} (hs : Pass.spread s = spread₀)
    (work : List EntryId) (ok : Bool)
    (error : List String) :
    Returns s e ∨ ∃ p, Walks ⟨s, e :: work, ok, error⟩ p ∧ p.Stuck := by
  induction hacc generalizing s work ok error with
  | intro e _ ih =>
    cases hlink : (s.entry e).refStr.isSome with
    | true =>
      by_cases htarget : ∃ t, s.Target e t
      · obtain ⟨t, n, hn⟩ := htarget
        refine .inl ⟨n + 1, ?_⟩
        rw [prepareEntry, if_pos hlink, hn]
        exact ⟨_, rfl⟩
      · exact .inr ⟨_, .refl, e, work, rfl, hlink, fun t ht => htarget ⟨t, ht⟩⟩
    | false =>
      have hspread : s.nested e = spread₀ e := by rw [← hs, spread_of_node hlink]
      have hchildren := prepareNested_returns
        (fun n hn s hs work ok error => ih n (hspread ▸ hn) hs work ok error)
        ((spread_enter s e).trans hs) work (ok && (s.prepareActionList e).ok)
        (error ++ (s.prepareActionList e).error)
      rcases hchildren with ⟨n, r, hr⟩ | ⟨p, hp, hstuck⟩
      · refine .inl ⟨n + 1, ?_⟩
        have hnested : ((s.prepareActionList e).scheme.linkPurposes e).nested e = s.nested e :=
          (sameBut_enter s e).nested_eq e
        rw [prepareEntry, if_neg (by simp [hlink])]
        dsimp only
        rw [hnested]
        show ∃ r, (prepareNested (prepareEntry n) (s.nested e) (s.enter e)).map _ = some r
        rw [hr]
        exact ⟨_, rfl⟩
      · exact .inr ⟨p, .head (.node hlink) hp, hstuck⟩

theorem Walks.eq_of_nil {p q : Pass} (hwork : p.work = []) (h : Walks p q) : q = p := by
  rcases h.cases_head with rfl | ⟨r, hstep, -⟩
  · rfl
  · exact (no_step_nil hwork hstep).elim

theorem Stuck.eq_of_walks {p q : Pass} (h : p.Stuck) (hwalk : Walks p q) : q = p := by
  rcases hwalk.cases_head with rfl | ⟨r, hstep, -⟩
  · rfl
  · exact (h.no_step hstep).elim

theorem Stuck.work_ne {p : Pass} (h : p.Stuck) : p.work ≠ [] := by
  obtain ⟨e, work, hwork, -⟩ := h
  rw [hwork]
  exact List.cons_ne_nil e work

/-- A walk that ends goes through all its points. -/
theorem Walks.of_end {p q q' : Pass} (hq : Walks p q) (hend : Walks p q') (hwork : q'.work = []) :
    Walks q q' := by
  rcases hq.total_of_right_unique step_unique hend with hwalk | hwalk
  · exact hwalk
  · rw [Walks.eq_of_nil hwork hwalk]

/-- A walk that has come to its end cannot get stuck. -/
theorem Stuck.not_end {p q q' : Pass} (h : q.Stuck) (hq : Walks p q) (hend : Walks p q')
    (hwork : q'.work = []) : False := by
  have heq := h.eq_of_walks (hq.of_end hend hwork)
  exact h.work_ne (heq ▸ hwork)

theorem Walks.ok {p q : Pass} (h : Walks p q) (hok : q.ok = true) : p.ok = true := by
  induction h with
  | refl => exact hok
  | tail _ hstep ih =>
    apply ih
    cases hstep with
    | missing => cases hok
    | link => exact hok
    | node => exact (Bool.and_eq_true_iff.mp hok).1

/-- A message stays. -/
theorem Walks.error {p q : Pass} (h : Walks p q) : p.error <+: q.error := by
  induction h with
  | refl => exact List.prefix_rfl
  | tail _ hstep ih =>
    apply ih.trans
    cases hstep with
    | missing => exact List.prefix_append _ _
    | link => exact List.prefix_rfl
    | node => exact List.prefix_append _ _

/-- The points that the loop over the top-level ENTRYs comes to. It stops at an error. -/
inductive Comes : Kscheme → List EntryId → Pass → Prop
  | inside {s : Kscheme} {e : EntryId} {entrys : List EntryId} {p : Pass}
      (h : Walks ⟨s, [e], true, []⟩ p) : Comes s (e :: entrys) p
  | next {s s' : Kscheme} {e : EntryId} {entrys : List EntryId} {error : List String} {p : Pass}
      (h : Walks ⟨s, [e], true, []⟩ ⟨s', [], true, error⟩) (hrest : Comes s' entrys p) :
      Comes s (e :: entrys) p

variable {spread₀ : EntryId → List EntryId} {entrys : List EntryId} {s s' : Kscheme}

/-- The first top-level ENTRY, when the loop returns. -/
theorem prepareEntrys_cons {fuel : ℕ} {e : EntryId} {r : Report}
    (h : prepareEntrys fuel (e :: entrys) s = some r) :
    ∃ r₁, Walks ⟨s, [e], true, []⟩ ⟨r₁.scheme, [], r₁.ok, r₁.error⟩ ∧
      ((r₁.ok = false ∧ r = r₁) ∨ (r₁.ok = true ∧ ∃ r₂, prepareEntrys fuel entrys r₁.scheme = some r₂ ∧
        r = { r₂ with error := r₁.error ++ r₂.error })) := by
  obtain ⟨r₁, h₁, h⟩ := Option.bind_eq_some_iff.mp h
  refine ⟨r₁, ?_, ?_⟩
  · have hwalk := prepareEntry_walks h₁ [] true []
    rwa [Bool.true_and, List.nil_append] at hwalk
  · cases hok : r₁.ok with
    | false =>
      rw [if_neg (by simp [hok])] at h
      exact .inl ⟨rfl, (Option.some.inj h).symm⟩
    | true =>
      rw [if_pos hok] at h
      obtain ⟨r₂, h₂, rfl⟩ := Option.map_eq_some_iff.mp h
      exact .inr ⟨rfl, r₂, h₂, rfl⟩

/-- The loop over the top-level ENTRYs returns exactly if it does not come to a link whose
references do not end. -/
theorem prepareEntrys_returns_iff (hacc : ∀ e ∈ entrys, Acc (fun n e => n ∈ spread₀ e) e)
    (hs : Pass.spread s = spread₀) :
    (∃ fuel r, prepareEntrys fuel entrys s = some r) ↔ ∀ p, Comes s entrys p → ¬ p.Stuck := by
  induction entrys generalizing s with
  | nil =>
    refine ⟨fun _ p hp => ?_, fun _ => ⟨0, _, rfl⟩⟩
    cases hp
  | cons e entrys ih =>
    have hacc' : ∀ e ∈ entrys, Acc (fun n e => n ∈ spread₀ e) e :=
      fun e he => hacc e (List.mem_cons_of_mem _ he)
    constructor
    · rintro ⟨fuel, r, h⟩ p hp hstuck
      obtain ⟨r₁, hwalk, hr⟩ := prepareEntrys_cons h
      cases hp with
      | inside hp => exact hstuck.not_end hp hwalk rfl
      | @next _ s' _ _ error _ hend hrest =>
        have heq : (⟨r₁.scheme, [], r₁.ok, r₁.error⟩ : Pass) = ⟨s', [], true, error⟩ :=
          (hend.of_end hwalk rfl).eq_of_nil rfl
        obtain ⟨hscheme, hok, -⟩ : r₁.scheme = s' ∧ r₁.ok = true ∧ r₁.error = error := by
          simpa using heq
        rcases hr with ⟨hfalse, -⟩ | ⟨-, r₂, h₂, -⟩
        · rw [hfalse] at hok
          cases hok
        · rw [hscheme] at h₂
          exact (ih hacc' (hend.spread.trans hs)).mp ⟨fuel, r₂, h₂⟩ p hrest hstuck
    · intro hnot
      rcases returns_or_stuck (hacc e List.mem_cons_self) hs [] true [] with
        ⟨n, r, hr⟩ | ⟨p, hp, hstuck⟩
      · cases hok : r.ok with
        | false =>
          refine ⟨n, r, ?_⟩
          rw [prepareEntrys, hr, Option.bind_some, hok]
          rfl
        | true =>
          have hwalk := prepareEntry_walks hr [] true []
          rw [hok, Bool.and_true] at hwalk
          obtain ⟨n', r', hr'⟩ :=
            (ih hacc' (hwalk.spread.trans hs)).mpr fun p hp => hnot p (.next hwalk hp)
          refine ⟨max n n', ?_⟩
          rw [prepareEntrys, prepareEntry_mono hr (Nat.le_max_left n n'), Option.bind_some,
            if_pos hok, prepareEntrys_mono hr' (Nat.le_max_right n n')]
          exact ⟨_, rfl⟩
      · exact absurd hstuck (hnot p (.inside hp))

/-- An error that the loop comes to is in its report. -/
theorem Comes.reported {p : Pass} (hp : Comes s entrys p) {fuel : ℕ} {r : Report}
    (h : prepareEntrys fuel entrys s = some r) {q : Pass} (hstep : Step p q) :
    (q.ok = false → r.ok = false) ∧ ∀ error ∈ q.error, error ∈ r.error := by
  induction hp generalizing r with
  | inside hp =>
    obtain ⟨r₁, hwalk, hr⟩ := prepareEntrys_cons h
    have hrest : Walks q ⟨r₁.scheme, [], r₁.ok, r₁.error⟩ := Walks.of_end (hp.tail hstep) hwalk rfl
    have hok : q.ok = false → r₁.ok = false := by
      intro hq
      by_contra hr₁
      rw [hrest.ok (by simpa using hr₁)] at hq
      cases hq
    rcases hr with ⟨-, rfl⟩ | ⟨htrue, r₂, -, rfl⟩
    · exact ⟨hok, fun error herror => hrest.error.subset herror⟩
    · refine ⟨fun hq => ?_, fun error herror => List.mem_append_left _ (hrest.error.subset herror)⟩
      rw [hok hq] at htrue
      cases htrue
  | @next s s' e entrys error p hend _ ih =>
    obtain ⟨r₁, hwalk, hr⟩ := prepareEntrys_cons h
    have heq : (⟨r₁.scheme, [], r₁.ok, r₁.error⟩ : Pass) = ⟨s', [], true, error⟩ :=
      (hend.of_end hwalk rfl).eq_of_nil rfl
    obtain ⟨hscheme, hok, -⟩ : r₁.scheme = s' ∧ r₁.ok = true ∧ r₁.error = error := by
      simpa using heq
    rcases hr with ⟨hfalse, -⟩ | ⟨-, r₂, h₂, rfl⟩
    · rw [hfalse] at hok
      cases hok
    · rw [hscheme] at h₂
      obtain ⟨hfail, herror⟩ := ih h₂ hstep
      exact ⟨hfail, fun error hmem => List.mem_append_right _ (herror error hmem)⟩

/-- The loop over the top-level ENTRYs succeeds exactly if the walk over all of them does. -/
theorem prepareEntrys_ok_iff (hacc : ∀ e ∈ entrys, Acc (fun n e => n ∈ spread₀ e) e)
    (hs : Pass.spread s = spread₀) (error : List String) :
    (∃ fuel r, prepareEntrys fuel entrys s = some r ∧ r.ok = true ∧ r.scheme = s') ↔
      ∃ error', Walks ⟨s, entrys, true, error⟩ ⟨s', [], true, error'⟩ := by
  induction entrys generalizing s error with
  | nil =>
    constructor
    · rintro ⟨fuel, r, h, -, rfl⟩
      cases h
      exact ⟨error, .refl⟩
    · rintro ⟨error', h⟩
      have heq := h.eq_of_nil rfl
      cases heq
      exact ⟨0, _, rfl, rfl, rfl⟩
  | cons e entrys ih =>
    have hacc' : ∀ e ∈ entrys, Acc (fun n e => n ∈ spread₀ e) e :=
      fun e he => hacc e (List.mem_cons_of_mem _ he)
    constructor
    · rintro ⟨fuel, r, h, hok, rfl⟩
      obtain ⟨r₁, h₁, h⟩ := Option.bind_eq_some_iff.mp h
      have hwalk := prepareEntry_walks h₁ entrys true error
      rw [Bool.true_and] at hwalk
      split at h
      · rename_i hok₁
        obtain ⟨r₂, h₂, rfl⟩ := Option.map_eq_some_iff.mp h
        rw [hok₁] at hwalk
        obtain ⟨error', hrest⟩ :=
          (ih hacc' (hwalk.spread.trans hs) (error ++ r₁.error)).mp ⟨fuel, r₂, h₂, hok, rfl⟩
        exact ⟨error', hwalk.trans hrest⟩
      · rename_i hok₁
        cases h
        exact absurd hok hok₁
    · rintro ⟨error', h⟩
      rcases returns_or_stuck (hacc e List.mem_cons_self) hs entrys true error with
        ⟨n, r, hr⟩ | ⟨p, hp, hstuck⟩
      · have hwalk := prepareEntry_walks hr entrys true error
        rw [Bool.true_and] at hwalk
        have hrest := hwalk.of_end h rfl
        have hok : r.ok = true := hrest.ok rfl
        rw [hok] at hwalk hrest
        obtain ⟨n', r', hr', hok', hscheme⟩ :=
          (ih hacc' (hwalk.spread.trans hs) (error ++ r.error)).mpr ⟨error', hrest⟩
        refine ⟨max n n', { r' with error := r.error ++ r'.error }, ?_, hok', hscheme⟩
        rw [prepareEntrys, prepareEntry_mono hr (Nat.le_max_left n n'), Option.bind_some,
          if_pos hok, prepareEntrys_mono hr' (Nat.le_max_right n n')]
        rfl
      · exact (hstuck.not_end hp h rfl).elim

end Pass

end Klish
