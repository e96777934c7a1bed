import Klish.KschemeLive
import Klish.Ktpd

/-!
# The nearest LOG

An ENTRY without a LOG takes that of the ENTRY that its pointer names as the parent, when it is
prepared. The pointer is missing where the loader has made an ENTRY by itself.
-/

namespace Klish

open Forests

namespace Kscheme

variable {scheme : Kscheme}

/-- A scheme as the loaders leave it. An ENTRY is nested in the one that it has as its parent. -/
structure Declared (scheme : Kscheme) : Prop extends scheme.Fresh where
  parent : ∀ e q, (scheme.entry e).parent = some q → e ∈ scheme.nested q

/-- The ENTRY is no link and is not nested in one. -/
structure Plain (scheme : Kscheme) (e : EntryId) : Prop where
  reached : Reached scheme.entrys scheme.nested e
  node : scheme.isLink e = false
  outside : ¬Under scheme.isLink scheme.nested e

/-- The last top-level LOG. -/
def topLog (scheme : Kscheme) : Option EntryId :=
  (scheme.entrys.filter fun n => scheme.purpose n == .log).getLast?

/-- The LOG that is nested in the ENTRY, or in the nearest one that it is nested in. -/
inductive NearestLog (scheme : Kscheme) : EntryId → Option EntryId → Prop
  | own {e log : EntryId} (hlog : scheme.lastOfPurpose e .log = some log) :
      NearestLog scheme e (some log)
  | up {e q : EntryId} {log : Option EntryId} (hnone : scheme.lastOfPurpose e .log = none)
      (hnested : e ∈ scheme.nested q) (h : NearestLog scheme q log) : NearestLog scheme e log
  | top {e : EntryId} (hnone : scheme.lastOfPurpose e .log = none) (htop : e ∈ scheme.entrys) :
      NearestLog scheme e scheme.topLog

/-- On the way up along the parents there is a LOG, or the ENTRY whose parent is missing is not
nested in one with a LOG. -/
inductive ParentsTell (scheme : Kscheme) : EntryId → Prop
  | own {e log : EntryId} (hlog : scheme.lastOfPurpose e .log = some log) : ParentsTell scheme e
  | up {e q : EntryId} (hparent : (scheme.entry e).parent = some q) (h : ParentsTell scheme q) :
      ParentsTell scheme e
  | bare {e : EntryId} (hparent : (scheme.entry e).parent = none)
      (hnone : ∀ q, Relation.TransGen (fun q e => e ∈ scheme.nested q) q e →
        scheme.lastOfPurpose q .log = none) : ParentsTell scheme e

section Enter

theorem linkNested_sameBut (s : Kscheme) (e : EntryId) (entrys : List EntryId) :
    SameBut e s (linkNested s e entrys) := by
  induction entrys generalizing s with
  | nil => exact .refl
  | cons n entrys ih =>
    have hset : SameBut e s (s.setNestedByPurpose e (s.purpose n) (some n)) := .setBody rfl rfl
    exact hset.trans (ih _)

theorem SameBut.inheritedLog {s s' : Kscheme} {e : EntryId} (h : SameBut e s s')
    (hparent : ∀ q, (s.entry e).parent = some q → (s.entry q).body ≠ (s.entry e).body) :
    s'.inheritedLog e = s.inheritedLog e := by
  unfold Kscheme.inheritedLog
  rw [h.entry, h.entrys]
  cases hq : (s.entry e).parent with
  | none =>
    unfold Kscheme.purpose
    rw [h.entry]
  | some q =>
    dsimp only
    unfold Kscheme.nestedByPurpose Kscheme.bodyOf
    rw [h.entry, h.body _ (hparent q hq)]

/-- The LOG of an ENTRY that the walk has come to: its own, or what it inherits. -/
theorem enter_log (s : Kscheme) (e : EntryId) (hempty : s.nestedByPurpose e .log = none)
    (hparent : ∀ q, (s.entry e).parent = some q → (s.entry q).body ≠ (s.entry e).body) :
    (s.enter e).nestedByPurpose e .log = (s.lastOfPurpose e .log).or (s.inheritedLog e) := by
  obtain ⟨s₁, hs₁⟩ : ∃ s₁, s₁ = (s.prepareActionList e).scheme := ⟨_, rfl⟩
  have hsame : SameBut e s s₁ := hs₁ ▸ .setBody rfl rfl
  have hempty₁ : s₁.nestedByPurpose e .log = none := by
    rw [← hempty, hs₁]
    unfold prepareActionList nestedByPurpose bodyOf
    rw [setBody_entry, setBody_body, if_pos rfl]
  have hlast : s₁.lastOfPurpose e .log = s.lastOfPurpose e .log := by
    unfold lastOfPurpose purpose
    rw [hsame.nested_eq, hsame.entry]
  have hparent₁ : ∀ q, (s₁.entry e).parent = some q → (s₁.entry q).body ≠ (s₁.entry e).body := by
    rw [hsame.entry]
    exact hparent
  rw [← hlast, ← hsame.inheritedLog hparent]
  unfold enter
  rw [← hs₁]
  obtain ⟨-, -, hslot⟩ := linkNested_spec e (s₁.nested e) s₁
  have hlog : (linkNested s₁ e (s₁.nested e)).nestedByPurpose e .log =
      s₁.lastOfPurpose e .log := by
    rw [hslot, hempty₁, Option.or_none]
    rfl
  have hinherited := (linkNested_sameBut s₁ e (s₁.nested e)).inheritedLog hparent₁
  rw [linkPurposes]
  generalize hs₂ : List.foldl _ s₁ (s₁.nested e) = s₂
  have hlinked : linkNested s₁ e (s₁.nested e) = s₂ := hs₂
  rw [hlinked] at hlog hinherited
  rw [hlog, hinherited]
  cases hown : s₁.lastOfPurpose e .log with
  | some log =>
    have hsome : (some log).isSome = true := rfl
    rw [if_pos hsome, hlog, hown]
    rfl
  | none =>
    rw [if_neg (by decide), Option.none_or]
    cases s₁.inheritedLog e with
    | none =>
      dsimp only
      rw [hlog, hown]
    | some log =>
      dsimp only
      rw [setNestedByPurpose_slot, if_pos rfl]

end Enter

end Kscheme

namespace Pass

open Kscheme

variable {p₀ p q : Pass} {log : List (EntryId × EntryId)}

/-- The LOGs of the ENTRYs that the walk has been to. The parent of such an ENTRY is one of them. -/
def LogsInherited (p₀ p : Pass) (log : List (EntryId × EntryId)) : Prop :=
  ∀ e ∈ log.map Prod.fst, p₀.scheme.isLink e = false →
    p.scheme.nestedByPurpose e .log =
      (p₀.scheme.lastOfPurpose e .log).or (match (p₀.scheme.entry e).parent with
        | none => p₀.scheme.topLog
        | some q => p.scheme.nestedByPurpose q .log) ∧
    ∀ q, (p₀.scheme.entry e).parent = some q →
      q ∈ log.map Prod.fst ∧ p₀.scheme.isLink q = false

theorem LogsInherited.congr {log' : List (EntryId × EntryId)} (h : LogsInherited p₀ p log)
    (hsub : ∀ e ∈ log'.map Prod.fst, p₀.scheme.isLink e = false → e ∈ log.map Prod.fst)
    (hsup : ∀ e ∈ log.map Prod.fst, e ∈ log'.map Prod.fst)
    (hslot : ∀ e ∈ log.map Prod.fst, p₀.scheme.isLink e = false →
      q.scheme.nestedByPurpose e .log = p.scheme.nestedByPurpose e .log) :
    LogsInherited p₀ q log' := by
  intro e he hnode
  obtain ⟨heq, hparents⟩ := h e (hsub e he hnode) hnode
  refine ⟨?_, fun r hr => ⟨hsup r (hparents r hr).1, (hparents r hr).2⟩⟩
  rw [hslot e (hsub e he hnode) hnode, heq]
  cases hparent : (p₀.scheme.entry e).parent with
  | none => rfl
  | some r =>
    dsimp only
    rw [hslot r (hparents r hparent).1 (hparents r hparent).2]

section Step

variable {s : Kscheme} {e src : EntryId} {work : List EntryId} {ok : Bool} {error : List String}

theorem LogsInherited.walk_link (h : LogsInherited p₀ ⟨s, e :: work, ok, error⟩ log)
    (hlink : p₀.scheme.isLink e = true) :
    LogsInherited p₀ ⟨s.link e src, work, ok, error⟩ (log ++ [(e, src)]) := by
  apply h.congr
  · intro e' he' hnode
    rw [List.map_append, List.mem_append] at he'
    rcases he' with he' | he'
    · exact he'
    · rw [List.mem_singleton.mp he', hlink] at hnode
      cases hnode
  · intro e' he'
    rw [List.map_append]
    exact List.mem_append_left _ he'
  · intro e' _ hnode
    have hne : e' ≠ e := by
      rintro rfl
      rw [hlink] at hnode
      cases hnode
    unfold Kscheme.nestedByPurpose Kscheme.bodyOf
    rw [link_entry s e src e' hne]
    rfl

variable (F : Forest p₀.work p₀.scheme.nested)
  (hown : ∀ e e', (p₀.scheme.entry e).body = (p₀.scheme.entry e').body → e = e')
include F

/-- The walk has been to the ENTRY that the one it comes to is nested in. -/
theorem Settled.parent_done (h : Settled p₀ ⟨s, e :: work, ok, error⟩ log) {q : EntryId}
    (hq : e ∈ p₀.scheme.nested q) : q ∈ log.map Prod.fst ∧ p₀.scheme.isLink q = false := by
  have hmem : e ∈ log.map Prod.fst ++ e :: work := List.mem_append_right _ List.mem_cons_self
  rcases h.order.origin e hmem with hroot | ⟨d, hd, hnext⟩
  · exact absurd hq (F.root hroot)
  · obtain ⟨hgo, hnext⟩ := mem_spread.mp hnext
    obtain rfl : d = q := F.parent hnext hq
    exact ⟨hd, hgo⟩

include hown

theorem LogsInherited.walk_node (h : LogsInherited p₀ ⟨s, e :: work, ok, error⟩ log)
    (hat : Settled p₀ ⟨s, e :: work, ok, error⟩ log)
    (htable : ∀ e purpose, p₀.scheme.nestedByPurpose e purpose = none)
    (hparent : ∀ e q, (p₀.scheme.entry e).parent = some q → e ∈ p₀.scheme.nested q)
    (hnode : p₀.scheme.isLink e = false) {ok' : Bool} {error' : List String} :
    LogsInherited p₀ ⟨s.enter e, s.nested e ++ work, ok', error'⟩ (log ++ [(e, e)]) := by
  have hfresh : e ∉ log.map Prod.fst := hat.order.fresh
  have hkeys : (log ++ [(e, e)]).map Prod.fst = log.map Prod.fst ++ [e] := List.map_append
  have hentry : ∀ {e'}, p₀.scheme.isLink e' = false → s.entry e' = p₀.scheme.entry e' :=
    fun hnode' => hat.node_entry hnode'
  -- The walk leaves the LOGs of those it has been to.
  have hkept : ∀ e' ∈ log.map Prod.fst, p₀.scheme.isLink e' = false →
      (s.enter e).nestedByPurpose e' .log = s.nestedByPurpose e' .log := by
    intro e' he' hnode'
    have hsame := sameBut_enter s e
    unfold Kscheme.nestedByPurpose Kscheme.bodyOf
    rw [hsame.entry, hsame.body]
    rw [hentry hnode, hentry hnode']
    exact fun heq => hfresh (hown e' e heq ▸ he')
  have hdone : ∀ q, (p₀.scheme.entry e).parent = some q →
      q ∈ log.map Prod.fst ∧ p₀.scheme.isLink q = false :=
    fun q hq => hat.parent_done F (hparent e q hq)
  intro e' he' hnode'
  rw [hkeys, List.mem_append] at he'
  rcases he' with he' | he'
  · obtain ⟨heq, hparents⟩ := h e' he' hnode'
    have hparents' : ∀ q, (p₀.scheme.entry e').parent = some q →
        q ∈ (log ++ [(e, e)]).map Prod.fst ∧ p₀.scheme.isLink q = false := by
      intro q hq
      rw [hkeys]
      exact ⟨List.mem_append_left _ (hparents q hq).1, (hparents q hq).2⟩
    refine ⟨?_, hparents'⟩
    rw [hkept e' he' hnode', heq]
    cases hq : (p₀.scheme.entry e').parent with
    | none => rfl
    | some q =>
      obtain ⟨hdone', hgo⟩ := hparents q hq
      dsimp only
      rw [hkept q hdone' hgo]
  · obtain rfl := List.mem_singleton.mp he'
    have hparents : ∀ q, (p₀.scheme.entry e').parent = some q →
        q ∈ (log ++ [(e', e')]).map Prod.fst ∧ p₀.scheme.isLink q = false := by
      intro q hq
      rw [hkeys]
      exact ⟨List.mem_append_left _ (hdone q hq).1, (hdone q hq).2⟩
    refine ⟨?_, hparents⟩
    -- Its lists are still as they were loaded.
    have hempty : s.nestedByPurpose e' .log = none := by
      have hbody : s.body (p₀.scheme.entry e').body = p₀.scheme.body (p₀.scheme.entry e').body := by
        apply hat.body
        intro e₁ he₁ _ heq
        exact hfresh (hown e₁ e' heq ▸ he₁)
      unfold Kscheme.nestedByPurpose Kscheme.bodyOf
      rw [hentry hnode, hbody]
      exact htable e' .log
    have hlast : s.lastOfPurpose e' .log = p₀.scheme.lastOfPurpose e' .log := by
      have hnested : s.nested e' = p₀.scheme.nested e' := hat.node_nested hnode
      have hpurpose : s.purpose = p₀.scheme.purpose := hat.purpose
      unfold lastOfPurpose
      rw [hnested, hpurpose]
    have hapart : ∀ q, (s.entry e').parent = some q → (s.entry q).body ≠ (s.entry e').body := by
      rw [hentry hnode]
      intro q hq
      obtain ⟨hmem, hgo⟩ := hdone q hq
      rw [hentry hgo]
      exact fun heq => hfresh (hown q e' heq ▸ hmem)
    rw [enter_log s e' hempty hapart, hlast]
    unfold inheritedLog
    rw [hentry hnode]
    cases hq : (p₀.scheme.entry e').parent with
    | none =>
      have hentrys : s.entrys = p₀.scheme.entrys := hat.entrys
      have hpurpose : s.purpose = p₀.scheme.purpose := hat.purpose
      dsimp only
      rw [hentrys, hpurpose]
      rfl
    | some q =>
      obtain ⟨hmem, hgo⟩ := hdone q hq
      dsimp only
      rw [hkept q hmem hgo]

/-- A walk without an error gives the LOGs on. -/
theorem LogsInherited.trans (h : LogsInherited p₀ p log) (hat : Settled p₀ p log)
    (htable : ∀ e purpose, p₀.scheme.nestedByPurpose e purpose = none)
    (hparent : ∀ e q, (p₀.scheme.entry e).parent = some q → e ∈ p₀.scheme.nested q)
    (hwalk : Walks p q) (hok : q.ok = true) :
    ∃ more, Settled p₀ q (log ++ more) ∧ LogsInherited p₀ q (log ++ more) := by
  induction hwalk with
  | refl =>
    refine ⟨[], ?_⟩
    rw [List.append_nil]
    exact ⟨hat, h⟩
  | tail _ hstep ih =>
    cases hstep with
    | missing => cases hok
    | @link s e src _ _ _ hlink htarget =>
      obtain ⟨more, hsettled, hlogs⟩ := ih hok
      refine ⟨more ++ [(e, src)], ?_⟩
      rw [← List.append_assoc]
      refine ⟨hsettled.walk_link F hlink htarget, hlogs.walk_link ?_⟩
      rw [← hlink]
      exact congrFun hsettled.isLink.symm e
    | @node s e _ _ _ hnode =>
      obtain ⟨hok, hactions⟩ := Bool.and_eq_true_iff.mp hok
      obtain ⟨more, hsettled, hlogs⟩ := ih hok
      have hnode₀ : p₀.scheme.isLink e = false := by
        rw [← hnode]
        exact congrFun hsettled.isLink.symm e
      refine ⟨more ++ [(e, e)], ?_⟩
      rw [← List.append_assoc]
      exact ⟨hsettled.walk_node F hown htable hnode hactions,
        hlogs.walk_node F hown hsettled htable hparent hnode₀⟩

end Step

end Pass

namespace Kscheme

variable {scheme : Kscheme} {slot : EntryId → Option EntryId} {e q log : EntryId}

/-- Each ENTRY has its own LOG, or the one its parent has. -/
def Inherits (scheme : Kscheme) (slot : EntryId → Option EntryId) : Prop :=
  ∀ e, scheme.Plain e → slot e = (scheme.lastOfPurpose e .log).or
    (match (scheme.entry e).parent with
      | none => scheme.topLog
      | some q => slot q)

theorem mem_of_lastOfPurpose {purpose : KentryPurpose} {n : EntryId}
    (h : scheme.lastOfPurpose e purpose = some n) : n ∈ scheme.nested e :=
  List.mem_of_mem_filter (List.mem_of_getLast? h)

theorem mem_of_topLog (h : scheme.topLog = some log) : log ∈ scheme.entrys :=
  List.mem_of_mem_filter (List.mem_of_getLast? h)

section Nearest

variable (h : scheme.Declared)
include h

/-- A prepared scheme has the LOGs that were inherited on the way down. -/
theorem Declared.inherits {loadPlugins : List Kplugin → Option (List Kplugin)}
    {plugins : List Kplugin} (hload : loadPlugins scheme.plugins = some plugins) {fuel : ℕ}
    {r : Report} (hrun : prepare loadPlugins fuel scheme = some r) (hok : r.ok = true) :
    scheme.Inherits fun e => r.scheme.nestedByPurpose e .log := by
  obtain ⟨error, hwalk⟩ := (h.prepare_ok_iff hload).mp ⟨fuel, r, hrun, hok, rfl⟩
  have hstart : Pass.LogsInherited (scheme.start plugins) (scheme.start plugins) [] := by
    intro e he
    cases he
  obtain ⟨log, hend, hlogs⟩ := hstart.trans h.forest h.ownBody
    (Pass.Settled.start h.forest.nodupRoots) h.emptyTable h.parent hwalk rfl
  intro e he
  exact (hlogs e ((h.mem_log hend he.reached).mpr he.outside) he.node).1

theorem Declared.plain_of_nested (he : scheme.Plain e) (hq : e ∈ scheme.nested q) :
    scheme.Plain q := by
  have hnode : scheme.isLink q = false := by
    by_contra hlink
    exact he.outside ⟨q, by simpa using hlink, .single hq⟩
  refine ⟨?_, hnode, fun hunder => he.outside (hunder.child hq)⟩
  cases he.reached with
  | root hroot => exact absurd hq (h.forest.root hroot)
  | @child a _ ha hmem =>
    obtain rfl : a = q := h.forest.parent hmem hq
    exact ha

/-- There is one nearest LOG, or there is none. -/
theorem Declared.nearestLog_unique {l l' : Option EntryId} (hl : NearestLog scheme e l)
    (hl' : NearestLog scheme e l') : l = l' := by
  induction hl with
  | own hlog =>
    cases hl' with
    | own hlog' => exact hlog.symm.trans hlog'
    | up hnone | top hnone =>
      rw [hlog] at hnone
      cases hnone
  | up hnone hq _ ih =>
    cases hl' with
    | own hlog' =>
      rw [hlog'] at hnone
      cases hnone
    | @up _ q' _ _ hq' hl' =>
      obtain rfl := h.forest.parent hq hq'
      exact ih hl'
    | top _ htop => exact absurd hq (h.forest.root htop)
  | top hnone htop =>
    cases hl' with
    | own hlog' =>
      rw [hlog'] at hnone
      cases hnone
    | up _ hq _ => exact absurd hq (h.forest.root htop)
    | top => rfl

/-- What an ENTRY is nested in is what its parent is nested in, and the parent. -/
theorem Declared.above (hq : e ∈ scheme.nested q) {a : EntryId}
    (ha : Relation.TransGen (fun q e => e ∈ scheme.nested q) a e) :
    a = q ∨ Relation.TransGen (fun q e => e ∈ scheme.nested q) a q := by
  obtain ⟨c, hac, hc⟩ := Relation.TransGen.tail'_iff.mp ha
  obtain rfl : c = q := h.forest.parent hc hq
  rcases Relation.reflTransGen_iff_eq_or_transGen.mp hac with heq | hac
  · exact .inl heq.symm
  · exact .inr hac

theorem Declared.not_above_top (htop : e ∈ scheme.entrys) {a : EntryId} :
    ¬Relation.TransGen (fun q e => e ∈ scheme.nested q) a e := by
  intro ha
  obtain ⟨c, -, hc⟩ := Relation.TransGen.tail'_iff.mp ha
  exact h.forest.root htop hc

omit h in
/-- Where no LOG is nested on the way up, the top-level one is the nearest. -/
theorem nearestLog_topLog (he : Reached scheme.entrys scheme.nested e)
    (hown : scheme.lastOfPurpose e .log = none)
    (hnone : ∀ q, Relation.TransGen (fun q e => e ∈ scheme.nested q) q e →
      scheme.lastOfPurpose q .log = none) : NearestLog scheme e scheme.topLog := by
  induction he with
  | root htop => exact .top hown htop
  | @child a b _ hb ih =>
    apply NearestLog.up hown hb
    apply ih
    · exact hnone a (.single hb)
    · intro q hq
      exact hnone q (hq.tail hb)

omit h in
theorem exists_nearestLog (he : Reached scheme.entrys scheme.nested e) :
    ∃ l, NearestLog scheme e l := by
  induction he with
  | @root e htop =>
    cases hown : scheme.lastOfPurpose e .log with
    | some log => exact ⟨some log, .own hown⟩
    | none => exact ⟨scheme.topLog, .top hown htop⟩
  | @child a e _ he ih =>
    cases hown : scheme.lastOfPurpose e .log with
    | some log => exact ⟨some log, .own hown⟩
    | none =>
      obtain ⟨l, hl⟩ := ih
      exact ⟨l, .up hown he hl⟩

/-- The other way round. A top-level LOG is not nested in an ENTRY. -/
theorem Declared.none_of_topLog {l : Option EntryId} (hl : NearestLog scheme e l)
    (htop : l = scheme.topLog) : scheme.lastOfPurpose e .log = none ∧
      ∀ q, Relation.TransGen (fun q e => e ∈ scheme.nested q) q e →
        scheme.lastOfPurpose q .log = none := by
  induction hl with
  | own hlog =>
    have hroot := mem_of_topLog htop.symm
    exact absurd (mem_of_lastOfPurpose hlog) (h.forest.root hroot)
  | @up e q _ hnone hq _ ih =>
    obtain ⟨hown, habove⟩ := ih htop
    refine ⟨hnone, fun a ha => ?_⟩
    rcases h.above hq ha with rfl | ha
    · exact hown
    · exact habove a ha
  | top hnone hroot => exact ⟨hnone, fun a ha => absurd ha (h.not_above_top hroot)⟩

/-- The nearest LOG of an ENTRY without its own is that of the ENTRY it is nested in. -/
theorem Declared.nearestLog_above {l : Option EntryId} (hl : NearestLog scheme e l)
    (hown : scheme.lastOfPurpose e .log = none) (hq : e ∈ scheme.nested q) :
    NearestLog scheme q l := by
  cases hl with
  | own hlog =>
    rw [hlog] at hown
    cases hown
  | @up _ q' _ _ hq' hl =>
    obtain rfl := h.forest.parent hq hq'
    exact hl
  | top _ htop => exact absurd hq (h.forest.root htop)

theorem Declared.nearestLog_of_tell (hslot : scheme.Inherits slot) (he : scheme.Plain e)
    (htell : ParentsTell scheme e) : NearestLog scheme e (slot e) := by
  induction htell with
  | @own e log hlog =>
    rw [hslot e he, hlog]
    exact .own hlog
  | @up e q hparent _ ih =>
    have hq := h.parent e q hparent
    cases hown : scheme.lastOfPurpose e .log with
    | some log =>
      rw [hslot e he, hown]
      exact .own hown
    | none =>
      rw [hslot e he, hown, Option.none_or, hparent]
      exact .up hown hq (ih (h.plain_of_nested he hq))
  | @bare e hparent hnone =>
    cases hown : scheme.lastOfPurpose e .log with
    | some log =>
      rw [hslot e he, hown]
      exact .own hown
    | none =>
      rw [hslot e he, hown, Option.none_or, hparent]
      exact nearestLog_topLog he.reached hown hnone

theorem Declared.tell_of_nearestLog (hslot : scheme.Inherits slot) (he : scheme.Plain e)
    (hnearest : NearestLog scheme e (slot e)) : ParentsTell scheme e := by
  have hreached := he.reached
  induction hreached with
  | @root e htop =>
    refine .bare ?_ fun q hq => absurd hq (h.not_above_top htop)
    rw [Option.eq_none_iff_forall_not_mem]
    intro q hq
    exact h.forest.root htop (h.parent e q hq)
  | @child a e _ ha ih =>
    cases hown : scheme.lastOfPurpose e .log with
    | some log => exact .own hown
    | none =>
      cases hparent : (scheme.entry e).parent with
      | none =>
        have htop : slot e = scheme.topLog := by
          rw [hslot e he, hown, Option.none_or, hparent]
        exact .bare hparent (h.none_of_topLog hnearest htop).2
      | some q =>
        obtain rfl : q = a := h.forest.parent (h.parent e q hparent) ha
        have hsame : slot e = slot q := by
          rw [hslot e he, hown, Option.none_or, hparent]
        refine .up hparent (ih (h.plain_of_nested he ha) ?_)
        rw [← hsame]
        exact h.nearestLog_above hnearest hown ha

end Nearest

end Kscheme

/-- `ktpd_session_log` with a LOG for each command that may be another one than in the table. -/
def Ktpd.logWith {env : KtpdEnv} (sys : KtpdSys) (ktpd : Ktpd env) (log : EntryId → Option EntryId)
    (exec : KtpdExec) : Ktpd env :=
  exec.contexts.foldl (fun ktpd context =>
    match context.pargv.command.bind log with
    | none => ktpd
    | some log =>
      if (env.scheme.actions log).isEmpty then ktpd
      else ktpd.withSession
        (ktpd.world.session.noteStopped (sys.V log context.pargv.pargs none))) ktpd

theorem Ktpd.logWith_congr {env : KtpdEnv} (sys : KtpdSys) {log log' : EntryId → Option EntryId}
    (contexts : List Kcontext) (hlog : ∀ context ∈ contexts, ∀ e, context.pargv.command = some e →
      log e = log' e) (ktpd : Ktpd env) (exec : KtpdExec) (hexec : exec.contexts = contexts) :
    ktpd.logWith sys log exec = ktpd.logWith sys log' exec := by
  subst hexec
  apply List.foldl_ext
  intro ktpd context hmem
  have hsame : context.pargv.command.bind log = context.pargv.command.bind log' := by
    cases hcommand : context.pargv.command with
    | none => rfl
    | some e => exact hlog context hmem e hcommand
  rw [hsame]

namespace Kscheme

variable {scheme : Kscheme}

/-- After the preparation an ENTRY has the nearest LOG exactly if the parents tell of it, and
the server runs the nearest LOGs of the commands of a pipeline where that is so. -/
theorem nearestLog_iff (h : scheme.Declared) {loadPlugins : List Kplugin → Option (List Kplugin)}
    {plugins : List Kplugin} (hload : loadPlugins scheme.plugins = some plugins) {fuel : ℕ}
    {r : Report} (hrun : prepare loadPlugins fuel scheme = some r) (hok : r.ok = true) :
    (∀ e, scheme.Plain e →
      (NearestLog scheme e (r.scheme.nestedByPurpose e .log) ↔ ParentsTell scheme e)) ∧
    ∀ nearest : EntryId → Option EntryId,
      (∀ e, scheme.Plain e → NearestLog scheme e (nearest e)) →
      ∀ (env : KtpdEnv) (sys : KtpdSys) (ktpd : Ktpd env) (exec : KtpdExec),
        env.scheme = r.scheme →
        (∀ context ∈ exec.contexts, ∀ e, context.pargv.command = some e →
          scheme.Plain e ∧ ParentsTell scheme e) →
        ktpd.sessionLog sys exec = ktpd.logWith sys nearest exec := by
  have hslot := h.inherits hload hrun hok
  refine ⟨fun e he => ⟨h.tell_of_nearestLog hslot he, h.nearestLog_of_tell hslot he⟩, ?_⟩
  intro nearest hnearest env sys ktpd exec hscheme hcommands
  have hlog : ktpd.sessionLog sys exec =
      ktpd.logWith sys (fun e => env.scheme.nestedByPurpose e .log) exec := rfl
  rw [hlog]
  refine Ktpd.logWith_congr sys exec.contexts ?_ ktpd exec rfl
  intro context hmem e hcommand
  obtain ⟨he, htell⟩ := hcommands context hmem e hcommand
  rw [hscheme]
  exact h.nearestLog_unique (h.nearestLog_of_tell hslot he htell) (hnearest e he)

/-- A VIEW with a LOG and a COMMAND, and the PTYPE that the loader adds to the COMMAND. -/
def loggedScheme : Kscheme where
  plugins := [⟨"klish", [⟨"COMMAND", .no, .no, false⟩]⟩]
  entrys := [0]
  entry e := { Kentry.new (["main", "log", "ping"].getD e "__ptype") e with
    parent := [none, some 0, some 0].getD e none
    purpose := [.common, .log, .common].getD e .ptype }
  body b := { Kbody.new with
    entrys := [[1, 2], [], [3]].getD b []
    actions := [[], [], [], [{ Kaction.new with
      symRef := some "COMMAND@klish", permanent := .yes }]].getD b [] }

theorem loggedScheme_declared : loggedScheme.Declared where
  legalFilter e := by
    intro h
    cases h
  ownBody e e' h := h
  unresolved e action haction := by
    match e with
    | 3 =>
      rw [List.mem_singleton.mp haction]
      rfl
    | 0 | 1 | 2 | _ + 4 => cases haction
  emptyTable e purpose := rfl
  forest := by
    have hforest : Forest [0] fun e => [[1, 2], [], [3]].getD e [] :=
      Forest.of_table (by decide) (by decide)
    exact hforest
  parent e q hq := by
    match e with
    | 1 | 2 =>
      obtain rfl := Option.some.inj hq
      decide
    | 0 | _ + 3 => cases hq

theorem loggedScheme_ping : Reached loggedScheme.entrys loggedScheme.nested 2 := by
  have hmain : Reached loggedScheme.entrys loggedScheme.nested 0 := .root List.mem_cons_self
  exact hmain.child (by decide)

theorem loggedScheme_plain {e : EntryId}
    (he : Reached loggedScheme.entrys loggedScheme.nested e) : loggedScheme.Plain e := by
  refine ⟨he, rfl, ?_⟩
  rintro ⟨k, hk, -⟩
  cases hk

theorem nearestLog_iff_sample : ∃ r, prepare some 4 loggedScheme = some r ∧
    (NearestLog loggedScheme 2 (r.scheme.nestedByPurpose 2 .log) ↔
      ParentsTell loggedScheme 2) := by
  have hok : (prepare some 4 loggedScheme).map Report.ok = some true := by decide +kernel
  obtain ⟨r, hrun, hok⟩ := Option.map_eq_some_iff.mp hok
  exact ⟨r, hrun, (nearestLog_iff loggedScheme_declared rfl hrun hok).1 2
    (loggedScheme_plain loggedScheme_ping)⟩

/-- The PTYPE of the COMMAND has no LOG, while one is nested in the VIEW. -/
theorem nearest_log_missed : loggedScheme.Declared ∧ loggedScheme.Plain 3 ∧
    ∃ r, prepare some 4 loggedScheme = some r ∧ r.ok = true ∧
      r.scheme.nestedByPurpose 3 .log = none ∧ NearestLog loggedScheme 3 (some 1) ∧
      ¬NearestLog loggedScheme 3 none := by
  have hok : (prepare some 4 loggedScheme).map
      (fun r => (r.ok, r.scheme.nestedByPurpose 3 .log)) = some (true, none) := by decide +kernel
  obtain ⟨r, hrun, hr⟩ := Option.map_eq_some_iff.mp hok
  obtain ⟨hok, hslot⟩ := Prod.mk.inj hr
  have hnearest : NearestLog loggedScheme 3 (some 1) := by
    apply NearestLog.up (q := 2) (by decide) (by decide)
    apply NearestLog.up (q := 0) (by decide) (by decide)
    exact .own (by decide)
  refine ⟨loggedScheme_declared, ?_, r, hrun, hok, hslot, hnearest, ?_⟩
  · exact loggedScheme_plain (loggedScheme_ping.child (by decide))
  · intro hnone
    have hsame := loggedScheme_declared.nearestLog_unique hnone hnearest
    cases hsame

end Kscheme

end Klish
