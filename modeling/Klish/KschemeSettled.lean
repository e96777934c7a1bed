import Klish.KschemeRefs
import Klish.Lib.Forests

/-!
# What the preparation leaves behind

The nesting of the declarations is a forest, and the walk takes each ENTRY that is not inside a
link once. The lists of an ENTRY that is no link are prepared when the walk comes to it, and a link
takes over the lists of its target. All else stays as it was loaded.
-/

namespace Klish

open Forests

namespace Kscheme

variable {scheme : Kscheme}

/-- A scheme as the loader leaves it: the declarations are nested like trees, each with its own
lists, and nothing is prepared. -/
structure Fresh (scheme : Kscheme) : Prop extends scheme.Loaded where
  forest : Forest scheme.entrys scheme.nested
  emptyTable : ∀ e purpose, scheme.nestedByPurpose e purpose = none

/-- The ENTRY is a reference to another one. -/
def isLink (scheme : Kscheme) (e : EntryId) : Bool := (scheme.entry e).refStr.isSome

/-- The last nested ENTRY of a purpose. -/
def lastOfPurpose (scheme : Kscheme) (e : EntryId) (purpose : KentryPurpose) : Option EntryId :=
  ((scheme.nested e).filter fun n => scheme.purpose n == purpose).getLast?

theorem setNestedByPurpose_entry (e : EntryId) (purpose : KentryPurpose) (nested : Option EntryId) :
    (scheme.setNestedByPurpose e purpose nested).entry = scheme.entry := rfl

theorem setNestedByPurpose_actions (e : EntryId) (purpose : KentryPurpose)
    (nested : Option EntryId) (e' : EntryId) :
    (scheme.setNestedByPurpose e purpose nested).actions e' = scheme.actions e' := by
  unfold actions bodyOf
  rw [setNestedByPurpose_entry, setNestedByPurpose, setBody_body]
  split
  · rename_i hb
    rw [hb]
    rfl
  · rfl

theorem setNestedByPurpose_slot (e : EntryId) (purpose p : KentryPurpose)
    (nested : Option EntryId) :
    (scheme.setNestedByPurpose e purpose nested).nestedByPurpose e p =
      if p = purpose then nested else scheme.nestedByPurpose e p := by
  unfold nestedByPurpose bodyOf
  rw [setNestedByPurpose_entry, setNestedByPurpose, setBody_body, if_pos rfl]
  rfl

/-- The loop over the nested ENTRYs of `kscheme_prepare_entry`. -/
def linkNested (scheme : Kscheme) (e : EntryId) (entrys : List EntryId) : Kscheme :=
  entrys.foldl (fun scheme nested =>
    scheme.setNestedByPurpose e (scheme.purpose nested) (some nested)) scheme

theorem linkNested_spec (e : EntryId) (entrys : List EntryId) (s : Kscheme) :
    (linkNested s e entrys).entry = s.entry ∧
      (∀ e', (linkNested s e entrys).actions e' = s.actions e') ∧
      ∀ p, (linkNested s e entrys).nestedByPurpose e p =
        ((entrys.filter fun n => s.purpose n == p).getLast?).or (s.nestedByPurpose e p) := by
  induction entrys generalizing s with
  | nil => exact ⟨rfl, fun _ => rfl, fun _ => rfl⟩
  | cons n entrys ih =>
    obtain ⟨hentry, hactions, hslot⟩ := ih (s.setNestedByPurpose e (s.purpose n) (some n))
    refine ⟨hentry, fun e' => ?_, fun p => ?_⟩
    · exact (hactions e').trans (setNestedByPurpose_actions ..)
    · have hpurpose : (s.setNestedByPurpose e (s.purpose n) (some n)).purpose = s.purpose := rfl
      refine (hslot p).trans ?_
      rw [hpurpose, setNestedByPurpose_slot]
      by_cases hp : p = s.purpose n
      · subst hp
        rw [List.filter_cons_of_pos (by simp), if_pos rfl]
        cases hlast : (entrys.filter fun m => s.purpose m == s.purpose n).getLast? with
        | none => simp [List.getLast?_eq_none_iff.mp hlast]
        | some last =>
          rw [List.getLast?_cons, hlast]
          rfl
      · rw [List.filter_cons_of_neg (by simpa using Ne.symm hp), if_neg hp]

/-- The table of an ENTRY after its fast links were made. Only LOG is inherited. -/
theorem linkPurposes_spec (s : Kscheme) (e : EntryId) :
    (∀ e', (s.linkPurposes e).actions e' = s.actions e') ∧
      (∀ p, p ≠ .log → (s.linkPurposes e).nestedByPurpose e p =
        (s.lastOfPurpose e p).or (s.nestedByPurpose e p)) ∧
      ∀ log, s.lastOfPurpose e .log = some log →
        (s.linkPurposes e).nestedByPurpose e .log = some log := by
  obtain ⟨-, hactions, hslot⟩ := linkNested_spec e (s.nested e) s
  refine ⟨fun e' => ?_, fun p hp => ?_, fun log hlog => ?_⟩
  · rw [linkPurposes]
    split
    · exact hactions e'
    · split
      · exact hactions e'
      · rw [setNestedByPurpose_actions]
        exact hactions e'
  · rw [linkPurposes]
    split
    · exact hslot p
    · split
      · exact hslot p
      · rw [setNestedByPurpose_slot, if_neg hp]
        exact hslot p
  · have hsome : (linkNested s e (s.nested e)).nestedByPurpose e .log = some log := by
      rw [hslot]
      unfold lastOfPurpose at hlog
      rw [hlog]
      rfl
    rw [linkPurposes]
    refine (congrArg (fun s : Kscheme => s.nestedByPurpose e .log) (if_pos ?_)).trans hsome
    exact Option.isSome_of_eq_some hsome

/-- What the walk leaves of an ENTRY that is no link. -/
theorem enter_spec (s : Kscheme) (e : EntryId) :
    (s.enter e).actions e = (s.actions e).map (fun action => (s.prepareAction e action).1) ∧
      (∀ p, p ≠ .log → (s.enter e).nestedByPurpose e p =
        (s.lastOfPurpose e p).or (s.nestedByPurpose e p)) ∧
      ∀ log, s.lastOfPurpose e .log = some log →
        (s.enter e).nestedByPurpose e .log = some log := by
  have hactions : (s.prepareActionList e).scheme.actions e =
      (s.actions e).map (fun action => (s.prepareAction e action).1) := by
    unfold prepareActionList actions bodyOf
    rw [setBody_entry, setBody_body, if_pos rfl, List.map_map]
    rfl
  have hsame : SameBut e s (s.prepareActionList e).scheme := .setBody rfl rfl
  have hlast : (s.prepareActionList e).scheme.lastOfPurpose e = s.lastOfPurpose e := by
    funext p
    unfold lastOfPurpose purpose
    rw [hsame.nested_eq, hsame.entry]
  have htable : (s.prepareActionList e).scheme.nestedByPurpose e = s.nestedByPurpose e := by
    funext p
    unfold prepareActionList nestedByPurpose bodyOf
    rw [setBody_entry, setBody_body, if_pos rfl]
  obtain ⟨hkept, hslot, hlog⟩ := linkPurposes_spec (s.prepareActionList e).scheme e
  rw [hlast] at hslot hlog
  rw [htable] at hslot
  exact ⟨(hkept e).trans hactions, hslot, hlog⟩

/-- What is found for an ACTION depends on the plugins and on the ENTRY. -/
theorem prepareAction_congr {s s' : Kscheme} {e : EntryId} (hplugins : s'.plugins = s.plugins)
    (hentry : s'.entry e = s.entry e) : s'.prepareAction e = s.prepareAction e := by
  have hfind : s'.findSym = s.findSym := by
    funext name
    unfold findSym
    rw [hplugins]
  funext action
  unfold prepareAction Kscheme.name
  rw [hfind, hentry]

/-- The lists of an ENTRY that is no link are prepared. The first scheme is the loaded one. -/
structure Ready (s₀ s : Kscheme) (e : EntryId) : Prop where
  actions : s.actions e = (s₀.actions e).map fun action => (s₀.prepareAction e action).1
  resolved : ∀ action ∈ s₀.actions e, (s₀.prepareAction e action).2 = none
  slot : ∀ p, p ≠ .log → s.nestedByPurpose e p = s₀.lastOfPurpose e p
  log : ∀ log, s₀.lastOfPurpose e .log = some log → s.nestedByPurpose e .log = some log

theorem Ready.congr {s₀ s s' : Kscheme} {e : EntryId} (h : Ready s₀ s e)
    (hbody : s'.bodyOf e = s.bodyOf e) : Ready s₀ s' e where
  actions := by
    unfold Kscheme.actions
    rw [hbody]
    exact h.actions
  resolved := h.resolved
  slot p hp := by
    unfold nestedByPurpose
    rw [hbody]
    exact h.slot p hp
  log l hl := by
    unfold nestedByPurpose
    rw [hbody]
    exact h.log l hl

/-- The walk makes the lists of an ENTRY ready if they are still as they were loaded. -/
theorem ready_enter {s₀ s : Kscheme} {e : EntryId} (hplugins : s.plugins = s₀.plugins)
    (hentry : s.entry e = s₀.entry e) (hbody : s.bodyOf e = s₀.bodyOf e)
    (hpurpose : s.purpose = s₀.purpose) (htable : ∀ p, s₀.nestedByPurpose e p = none)
    (hok : (s.prepareActionList e).ok = true) : Ready s₀ (s.enter e) e := by
  obtain ⟨hactions, hslot, hlog⟩ := enter_spec s e
  have hprepare : s.prepareAction e = s₀.prepareAction e := prepareAction_congr hplugins hentry
  have hlist : s.actions e = s₀.actions e := congrArg Kbody.actions hbody
  have hnested : s.nested e = s₀.nested e := congrArg Kbody.entrys hbody
  have hlast : s.lastOfPurpose e = s₀.lastOfPurpose e := by
    funext p
    unfold lastOfPurpose
    rw [hnested, hpurpose]
  have hempty : ∀ p, s.nestedByPurpose e p = none := by
    intro p
    rw [← htable p]
    exact congrFun (congrArg Kbody.nestedByPurpose hbody) p
  refine ⟨?_, fun action haction => ?_, fun p hp => ?_, fun log hl => ?_⟩
  · rw [hactions, hprepare, hlist]
  · unfold prepareActionList at hok
    rw [hprepare, hlist] at hok
    have hnone := List.all_eq_true.mp hok _ (List.mem_map_of_mem haction)
    simpa using hnone
  · rw [hslot p hp, hempty, Option.or_none, hlast]
  · exact hlog log (by rwa [hlast])

end Kscheme

namespace Pass

open Kscheme

/-- The walk comes to a link while its references lead to the ENTRY. -/
def LinksTo (p₀ : Pass) (e src : EntryId) : Prop :=
  ∃ s work ok error, Walks p₀ ⟨s, e :: work, ok, error⟩ ∧ s.isLink e = true ∧
    s.Target e (.ok src)

/-- What the walk has done so far. The log has each ENTRY it has been to, with the ENTRY whose
lists that one has now. -/
structure Settled (p₀ p : Pass) (log : List (EntryId × EntryId)) : Prop where
  walks : Walks p₀ p
  order : Preorder p₀.work (Forests.spread p₀.scheme.isLink p₀.scheme.nested) p.work
    (log.map Prod.fst)
  reached : ∀ e ∈ log.map Prod.fst,
    Reached p₀.work (Forests.spread p₀.scheme.isLink p₀.scheme.nested) e
  plugins : p.scheme.plugins = p₀.scheme.plugins
  entrys : p.scheme.entrys = p₀.scheme.entrys
  nested : ∀ b, (p.scheme.body b).entrys = (p₀.scheme.body b).entrys
  hotkeys : ∀ b, (p.scheme.body b).hotkeys = (p₀.scheme.body b).hotkeys
  entry : ∀ e, (p₀.scheme.isLink e = true → e ∉ log.map Prod.fst) →
    p.scheme.entry e = p₀.scheme.entry e
  link : ∀ e src, (e, src) ∈ log → p₀.scheme.isLink e = true →
    LinksTo p₀ e src ∧ p₀.scheme.isLink src = false ∧
      p.scheme.entry e = (p₀.scheme.link e src).entry e
  node : ∀ e src, (e, src) ∈ log → p₀.scheme.isLink e = false →
    src = e ∧ Ready p₀.scheme p.scheme e
  body : ∀ b, (∀ e ∈ log.map Prod.fst, p₀.scheme.isLink e = false → (p₀.scheme.entry e).body ≠ b) →
    p.scheme.body b = p₀.scheme.body b

variable {p₀ p q : Pass} {log : List (EntryId × EntryId)}

theorem Settled.start (hnodup : p₀.work.Nodup) : Settled p₀ p₀ [] where
  walks := .refl
  order := Preorder.start hnodup
  reached _ he := nomatch he
  plugins := rfl
  entrys := rfl
  nested _ := rfl
  hotkeys _ := rfl
  entry _ _ := rfl
  link _ _ h := nomatch h
  node _ _ h := nomatch h
  body _ _ := rfl

theorem link_entry (s : Kscheme) (dst src e : EntryId) (he : e ≠ dst) :
    (s.link dst src).entry e = s.entry e := if_neg he

theorem link_entry_self (s : Kscheme) (dst src : EntryId) :
    (s.link dst src).entry dst =
      { s.entry dst with
        help := (s.entry dst).help.or (s.entry src).help
        mode := (s.entry src).mode
        value := (s.entry dst).value.or (s.entry src).value
        filter := (s.entry src).filter
        body := (s.entry src).body } := if_pos rfl

/-- An ENTRY is as it was loaded, or it is a link and has been linked. -/
theorem Settled.entry_or_linked (h : Settled p₀ p log) (e : EntryId) :
    p.scheme.entry e = p₀.scheme.entry e ∨
      ∃ src, (e, src) ∈ log ∧ p₀.scheme.isLink e = true ∧
        p.scheme.entry e = (p₀.scheme.link e src).entry e := by
  by_cases hin : p₀.scheme.isLink e = true → e ∉ log.map Prod.fst
  · exact .inl (h.entry e hin)
  · simp only [not_forall, not_not] at hin
    obtain ⟨hlink, hkey⟩ := hin
    obtain ⟨⟨e', src⟩, hmem, rfl⟩ := List.mem_map.mp hkey
    exact .inr ⟨src, hmem, hlink, (h.link e' src hmem hlink).2.2⟩

theorem Settled.refStr (h : Settled p₀ p log) (e : EntryId) :
    (p.scheme.entry e).refStr = (p₀.scheme.entry e).refStr := by
  rcases h.entry_or_linked e with heq | ⟨src, -, -, heq⟩
  · rw [heq]
  · rw [heq, link_entry_self]

theorem Settled.name (h : Settled p₀ p log) : p.scheme.name = p₀.scheme.name := by
  funext e
  unfold Kscheme.name
  rcases h.entry_or_linked e with heq | ⟨src, -, -, heq⟩
  · rw [heq]
  · rw [heq, link_entry_self]

theorem Settled.purpose (h : Settled p₀ p log) : p.scheme.purpose = p₀.scheme.purpose := by
  funext e
  unfold Kscheme.purpose
  rcases h.entry_or_linked e with heq | ⟨src, -, -, heq⟩
  · rw [heq]
  · rw [heq, link_entry_self]

theorem Settled.isLink (h : Settled p₀ p log) : p.scheme.isLink = p₀.scheme.isLink := by
  funext e
  unfold Kscheme.isLink
  rw [h.refStr]

theorem Settled.node_entry (h : Settled p₀ p log) {e : EntryId}
    (hnode : p₀.scheme.isLink e = false) : p.scheme.entry e = p₀.scheme.entry e := by
  apply h.entry e
  intro hlink
  rw [hnode] at hlink
  cases hlink

theorem Settled.node_nested (h : Settled p₀ p log) {e : EntryId}
    (hnode : p₀.scheme.isLink e = false) : p.scheme.nested e = p₀.scheme.nested e := by
  unfold Kscheme.nested Kscheme.bodyOf
  rw [h.node_entry hnode, h.nested]

section Step

variable {s : Kscheme} {e src : EntryId} {work : List EntryId} {ok : Bool} {error : List String}
  (F : Forest p₀.work p₀.scheme.nested)
include F

theorem Settled.walk_link (h : Settled p₀ ⟨s, e :: work, ok, error⟩ log) (hlink : s.isLink e = true)
    (htarget : s.Target e (.ok src)) :
    Settled p₀ ⟨s.link e src, work, ok, error⟩ (log ++ [(e, src)]) := by
  have hlink₀ : p₀.scheme.isLink e = true := by rwa [← h.isLink]
  have hsrc : p₀.scheme.isLink src = false := by
    rw [← h.isLink]
    unfold Kscheme.isLink
    rw [htarget.node]
    rfl
  have hfresh : e ∉ log.map Prod.fst := h.order.fresh
  have hkeys : (log ++ [(e, src)]).map Prod.fst = log.map Prod.fst ++ [e] := List.map_append
  have hspread : Forests.spread p₀.scheme.isLink p₀.scheme.nested e = [] := if_pos hlink₀
  have hentry : s.entry e = p₀.scheme.entry e := h.entry e fun _ => hfresh
  have hsrcEntry : s.entry src = p₀.scheme.entry src := h.node_entry hsrc
  refine ⟨h.walks.tail (.link hlink htarget), ?_, ?_, h.plugins, h.entrys, h.nested, h.hotkeys,
    ?_, ?_, ?_, ?_⟩
  · have horder := h.order.step F
    rw [hspread] at horder
    rwa [hkeys]
  · rw [hkeys]
    intro e' he'
    rcases List.mem_append.mp he' with he' | he'
    · exact h.reached e' he'
    · rw [List.mem_singleton.mp he']
      exact h.order.reached h.reached List.mem_cons_self
  · rw [hkeys]
    intro e' he'
    have hne : e' ≠ e := by
      rintro rfl
      exact he' hlink₀ (List.mem_append_right _ List.mem_cons_self)
    rw [link_entry s e src e' hne]
    exact h.entry e' fun hlink' hmem => he' hlink' (List.mem_append_left _ hmem)
  · intro e' src' hmem hlink'
    rcases List.mem_append.mp hmem with hmem | hmem
    · obtain ⟨hto, hnode, hentry'⟩ := h.link e' src' hmem hlink'
      refine ⟨hto, hnode, ?_⟩
      have hkey : e' ∈ log.map Prod.fst := List.mem_map.mpr ⟨_, hmem, rfl⟩
      have hne : e' ≠ e := fun heq => hfresh (heq ▸ hkey)
      rw [link_entry s e src e' hne]
      exact hentry'
    · obtain ⟨rfl, rfl⟩ := Prod.mk.inj (List.mem_singleton.mp hmem)
      refine ⟨⟨s, work, ok, error, h.walks, hlink, htarget⟩, hsrc, ?_⟩
      unfold Kscheme.link setEntry
      simp only [if_true, hentry, hsrcEntry]
  · intro e' src' hmem hnode'
    rcases List.mem_append.mp hmem with hmem | hmem
    · obtain ⟨heq, hready⟩ := h.node e' src' hmem hnode'
      refine ⟨heq, hready.congr ?_⟩
      have hne : e' ≠ e := by
        rintro rfl
        rw [hnode'] at hlink₀
        cases hlink₀
      unfold Kscheme.bodyOf
      rw [link_entry s e src e' hne]
      rfl
    · obtain ⟨rfl, rfl⟩ := Prod.mk.inj (List.mem_singleton.mp hmem)
      rw [hnode'] at hlink₀
      cases hlink₀
  · rw [hkeys]
    intro b hb
    exact h.body b fun e' he' => hb e' (List.mem_append_left _ he')

variable (hown : ∀ e e', (p₀.scheme.entry e).body = (p₀.scheme.entry e').body → e = e')
  (htable : ∀ e purpose, p₀.scheme.nestedByPurpose e purpose = none)
include hown htable

theorem Settled.walk_node
    (h : Settled p₀ ⟨s, e :: work, ok, error⟩ log) (hnode : s.isLink e = false)
    (hok : (s.prepareActionList e).ok = true) :
    Settled p₀ ⟨s.enter e, s.nested e ++ work, ok && (s.prepareActionList e).ok,
      error ++ (s.prepareActionList e).error⟩ (log ++ [(e, e)]) := by
  have hnode₀ : p₀.scheme.isLink e = false := by rwa [← h.isLink]
  have hfresh : e ∉ log.map Prod.fst := h.order.fresh
  have hkeys : (log ++ [(e, e)]).map Prod.fst = log.map Prod.fst ++ [e] := List.map_append
  have hentry : s.entry e = p₀.scheme.entry e := h.node_entry hnode₀
  have hnested : s.nested e = p₀.scheme.nested e := h.node_nested hnode₀
  have hspread : Forests.spread p₀.scheme.isLink p₀.scheme.nested e = s.nested e := by
    rw [hnested]
    exact if_neg (by simp [hnode₀])
  have hsame := sameBut_enter s e
  -- No ENTRY that the walk has been to has these lists.
  have hbody : s.bodyOf e = p₀.scheme.bodyOf e := by
    unfold Kscheme.bodyOf
    rw [hentry]
    apply h.body
    intro e' he' _ heq
    exact hfresh (hown e' e heq ▸ he')
  have hother : ∀ e', p₀.scheme.isLink e' = false → e' ≠ e →
      (s.enter e).bodyOf e' = s.bodyOf e' := by
    intro e' hnode' hne
    unfold Kscheme.bodyOf
    rw [hsame.entry, hsame.body]
    have hentry' : s.entry e' = p₀.scheme.entry e' := h.node_entry hnode'
    rw [hentry, hentry']
    exact fun heq => hne (hown e' e heq)
  refine ⟨h.walks.tail (.node hnode), ?_, ?_, ?_, ?_, ?_, ?_, ?_, ?_, ?_, ?_⟩
  · have horder := h.order.step F
    rw [hspread] at horder
    rwa [hkeys]
  · rw [hkeys]
    intro e' he'
    rcases List.mem_append.mp he' with he' | he'
    · exact h.reached e' he'
    · rw [List.mem_singleton.mp he']
      exact h.order.reached h.reached List.mem_cons_self
  · exact hsame.plugins.trans h.plugins
  · exact hsame.entrys.trans h.entrys
  · exact fun b => (hsame.nested b).trans (h.nested b)
  · exact fun b => (hsame.hotkeys b).trans (h.hotkeys b)
  · rw [hkeys]
    intro e' he'
    refine (congrFun hsame.entry e').trans (h.entry e' fun hlink' hmem => ?_)
    exact he' hlink' (List.mem_append_left _ hmem)
  · intro e' src' hmem hlink'
    rcases List.mem_append.mp hmem with hmem | hmem
    · obtain ⟨hto, hsrc, hentry'⟩ := h.link e' src' hmem hlink'
      exact ⟨hto, hsrc, (congrFun hsame.entry e').trans hentry'⟩
    · obtain ⟨rfl, rfl⟩ := Prod.mk.inj (List.mem_singleton.mp hmem)
      rw [hnode₀] at hlink'
      cases hlink'
  · intro e' src' hmem hnode'
    rcases List.mem_append.mp hmem with hmem | hmem
    · obtain ⟨heq, hready⟩ := h.node e' src' hmem hnode'
      have hkey : e' ∈ log.map Prod.fst := List.mem_map.mpr ⟨_, hmem, rfl⟩
      exact ⟨heq, hready.congr (hother e' hnode' fun heq' => hfresh (heq' ▸ hkey))⟩
    · obtain ⟨rfl, rfl⟩ := Prod.mk.inj (List.mem_singleton.mp hmem)
      refine ⟨rfl, ?_⟩
      exact ready_enter h.plugins hentry hbody h.purpose (htable src') hok
  · rw [hkeys]
    intro b hb
    have hne : b ≠ (s.entry e).body := by
      rw [hentry]
      exact (hb e (List.mem_append_right _ (List.mem_singleton_self e)) hnode₀).symm
    refine (hsame.body b hne).trans ?_
    exact h.body b fun e' he' => hb e' (List.mem_append_left _ he')

/-- A walk without an error goes on with its log. -/
theorem Settled.trans (h : Settled p₀ p log) (hwalk : Walks p q) (hok : q.ok = true) :
    ∃ more, Settled p₀ q (log ++ more) := by
  induction hwalk with
  | refl => exact ⟨[], by rwa [List.append_nil]⟩
  | tail _ hstep ih =>
    cases hstep with
    | missing => cases hok
    | @link s e src _ _ _ hlink htarget =>
      obtain ⟨more, hsettled⟩ := ih hok
      refine ⟨more ++ [(e, src)], ?_⟩
      rw [← List.append_assoc]
      exact hsettled.walk_link F hlink htarget
    | @node s e _ _ _ hnode =>
      obtain ⟨hok, hactions⟩ := Bool.and_eq_true_iff.mp hok
      obtain ⟨more, hsettled⟩ := ih hok
      refine ⟨more ++ [(e, e)], ?_⟩
      rw [← List.append_assoc]
      exact hsettled.walk_node F hown htable hnode hactions

end Step

end Pass

end Klish
