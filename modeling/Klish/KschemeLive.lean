import Klish.KschemeSettled

/-!
# Released lists and unprepared ENTRYs

Linking an ENTRY releases its own lists with all that is nested in them, and the walk does not come
to what is inside a link. A link that takes over such lists breaks the prepared scheme.
-/

namespace Klish

open Forests

namespace Kscheme

variable {scheme s : Kscheme}

/-- `kentry_free_non_link`: the lists of an ENTRY are released with those of the nested ENTRYs that
are no links. -/
def Frees (s : Kscheme) (dst e : EntryId) : Prop := Below s.isLink s.nested dst e

/-- The walk over the top-level ENTRYs, when the plugins are loaded. -/
def start (scheme : Kscheme) (plugins : List Kplugin) : Pass :=
  ⟨{ scheme with plugins }, scheme.entrys, true, []⟩

/-- The walk links an ENTRY, and that releases the lists. -/
def Released (p₀ : Pass) (b : BodyId) : Prop :=
  ∃ s dst work ok error src e, Pass.Walks p₀ ⟨s, dst :: work, ok, error⟩ ∧
    s.isLink dst = true ∧ s.Target dst (.ok src) ∧ s.Frees dst e ∧ (s.entry e).body = b

/-- The ENTRY is live and fully prepared. -/
structure Prepared (s : Kscheme) (released : BodyId → Prop) (e : EntryId) : Prop where
  live : ¬ released (s.entry e).body
  resolved : ∀ action ∈ s.actions e, ∃ sym plugin,
    action.symRef.bind s.findSym = some (sym, plugin) ∧
      action.sym = some sym ∧ action.plugin = some plugin
  slot : ∀ p, p ≠ .log → s.nestedByPurpose e p = s.lastOfPurpose e p
  log : ∀ log, s.lastOfPurpose e .log = some log → s.nestedByPurpose e .log = some log
  linked : s.isLink e = true → ∃ src, s.isLink src = false ∧
    (s.entry e).body = (s.entry src).body
  filter : (s.entry e).filter ≠ .no → ∀ action ∈ s.actions e, action.isSync = false

/-- A link may take over the lists of the ENTRY: it is not declared inside a link. An ENTRY with
nothing in it may be declared inside two. -/
def Linkable (scheme : Kscheme) (src : EntryId) : Prop :=
  ¬ Under scheme.isLink scheme.nested src ∨
    (scheme.nested src = [] ∧ scheme.actions src = [] ∧
      ∃ k, scheme.isLink k = true ∧ Under scheme.isLink scheme.nested k ∧
        Relation.TransGen (fun e n => n ∈ scheme.nested e) k src)

section Final

variable {plugins : List Kplugin} {log : List (EntryId × EntryId)} {error : List String}

/-- The ENTRY a link refers to is one of the declarations. -/
theorem reached_found {e src : EntryId} (hto : Pass.LinksTo (scheme.start plugins) e src) :
    Reached scheme.entrys scheme.nested src := by
  obtain ⟨s, work, ok, error, hwalk, hlink, htarget⟩ := hto
  have hF : Within {e | Reached scheme.entrys scheme.nested e} (scheme.start plugins).scheme :=
    ⟨fun e he => .root he, fun e he n hn => .child he hn⟩
  have hne : src ≠ e := by
    rintro rfl
    unfold Kscheme.isLink at hlink
    rw [htarget.node] at hlink
    cases hlink
  rcases htarget.found with heq | ⟨ref, hfind⟩
  · exact absurd heq hne
  · exact (hF.walks hwalk).find hfind

/-- An ACTION that is accepted has the symbol that its reference names. -/
theorem prepareAction_resolved {e : EntryId} {action : Kaction}
    (h : (scheme.prepareAction e action).2 = none) :
    ∃ sym plugin, action.symRef.bind scheme.findSym = some (sym, plugin) ∧
      (scheme.prepareAction e action).1 =
        { action with sym := some sym, plugin := some plugin } := by
  unfold prepareAction at h ⊢
  cases hfind : action.symRef.bind scheme.findSym with
  | none =>
    rw [hfind] at h
    cases h
  | some found =>
    obtain ⟨sym, plugin⟩ := found
    refine ⟨sym, plugin, rfl, ?_⟩
    dsimp only
    split <;> rfl

/-- An ENTRY with nested ENTRYs has a last one of some purpose. -/
theorem exists_lastOfPurpose {e : EntryId} (h : scheme.nested e ≠ []) :
    ∃ p n, scheme.lastOfPurpose e p = some n := by
  obtain ⟨n, hn⟩ := List.exists_mem_of_ne_nil _ h
  refine ⟨scheme.purpose n, ?_⟩
  rw [← Option.isSome_iff_exists, lastOfPurpose, List.getLast?_isSome]
  have hmem : n ∈ (scheme.nested e).filter fun m => scheme.purpose m == scheme.purpose n := by
    rw [List.mem_filter]
    exact ⟨hn, by simp⟩
  exact List.ne_nil_of_mem hmem

variable (hend : Pass.Settled (scheme.start plugins) ⟨s, [], true, error⟩ log)
include hend

/-- At the end the walk has been to the ENTRYs that are not inside a link. -/
theorem mem_log_iff {e : EntryId} :
    e ∈ log.map Prod.fst ↔ Reached scheme.entrys (Forests.spread scheme.isLink scheme.nested) e :=
  ⟨hend.reached e, hend.order.complete⟩

/-- The walk comes to an ENTRY exactly if it is not inside a link. -/
theorem Fresh.mem_log (h : scheme.Fresh) {e : EntryId} (he : Reached scheme.entrys scheme.nested e) :
    e ∈ log.map Prod.fst ↔ ¬ Under scheme.isLink scheme.nested e := by
  rw [mem_log_iff hend, h.forest.reached_iff he]

/-- All points of the walk are settled. -/
theorem Fresh.settled_at (h : scheme.Fresh) {p : Pass} (hp : Pass.Walks (scheme.start plugins) p) :
    ∃ log, Pass.Settled (scheme.start plugins) p log := by
  have hrest : Pass.Walks p ⟨s, [], true, error⟩ := hp.of_end hend.walks rfl
  obtain ⟨log, hsettled⟩ := (Pass.Settled.start h.forest.nodupRoots).trans h.forest h.ownBody
    h.emptyTable hp (hrest.ok rfl)
  exact ⟨_, hsettled⟩

/-- A link that the walk comes to has, at the end, what it took over then. -/
theorem Fresh.linked_at_end (h : scheme.Fresh) {e src : EntryId}
    (hto : Pass.LinksTo (scheme.start plugins) e src) :
    scheme.isLink e = true ∧ e ∈ log.map Prod.fst ∧ scheme.isLink src = false ∧
      s.entry e = (scheme.link e src).entry e := by
  obtain ⟨s', work, ok, error', hwalk, hlink, htarget⟩ := hto
  have hrest := Pass.Walks.of_end hwalk hend.walks rfl
  have hok : ok = true := hrest.ok rfl
  subst hok
  obtain ⟨log', hat⟩ := h.settled_at hend hwalk
  have hnext := hat.walk_link h.forest hlink htarget
  have hrest' := Pass.Walks.of_end hnext.walks hend.walks rfl
  obtain ⟨more, hend'⟩ := hnext.trans h.forest h.ownBody h.emptyTable hrest' rfl
  have hmem : (e, src) ∈ log' ++ [(e, src)] ++ more :=
    List.mem_append_left _ (List.mem_append_right _ (List.mem_singleton_self _))
  have hlink₀ : scheme.isLink e = true := by
    rw [← hlink]
    exact congrFun hat.isLink.symm e
  obtain ⟨-, hsrc, hentry⟩ := hend'.link e src hmem hlink₀
  refine ⟨hlink₀, ?_, hsrc, hentry⟩
  rw [mem_log_iff hend]
  exact hend'.reached e (List.mem_map.mpr ⟨_, hmem, rfl⟩)

/-- The released lists are those of the links and of what is nested in them. -/
theorem Fresh.released_iff (h : scheme.Fresh) {b : BodyId} :
    Released (scheme.start plugins) b ↔ ∃ k ∈ log.map Prod.fst, scheme.isLink k = true ∧
      ∃ e, Below scheme.isLink scheme.nested k e ∧ (scheme.entry e).body = b := by
  -- The lists of a link are as they were loaded when the walk comes to it.
  have hstatic : ∀ {s' dst work ok error'},
      Pass.Walks (scheme.start plugins) ⟨s', dst :: work, ok, error'⟩ →
        s'.isLink = scheme.isLink ∧ ∀ c, c = dst ∨ scheme.isLink c = false →
          s'.entry c = scheme.entry c ∧ s'.nested c = scheme.nested c := by
    intro s' dst work ok error' hwalk
    obtain ⟨log', hat⟩ := h.settled_at hend hwalk
    refine ⟨hat.isLink, fun c hc => ?_⟩
    have hentry : s'.entry c = scheme.entry c := by
      apply hat.entry c
      intro hlink
      rcases hc with rfl | hnode
      · exact hat.order.fresh
      · change scheme.isLink c = true at hlink
        rw [hnode] at hlink
        cases hlink
    refine ⟨hentry, ?_⟩
    unfold Kscheme.nested Kscheme.bodyOf
    rw [hentry]
    exact hat.nested _
  have hbody : ∀ {k e}, Below scheme.isLink scheme.nested k e → e = k ∨ scheme.isLink e = false := by
    intro k e hke
    rcases hke.cases_tail with rfl | ⟨_, _, -, hgo⟩
    · exact .inl rfl
    · exact .inr hgo
  constructor
  · rintro ⟨s', dst, work, ok, error', src, e, hwalk, hlink, htarget, hfrees, rfl⟩
    obtain ⟨hlinks, hsame⟩ := hstatic hwalk
    have hbelow : Below scheme.isLink scheme.nested dst e := by
      unfold Frees at hfrees
      rw [hlinks] at hfrees
      exact hfrees.congr fun c hc => (hsame c hc).2
    obtain ⟨hlink₀, hmem, -⟩ := h.linked_at_end hend ⟨s', work, ok, error', hwalk, hlink, htarget⟩
    refine ⟨dst, hmem, hlink₀, e, hbelow, ?_⟩
    rw [(hsame e (hbody hbelow)).1]
  · rintro ⟨k, hk, hlink, e, hbelow, rfl⟩
    obtain ⟨⟨k, src⟩, hmem, rfl⟩ := List.mem_map.mp hk
    obtain ⟨⟨s', work, ok, error', hwalk, hlink', htarget⟩, -, -⟩ := hend.link k src hmem hlink
    obtain ⟨hlinks, hsame⟩ := hstatic hwalk
    refine ⟨s', k, work, ok, error', src, e, hwalk, hlink', htarget, ?_, ?_⟩
    · unfold Frees
      rw [hlinks]
      exact hbelow.congr fun c hc => (hsame c hc).2.symm
    · rw [(hsame e (hbody hbelow)).1]

omit hend in
/-- A link is prepared if the ENTRY is whose lists it shares. -/
theorem Prepared.share {released : BodyId → Prop} {e src : EntryId}
    (h : Prepared s released src) (hfilter : s.FilterInv) (hsrc : s.isLink src = false)
    (hbody : (s.entry e).body = (s.entry src).body) : Prepared s released e := by
  have hlists : s.bodyOf e = s.bodyOf src := congrArg s.body hbody
  have hlast : s.lastOfPurpose e = s.lastOfPurpose src := by
    unfold lastOfPurpose Kscheme.nested
    rw [hlists]
  refine ⟨hbody ▸ h.live, ?_, ?_, ?_, fun _ => ⟨src, hsrc, hbody⟩, hfilter.noSync e⟩
  · unfold actions
    rw [hlists]
    exact h.resolved
  · rw [hlast]
    unfold nestedByPurpose
    rw [hlists]
    exact h.slot
  · rw [hlast]
    unfold nestedByPurpose
    rw [hlists]
    exact h.log

/-- An ENTRY that is no link is prepared by the walk. -/
theorem Fresh.prepared_node (h : scheme.Fresh) (hfilter : s.FilterInv) {e : EntryId}
    (he : e ∈ log.map Prod.fst) (hnode : scheme.isLink e = false) :
    Prepared s (Released (scheme.start plugins)) e := by
  obtain ⟨⟨e, src⟩, hmem, rfl⟩ := List.mem_map.mp he
  obtain ⟨-, hready⟩ := hend.node e src hmem hnode
  have hentry : s.entry e = scheme.entry e := hend.node_entry hnode
  have hnested : s.nested e = scheme.nested e := hend.node_nested hnode
  have hpurpose : s.purpose = scheme.purpose := hend.purpose
  have hlast : s.lastOfPurpose e = (scheme.start plugins).scheme.lastOfPurpose e := by
    funext p
    unfold lastOfPurpose
    rw [hnested, hpurpose]
    rfl
  have hfind : s.findSym = (scheme.start plugins).scheme.findSym := by
    funext name
    have hplugins : s.plugins = (scheme.start plugins).scheme.plugins := hend.plugins
    unfold findSym
    rw [hplugins]
  refine ⟨?_, ?_, ?_, ?_, ?_, hfilter.noSync e⟩
  · rw [hentry, h.released_iff hend]
    rintro ⟨k, -, hlink, e', hbelow, hbody⟩
    obtain rfl : e' = e := h.ownBody e' e hbody
    have hreached : Reached scheme.entrys (Forests.spread scheme.isLink scheme.nested) e' :=
      (mem_log_iff hend).mp he
    exact h.forest.not_under hreached (hbelow.under hlink hnode)
  · intro action haction
    rw [hready.actions] at haction
    obtain ⟨loaded, hloaded, rfl⟩ := List.mem_map.mp haction
    obtain ⟨sym, plugin, hsym, heq⟩ := prepareAction_resolved (hready.resolved loaded hloaded)
    rw [heq, hfind]
    exact ⟨sym, plugin, hsym, rfl, rfl⟩
  · rw [hlast]
    exact hready.slot
  · rw [hlast]
    exact hready.log
  · intro hlink
    have hlink₀ : scheme.isLink e = true := by
      rw [← hlink]
      exact congrFun hend.isLink.symm e
    rw [hnode] at hlink₀
    cases hlink₀

/-- The lists of an ENTRY inside a link stay as they were loaded. -/
theorem Fresh.bodyOf_under (h : scheme.Fresh) {e : EntryId} (hnode : scheme.isLink e = false)
    (hunder : Under scheme.isLink scheme.nested e) : s.bodyOf e = scheme.bodyOf e := by
  unfold bodyOf
  have hentry : s.entry e = scheme.entry e := hend.node_entry hnode
  rw [hentry]
  apply hend.body
  intro e' he' _ hbody
  obtain rfl : e' = e := h.ownBody e' e hbody
  exact h.forest.not_under ((mem_log_iff hend).mp he') hunder

/-- An ENTRY with nothing in it needs no preparation, but it may be released. -/
theorem Fresh.prepared_bare (h : scheme.Fresh) (hfilter : s.FilterInv) {k e : EntryId}
    (hnode : scheme.isLink e = false) (hnested : scheme.nested e = [])
    (hactions : scheme.actions e = []) (hlink : scheme.isLink k = true)
    (hk : Under scheme.isLink scheme.nested k)
    (hke : Relation.TransGen (fun e n => n ∈ scheme.nested e) k e) :
    Prepared s (Released (scheme.start plugins)) e := by
  have hlists : s.bodyOf e = scheme.bodyOf e := h.bodyOf_under hend hnode ⟨k, hlink, hke⟩
  have hlast : ∀ p, s.lastOfPurpose e p = none := by
    intro p
    have hnil : s.nested e = [] := (congrArg Kbody.entrys hlists).trans hnested
    unfold lastOfPurpose
    rw [hnil]
    rfl
  refine ⟨?_, ?_, fun p _ => ?_, fun log hlog => ?_, fun hlink' => ?_, hfilter.noSync e⟩
  · have hentry : s.entry e = scheme.entry e := hend.node_entry hnode
    rw [hentry, h.released_iff hend]
    rintro ⟨k', hk', -, e', hbelow, hbody⟩
    obtain rfl : e' = e := h.ownBody e' e hbody
    exact h.forest.not_below_and_twice ((mem_log_iff hend).mp hk') hbelow hlink hk hke
  · have hnil : s.actions e = [] := (congrArg Kbody.actions hlists).trans hactions
    rw [hnil]
    intro action haction
    cases haction
  · rw [hlast p, nestedByPurpose, hlists]
    exact h.emptyTable e p
  · rw [hlast] at hlog
    cases hlog
  · have hlink₀ : scheme.isLink e = true := by
      rw [← hlink']
      exact congrFun hend.isLink.symm e
    rw [hnode] at hlink₀
    cases hlink₀

/-- A link has the lists of the ENTRY it refers to. -/
theorem Fresh.linked_body (h : scheme.Fresh) {e src : EntryId}
    (hto : Pass.LinksTo (scheme.start plugins) e src) :
    (s.entry e).body = (s.entry src).body ∧ s.isLink src = false := by
  obtain ⟨-, -, hsrc, hentry⟩ := h.linked_at_end hend hto
  have hsrcEntry : s.entry src = scheme.entry src := hend.node_entry hsrc
  refine ⟨?_, ?_⟩
  · rw [hentry, hsrcEntry, Pass.link_entry_self]
  · rw [← hsrc]
    exact congrFun hend.isLink src

theorem Fresh.linked_nested (h : scheme.Fresh) {e src : EntryId}
    (hto : Pass.LinksTo (scheme.start plugins) e src) : s.nested e = scheme.nested src := by
  have hsrc := (h.linked_at_end hend hto).2.2.1
  have hnested : s.nested src = scheme.nested src := hend.node_nested hsrc
  rw [← hnested]
  exact congrArg (fun b => (s.body b).entrys) (h.linked_body hend hto).1

/-- Where the links are linkable, what can be reached at the end are the ENTRYs the walk has been
to. -/
theorem Fresh.mem_log_of_reached (h : scheme.Fresh)
    (hlinks : ∀ e src, Pass.LinksTo (scheme.start plugins) e src → scheme.Linkable src)
    {e : EntryId} (he : Reached s.entrys s.nested e) : e ∈ log.map Prod.fst := by
  have hbelow : ∀ {a b}, a ∈ log.map Prod.fst → scheme.isLink a = false → b ∈ scheme.nested a →
      b ∈ log.map Prod.fst := by
    intro a b ha hnode hb
    rw [mem_log_iff hend] at ha ⊢
    exact ha.child (mem_spread.mpr ⟨hnode, hb⟩)
  induction he with
  | @root e he =>
    have hroot : e ∈ scheme.entrys := (hend.entrys : s.entrys = scheme.entrys) ▸ he
    rw [mem_log_iff hend]
    exact .root hroot
  | @child a b _ hb ih =>
    cases hlink : scheme.isLink a with
    | false =>
      have hnested : s.nested a = scheme.nested a := hend.node_nested hlink
      exact hbelow ih hlink (hnested ▸ hb)
    | true =>
      obtain ⟨⟨a, src⟩, hmem, rfl⟩ := List.mem_map.mp ih
      obtain ⟨hto, hsrc, -⟩ := hend.link a src hmem hlink
      have hsrc' : scheme.isLink src = false := hsrc
      rw [h.linked_nested hend hto] at hb
      rcases hlinks a src hto with hout | ⟨hnil, -, -⟩
      · exact hbelow ((h.mem_log hend (reached_found hto)).mpr hout) hsrc' hb
      · rw [hnil] at hb
        cases hb

/-- What the walk has been to can be reached at the end. -/
theorem reached_of_mem_log {e : EntryId} (he : e ∈ log.map Prod.fst) :
    Reached s.entrys s.nested e := by
  rw [mem_log_iff hend] at he
  induction he with
  | root hroot =>
    refine .root ?_
    have hentrys : s.entrys = scheme.entrys := hend.entrys
    rwa [hentrys]
  | @child a b _ hb ih =>
    obtain ⟨hnode, hb⟩ := mem_spread.mp hb
    refine .child ih ?_
    have hnested : s.nested a = scheme.nested a := hend.node_nested hnode
    rwa [hnested]

theorem Fresh.prepared_of_linkable (h : scheme.Fresh) (hfilter : s.FilterInv)
    (hlinks : ∀ e src, Pass.LinksTo (scheme.start plugins) e src → scheme.Linkable src)
    {e : EntryId} (he : Reached s.entrys s.nested e) :
    Prepared s (Released (scheme.start plugins)) e := by
  have hmem := h.mem_log_of_reached hend hlinks he
  cases hlink : scheme.isLink e with
  | false => exact h.prepared_node hend hfilter hmem hlink
  | true =>
    obtain ⟨⟨e, src⟩, hpair, rfl⟩ := List.mem_map.mp hmem
    obtain ⟨hto, hsrc, -⟩ := hend.link e src hpair hlink
    have hsrc' : scheme.isLink src = false := hsrc
    obtain ⟨hbody, hnode⟩ := h.linked_body hend hto
    have hprepared : Prepared s (Released (scheme.start plugins)) src := by
      rcases hlinks e src hto with hout | ⟨hnested, hactions, k, hk, hunder, hpath⟩
      · exact h.prepared_node hend hfilter ((h.mem_log hend (reached_found hto)).mpr hout) hsrc'
      · exact h.prepared_bare hend hfilter hsrc' hnested hactions hk hunder hpath
    exact hprepared.share hfilter hnode hbody

theorem Fresh.linkable_of_prepared (h : scheme.Fresh)
    (hprepared : ∀ e, Reached s.entrys s.nested e →
      Prepared s (Released (scheme.start plugins)) e) {e src : EntryId}
    (hto : Pass.LinksTo (scheme.start plugins) e src) : scheme.Linkable src := by
  by_cases hunder : Under scheme.isLink scheme.nested src
  · obtain ⟨-, hmem, hsrc, -⟩ := h.linked_at_end hend hto
    have hready := hprepared e (reached_of_mem_log hend hmem)
    have hsrcEntry : s.entry src = scheme.entry src := hend.node_entry hsrc
    have hbody : (s.entry e).body = (s.entry src).body := (h.linked_body hend hto).1
    have hlists : s.bodyOf e = scheme.bodyOf src :=
      (congrArg s.body hbody).trans (h.bodyOf_under hend hsrc hunder)
    right
    refine ⟨?_, ?_, ?_⟩
    · -- The table of the ENTRY was never filled.
      by_contra hnested
      have hnested' : s.nested e ≠ [] := by
        rwa [h.linked_nested hend hto]
      obtain ⟨p, n, hlast⟩ := exists_lastOfPurpose hnested'
      have hslot : s.nestedByPurpose e p = some n := by
        by_cases hp : p = .log
        · subst hp
          exact hready.log n hlast
        · rw [hready.slot p hp, hlast]
      rw [nestedByPurpose, hlists] at hslot
      have hempty : (scheme.bodyOf src).nestedByPurpose p = none := h.emptyTable src p
      rw [hempty] at hslot
      cases hslot
    · -- Its ACTIONs were never resolved.
      rw [List.eq_nil_iff_forall_not_mem]
      intro action haction
      have hin : action ∈ s.actions e := by
        unfold actions
        rwa [hlists]
      obtain ⟨sym, plugin, -, hsym, -⟩ := hready.resolved action hin
      rw [h.unresolved src action haction] at hsym
      cases hsym
    · rcases h.forest.below_or_twice (reached_found hto) hunder hsrc with
        ⟨k, hk, hlink, hbelow⟩ | htwice
      · refine absurd ?_ hready.live
        rw [h.released_iff hend, hbody, hsrcEntry]
        exact ⟨k, (mem_log_iff hend).mpr hk, hlink, src, hbelow, rfl⟩
      · exact htwice
  · exact .inl hunder

end Final

/-- The preparation succeeds where its walk over the top-level ENTRYs does. -/
theorem Fresh.prepare_ok_iff (h : scheme.Fresh)
    {loadPlugins : List Kplugin → Option (List Kplugin)}
    {plugins : List Kplugin} (hload : loadPlugins scheme.plugins = some plugins) :
    (∃ fuel r, prepare loadPlugins fuel scheme = some r ∧ r.ok = true ∧ r.scheme = s) ↔
      ∃ error, Pass.Walks (scheme.start plugins) ⟨s, [], true, error⟩ := by
  have hgrounded : Grounded { scheme with plugins } := h.forest.grounded
  unfold prepare
  rw [hload]
  exact Pass.prepareEntrys_ok_iff (fun e he => hgrounded.spread he) rfl []

/-- The preparation that succeeds has come to the end of its walk. -/
theorem Fresh.settled (h : scheme.Fresh) {loadPlugins : List Kplugin → Option (List Kplugin)}
    {plugins : List Kplugin} (hload : loadPlugins scheme.plugins = some plugins) {fuel : ℕ}
    {r : Report} (hrun : prepare loadPlugins fuel scheme = some r) (hok : r.ok = true) :
    ∃ error log, Pass.Settled (scheme.start plugins) ⟨r.scheme, [], true, error⟩ log := by
  obtain ⟨error, hwalk⟩ := (h.prepare_ok_iff hload).mp ⟨fuel, r, hrun, hok, rfl⟩
  obtain ⟨log, hend⟩ := (Pass.Settled.start h.forest.nodupRoots).trans h.forest h.ownBody
    h.emptyTable hwalk rfl
  exact ⟨error, _, hend⟩

/-- In a prepared scheme all ENTRYs that can be reached are live and prepared exactly if no link
took over the lists of an ENTRY that is declared inside a link, or only empty ones that are
inside two. -/
theorem prepared_iff (h : scheme.Fresh) {loadPlugins : List Kplugin → Option (List Kplugin)}
    {plugins : List Kplugin} (hload : loadPlugins scheme.plugins = some plugins) {fuel : ℕ}
    {r : Report} (hrun : prepare loadPlugins fuel scheme = some r) (hok : r.ok = true) :
    (∀ e, Reached r.scheme.entrys r.scheme.nested e →
      Prepared r.scheme (Released (scheme.start plugins)) e) ↔
        ∀ e src, Pass.LinksTo (scheme.start plugins) e src → scheme.Linkable src := by
  obtain ⟨error, log, hend⟩ := h.settled hload hrun hok
  have hfilter : r.scheme.FilterInv := prepare_filterInv h.toLoaded hrun hok
  constructor
  · intro hprepared e src hto
    exact h.linkable_of_prepared hend hprepared hto
  · intro hlinks e he
    exact h.prepared_of_linkable hend hfilter hlinks he

/-- Three top-level ENTRYs: the link `m`, the link `l` to `/t` with an ENTRY `c` of its own, and
`t`. -/
def liveScheme (ref : String) : Kscheme where
  plugins := []
  entrys := [0, 1, 2]
  entry e := { Kentry.new (["m", "l", "t"].getD e "c") e with
    refStr := [some ref, some "/t"].getD e none }
  body b := { Kbody.new with entrys := if b = 1 then [3] else [] }

theorem liveScheme_fresh (ref : String) : (liveScheme ref).Fresh where
  legalFilter e := by
    intro h
    cases h
  ownBody e e' h := h
  unresolved e action haction := nomatch haction
  emptyTable e purpose := rfl
  forest := by
    have hforest : Forest [0, 1, 2] fun e => [[], [3]].getD e [] :=
      Forest.of_table (by decide) (by decide)
    have hnested : (liveScheme ref).nested = fun e => [[], [3]].getD e [] := by
      funext e
      match e with
      | 0 | 1 | _ + 2 => rfl
    rw [hnested]
    exact hforest

theorem prepared_iff_sample : ∃ r, prepare some 4 (liveScheme "/t") = some r ∧
    ((∀ e, Reached r.scheme.entrys r.scheme.nested e →
      Prepared r.scheme (Released ((liveScheme "/t").start [])) e) ↔
        ∀ e src, Pass.LinksTo ((liveScheme "/t").start []) e src →
          (liveScheme "/t").Linkable src) := by
  have hok : (prepare some 4 (liveScheme "/t")).map Report.ok = some true := by decide
  obtain ⟨r, hrun, hok⟩ := Option.map_eq_some_iff.mp hok
  exact ⟨r, hrun, prepared_iff (liveScheme_fresh "/t") rfl hrun hok⟩

/-- The link `m` takes over the lists of `c`, and they are released when `l` is linked. -/
theorem released_list_reached : (liveScheme "/l/c").Fresh ∧
    ∃ r, prepare some 4 (liveScheme "/l/c") = some r ∧ r.ok = true ∧
      ¬ ∀ e, Reached r.scheme.entrys r.scheme.nested e →
        Prepared r.scheme (Released ((liveScheme "/l/c").start [])) e := by
  have hok : (prepare some 4 (liveScheme "/l/c")).map Report.ok = some true := by decide
  have hbody : (prepare some 4 (liveScheme "/l/c")).map (fun r => (r.scheme.entry 0).body) =
      some 3 := by decide
  obtain ⟨r, hrun, hok⟩ := Option.map_eq_some_iff.mp hok
  rw [hrun] at hbody
  have hshared : (r.scheme.entry 0).body = 3 := Option.some.inj hbody
  have hentrys : (prepare some 4 (liveScheme "/l/c")).map (fun r => r.scheme.entrys) =
      some [0, 1, 2] := by decide
  rw [hrun] at hentrys
  refine ⟨liveScheme_fresh _, r, hrun, hok, fun hall => ?_⟩
  have htop : Reached r.scheme.entrys r.scheme.nested 0 := by
    have htops : r.scheme.entrys = [0, 1, 2] := Option.some.inj hentrys
    refine .root ?_
    rw [htops]
    exact List.mem_cons_self
  apply (hall 0 htop).live
  rw [hshared]
  have hfirst : Pass.Walks ((liveScheme "/l/c").start [])
      ⟨(liveScheme "/l/c").link 0 3, [1, 2], true, []⟩ :=
    .single (.link rfl ⟨2, rfl⟩)
  refine ⟨_, 1, [2], true, [], 2, 3, hfirst, rfl, ⟨2, rfl⟩, ?_, rfl⟩
  exact .single ⟨by decide, rfl⟩

end Kscheme

end Klish
