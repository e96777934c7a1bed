import Klish.KschemeLive
import Klish.ParseCopy

/-!
# References as copies

A scheme without references is obtained by putting a copy of the ENTRY a link leads to in place of
each link. The preparation of both gives schemes over which all lines are parsed alike.
-/

namespace Klish

open Forests

/-- A copy of an ENTRY in the place of a link: help and value are copied if the link has none. -/
def Kentry.copyOf (dst src : Kentry) : Kentry :=
  { dst with
    help := dst.help.or src.help
    mode := src.mode
    value := dst.value.or src.value
    filter := src.filter }

namespace Pass

open Kscheme

/-- The walk comes to an end or to a link whose references do not end. -/
theorem ends_or_stuck (p : Pass)
    (hacc : ∀ e ∈ p.work, Acc (fun n e => n ∈ Pass.spread p.scheme e) e) :
    ∃ q, Walks p q ∧ (q.work = [] ∨ q.Stuck) := by
  obtain ⟨s, work, ok, error⟩ := p
  induction work generalizing s ok error with
  | nil => exact ⟨_, .refl, .inl rfl⟩
  | cons e work ih =>
    rcases returns_or_stuck (hacc e List.mem_cons_self) rfl work ok error with ⟨n, r, hr⟩ | ⟨q, hq, hs⟩
    · have hwalk := prepareEntry_walks hr work ok error
      obtain ⟨q, hq, hend⟩ := ih r.scheme (ok && r.ok) (error ++ r.error) fun e' he' => by
        rw [show Pass.spread r.scheme = Pass.spread s from hwalk.spread]
        exact hacc e' (List.mem_cons_of_mem _ he')
      exact ⟨q, hwalk.trans hq, hend⟩
    · exact ⟨q, hq, .inr hs⟩

end Pass

namespace Kscheme

variable {scheme s : Kscheme}

/-- The plugins and the filter attribute decide about an ACTION. -/
theorem prepareAction_agree {s s' : Kscheme} {e e' : EntryId} (hplugins : s'.plugins = s.plugins)
    (hfilter : (s'.entry e').filter = (s.entry e).filter) (action : Kaction) :
    (s'.prepareAction e' action).1 = (s.prepareAction e action).1 ∧
      ((s'.prepareAction e' action).2 = none ↔ (s.prepareAction e action).2 = none) := by
  have hfind : s'.findSym = s.findSym := by
    funext name
    unfold findSym
    rw [hplugins]
  unfold prepareAction
  rw [hfind, hfilter]
  cases action.symRef.bind s.findSym with
  | none => exact ⟨rfl, by simp⟩
  | some found =>
    dsimp only
    split
    · exact ⟨rfl, by simp⟩
    · exact ⟨rfl, by simp⟩

/-- A scheme without references is prepared if its ACTIONs can be resolved. -/
theorem Fresh.prepare_nodes {x : Kscheme} (hx : x.Fresh) {plugins : List Kplugin}
    (hnode : ∀ i, Reached x.entrys x.nested i → x.isLink i = false)
    (hactions : ∀ i, Reached x.entrys x.nested i → ∀ action ∈ x.actions i,
      ((x.start plugins).scheme.prepareAction i action).2 = none) :
    ∃ s error, Pass.Walks (x.start plugins) ⟨s, [], true, error⟩ := by
  -- The walk is without an error as far as it goes, and it is not stuck.
  have hgood : ∀ {p}, Pass.Walks (x.start plugins) p → p.ok = true ∧ ¬ p.Stuck := by
    have hreached : ∀ {p log}, Pass.Settled (x.start plugins) p log → ∀ e ∈ p.work,
        Reached x.entrys x.nested e := by
      intro p log hat e he
      have hspread := hat.order.reached hat.reached he
      clear he
      induction hspread with
      | root hroot => exact .root hroot
      | child _ hb ih => exact .child ih (mem_spread.mp hb).2
    have hsettled : ∀ {p}, Pass.Walks (x.start plugins) p → p.ok = true →
        ∃ log, Pass.Settled (x.start plugins) p log := fun hwalk hok =>
      ⟨_, ((Pass.Settled.start hx.forest.nodupRoots).trans hx.forest hx.ownBody hx.emptyTable
        hwalk hok).choose_spec⟩
    have hok : ∀ {p}, Pass.Walks (x.start plugins) p → p.ok = true := by
      intro p hwalk
      induction hwalk with
      | refl => rfl
      | tail hbefore hstep ih =>
        obtain ⟨log, hat⟩ := hsettled hbefore ih
        cases hstep with
        | @missing s e work ok error ref hlink htarget =>
          have hlink' : x.isLink e = true := (congrFun hat.isLink e).symm.trans hlink
          rw [hnode e (hreached hat e List.mem_cons_self)] at hlink'
          cases hlink'
        | link => exact ih
        | @node s e work ok error hnode' =>
          have he : Reached x.entrys x.nested e := hreached hat e List.mem_cons_self
          have hentry : s.entry e = x.entry e := hat.node_entry (hnode e he)
          have hlist : s.actions e = x.actions e := by
            unfold actions bodyOf
            rw [hentry]
            refine congrArg Kbody.actions (hat.body _ fun e' he' _ hbody => ?_)
            obtain rfl : e' = e := hx.ownBody e' e hbody
            exact hat.order.fresh he'
          have hprepare : s.prepareAction e = (x.start plugins).scheme.prepareAction e :=
            prepareAction_congr hat.plugins hentry
          have hall : (s.prepareActionList e).ok = true := by
            have hsplit : (s.prepareActionList e).ok =
                ((s.actions e).map (s.prepareAction e)).all fun r => r.2.isNone := rfl
            rw [hsplit, hprepare, hlist, List.all_map, List.all_eq_true]
            intro action haction
            simpa using hactions e he action haction
          dsimp only at ih ⊢
          rw [ih, hall]
          rfl
    intro p hwalk
    refine ⟨hok hwalk, ?_⟩
    rintro ⟨e, work, hwork, hlink, -⟩
    obtain ⟨log, hat⟩ := hsettled hwalk (hok hwalk)
    have hlink' : x.isLink e = true := (congrFun hat.isLink e).symm.trans hlink
    rw [hnode e (hreached hat e (hwork ▸ List.mem_cons_self))] at hlink'
    cases hlink'
  have hgrounded : Grounded { x with plugins } := hx.forest.grounded
  obtain ⟨⟨s, work, ok, error⟩, hwalk, hend⟩ :=
    (x.start plugins).ends_or_stuck fun e he => hgrounded.spread he
  obtain ⟨hok, hnot⟩ := hgood hwalk
  obtain rfl : work = [] := hend.resolve_right hnot
  obtain rfl : ok = true := hok
  exact ⟨s, error, hwalk⟩

/-- The ENTRY whose lists an ENTRY has in the end: for a link, the one that the preparation follows
its references to. -/
def SourceOf (scheme : Kscheme) (plugins : List Kplugin) (e t : EntryId) : Prop :=
  (scheme.isLink e = false ∧ t = e) ∨ Pass.LinksTo (scheme.start plugins) e t

/-- The other scheme has, in place of each ENTRY and of each link, a copy. The relation says which
ENTRY the lists of the copy come from and what its attributes are. -/
structure Expansion (scheme x : Kscheme) (Source : EntryId → EntryId → Kentry → Prop)
    (φ : EntryId → EntryId) : Prop where
  plugins : x.plugins = scheme.plugins
  entrys : x.entrys.map φ = scheme.entrys
  copy : ∀ i, Reached x.entrys x.nested i → ∃ t entry, Source (φ i) t entry ∧
    (x.entry i).refStr = none ∧ (x.entry i).record = entry.record ∧
      (x.nested i).map φ = scheme.nested t ∧ x.actions i = scheme.actions t ∧
        (x.bodyOf i).hotkeys = (scheme.bodyOf t).hotkeys

theorem Expansion.node {x : Kscheme} {Source : EntryId → EntryId → Kentry → Prop}
    {φ : EntryId → EntryId} (hexp : Expansion scheme x Source φ) {i : EntryId}
    (hi : Reached x.entrys x.nested i) : x.isLink i = false := by
  obtain ⟨-, -, -, href, -⟩ := hexp.copy i hi
  unfold isLink
  rw [href]
  rfl

/-- A link is replaced by a copy of the ENTRY at the end of its references. -/
def ByTarget (scheme : Kscheme) (plugins : List Kplugin) (e t : EntryId) (entry : Kentry) : Prop :=
  scheme.SourceOf plugins e t ∧ entry = (scheme.entry e).copyOf (scheme.entry t)

/-- A link is replaced by a copy of the ENTRY its reference names, which is expanded first when it
is a link. -/
inductive ByReference (scheme : Kscheme) : EntryId → EntryId → Kentry → Prop
  | node {e : EntryId} (hnode : scheme.isLink e = false) : ByReference scheme e e (scheme.entry e)
  | link {e e' t : EntryId} {entry : Kentry} (href : scheme.Refers e e')
      (h : ByReference scheme e' t entry) :
      ByReference scheme e t ((scheme.entry e).copyOf entry)

section Mirror

variable {plugins : List Kplugin} {log : List (EntryId × EntryId)} {error : List String}
  (h : scheme.Fresh) (hend : Pass.Settled (scheme.start plugins) ⟨s, [], true, error⟩ log)
  (hout : ∀ e src, Pass.LinksTo (scheme.start plugins) e src →
    ¬ Under scheme.isLink scheme.nested src)
include h hend hout

/-- What an ENTRY has at the end comes from its source, and that is prepared. -/
theorem Fresh.source_spec {e t : EntryId} (he : e ∈ log.map Prod.fst)
    (hsource : scheme.SourceOf plugins e t) :
    t ∈ log.map Prod.fst ∧ scheme.isLink t = false ∧ s.bodyOf e = s.bodyOf t ∧
      (s.entry e).record = ((scheme.entry e).copyOf (scheme.entry t)).record := by
  rcases hsource with ⟨hnode, rfl⟩ | hto
  · refine ⟨he, hnode, rfl, ?_⟩
    have hentry : s.entry t = scheme.entry t := hend.node_entry hnode
    rw [hentry]
    simp [Kentry.copyOf, Kentry.record]
  · obtain ⟨-, -, hsrc, hentry⟩ := h.linked_at_end hend hto
    refine ⟨(h.mem_log hend (reached_found hto)).mpr (hout e t hto), hsrc, ?_, ?_⟩
    · exact congrArg s.body (h.linked_body hend hto).1
    · rw [hentry, Pass.link_entry_self]
      rfl

omit h hout in
/-- A prepared ENTRY that is no link. -/
theorem node_ready {t : EntryId} (ht : t ∈ log.map Prod.fst) (hnode : scheme.isLink t = false) :
    Ready (scheme.start plugins).scheme s t := by
  obtain ⟨⟨t, src⟩, hmem, rfl⟩ := List.mem_map.mp ht
  exact (hend.node t src hmem hnode).2

variable {x : Kscheme} {φ : EntryId → EntryId}
  (hexp : Expansion scheme x (scheme.ByTarget plugins) φ)
include hexp

/-- The image of a copy is an ENTRY that the walk comes to. -/
theorem Fresh.image_mem_log {i : EntryId} (hi : Reached x.entrys x.nested i) :
    φ i ∈ log.map Prod.fst := by
  induction hi with
  | @root i hroot =>
    have hmem : φ i ∈ scheme.entrys := hexp.entrys ▸ List.mem_map_of_mem hroot
    rw [mem_log_iff hend]
    exact .root hmem
  | @child i n hi hn ih =>
    obtain ⟨t, entry, ⟨hsource, -⟩, -, -, hnested, -⟩ := hexp.copy i hi
    obtain ⟨ht, hnode, -⟩ := h.source_spec hend hout ih hsource
    rw [mem_log_iff hend] at ht ⊢
    refine ht.child (mem_spread.mpr ⟨hnode, ?_⟩)
    rw [← hnested]
    exact List.mem_map_of_mem hn

/-- The ACTIONs of the copies can be resolved. -/
theorem Fresh.copy_resolved {i : EntryId} (hi : Reached x.entrys x.nested i) :
    ∀ action ∈ x.actions i, ((x.start plugins).scheme.prepareAction i action).2 = none := by
  obtain ⟨t, entry, ⟨hsource, rfl⟩, -, hrecord, -, hactions, -⟩ := hexp.copy i hi
  obtain ⟨ht, hnode, -⟩ := h.source_spec hend hout (h.image_mem_log hend hout hexp hi) hsource
  intro action haction
  have hfilter := congrArg Kentry.filter hrecord
  have hagree := @prepareAction_agree (scheme.start plugins).scheme (x.start plugins).scheme t i
      rfl hfilter action
  rw [hagree.2]
  exact (node_ready hend ht hnode).resolved action (hactions ▸ haction)

/-- The prepared copy mirrors the prepared scheme. -/
theorem Fresh.mirrors {s' : Kscheme} {error' : List String}
    {log' : List (EntryId × EntryId)}
    (hend' : Pass.Settled (x.start plugins) ⟨s', [], true, error'⟩ log') :
    Mirrors φ (Reached x.entrys x.nested) s' s := by
  have hnode : ∀ i, Reached x.entrys x.nested i → x.isLink i = false := fun i hi => hexp.node hi
  have hspread : ∀ i, Reached x.entrys x.nested i →
      Reached x.entrys (Forests.spread x.isLink x.nested) i := by
    intro i hi
    induction hi with
    | root hroot => exact .root hroot
    | child hi hb ih => exact ih.child (mem_spread.mpr ⟨hnode _ hi, hb⟩)
  have hready : ∀ i, Reached x.entrys x.nested i → Ready (x.start plugins).scheme s' i := by
    intro i hi
    obtain ⟨⟨i, src⟩, hmem, rfl⟩ := List.mem_map.mp ((mem_log_iff hend').mpr (hspread i hi))
    exact (hend'.node i src hmem (hnode i hi)).2
  have hnested' : ∀ i, Reached x.entrys x.nested i → s'.nested i = x.nested i :=
    fun i hi => hend'.node_nested (hnode i hi)
  -- An ENTRY of the prepared scheme, seen from its copy.
  have hview : ∀ i, Reached x.entrys x.nested i → ∃ t, Ready (scheme.start plugins).scheme s t ∧
      s.bodyOf (φ i) = s.bodyOf t ∧ s.nested t = scheme.nested t ∧
        (x.nested i).map φ = scheme.nested t ∧ x.actions i = scheme.actions t ∧
          (s.entry (φ i)).record = (x.entry i).record ∧
            (x.entry i).filter = (scheme.entry t).filter := by
    intro i hi
    obtain ⟨t, entry, ⟨hsource, rfl⟩, -, hrecord, hnested, hactions, -⟩ := hexp.copy i hi
    obtain ⟨ht, hnode, hbody, hentry⟩ :=
      h.source_spec hend hout (h.image_mem_log hend hout hexp hi) hsource
    have hfilter := congrArg Kentry.filter hrecord
    exact ⟨t, node_ready hend ht hnode, hbody, hend.node_nested hnode, hnested, hactions,
      hentry.trans hrecord.symm, hfilter⟩
  have hnested : ∀ i, Reached x.entrys x.nested i → s.nested (φ i) = (x.nested i).map φ := by
    intro i hi
    obtain ⟨t, -, hbody, hkept, himage, -⟩ := hview i hi
    rw [himage, ← hkept]
    exact congrArg Kbody.entrys hbody
  have hpurpose : ∀ i, Reached x.entrys x.nested i → scheme.purpose (φ i) = x.purpose i := by
    intro i hi
    obtain ⟨t, -, -, -, -, -, hrecord, -⟩ := hview i hi
    have hsame : s.purpose = scheme.purpose := hend.purpose
    rw [← hsame]
    have hown := congrArg Kentry.purpose hrecord
    exact hown
  have hslot : ∀ i p, Reached x.entrys x.nested i → p ≠ .log →
      s'.nestedByPurpose i p = x.lastOfPurpose i p ∧
        s.nestedByPurpose (φ i) p = (x.lastOfPurpose i p).map φ := by
    intro i p hi hp
    obtain ⟨t, hprepared, hbody, -, himage, -⟩ := hview i hi
    refine ⟨(hready i hi).slot p hp, ?_⟩
    have hshared : s.nestedByPurpose (φ i) p = s.nestedByPurpose t p :=
      congrArg (fun body => body.nestedByPurpose p) hbody
    rw [hshared, hprepared.slot p hp]
    have hlast : (scheme.start plugins).scheme.lastOfPurpose t p = scheme.lastOfPurpose t p := rfl
    rw [hlast]
    unfold lastOfPurpose
    rw [← himage, List.filter_map, List.getLast?_map]
    congr 2
    apply List.filter_congr
    intro n hn
    exact congrArg (· == p) (hpurpose n (hi.child hn))
  refine ⟨fun i hi => ?_, fun i hi => ?_, fun i hi => ?_, fun i hi => ?_, fun i hi n hn => ?_,
    fun i p hi hp => ?_, fun i p n hi hp hn => ?_⟩
  · obtain ⟨t, -, -, -, -, -, hrecord, -⟩ := hview i hi
    have hentry : s'.entry i = x.entry i := hend'.node_entry (hnode i hi)
    rw [hentry]
    exact hrecord
  · obtain ⟨t, hprepared, hbody, -, -, hactions, -, hfilter⟩ := hview i hi
    have hshared : s.actions (φ i) = s.actions t := congrArg Kbody.actions hbody
    rw [hshared, hprepared.actions, (hready i hi).actions]
    have hlist : (x.start plugins).scheme.actions i = (scheme.start plugins).scheme.actions t :=
      hactions
    rw [hlist]
    apply List.map_congr_left
    intro action _
    have hagree := @prepareAction_agree (scheme.start plugins).scheme (x.start plugins).scheme t i
      rfl hfilter action
    exact hagree.1.symm
  · rw [hnested' i hi]
    exact hnested i hi
  · obtain ⟨t, -, -, -, himage, -⟩ := hview i hi
    rw [hnested i hi, himage]
    exact h.forest.nodup t
  · rw [hnested' i hi] at hn
    exact hi.child hn
  · obtain ⟨hcopy, himage⟩ := hslot i p hi hp
    rw [hcopy, himage]
  · rw [(hslot i p hi hp).1] at hn
    have hmem : n ∈ x.nested i := (List.mem_filter.mp (List.mem_of_getLast? hn)).1
    exact hi.child hmem

end Mirror

/-- The line is parsed over the prepared scheme as over the prepared copy: with the same status,
level, values, completions and command. -/
def ParsesAlike (φ : EntryId → EntryId) (D : EntryId → Prop) (X S : Kscheme) : Prop :=
  ∀ (W : AttributeOracle) (session session' : Ksession) argv purpose isFilter fuel,
    session.path.levels = session'.path.levels.map φ → (∀ i ∈ session'.path.levels, D i) →
      session.done = session'.done →
        Ksession.parseLine S (W.oracle S) session argv purpose isFilter fuel =
          (Ksession.parseLine X (W.oracle X) session' argv purpose isFilter fuel).map fun q =>
            (q.1.rename φ, { session with done := q.2.done })

/-- A reference is a copy of the ENTRY at the end of its chain, where no link refers to an ENTRY
that is declared inside a link. -/
theorem reference_copies (h : scheme.Fresh) {loadPlugins : List Kplugin → Option (List Kplugin)}
    {plugins : List Kplugin} (hload : loadPlugins scheme.plugins = some plugins) {fuel : ℕ}
    {r : Report} (hrun : prepare loadPlugins fuel scheme = some r) (hok : r.ok = true)
    (hout : ∀ e src, Pass.LinksTo (scheme.start plugins) e src →
      ¬ Under scheme.isLink scheme.nested src)
    {x : Kscheme} {φ : EntryId → EntryId} (hx : x.Fresh)
    (hexp : Expansion scheme x (scheme.ByTarget plugins) φ) :
    ∃ fuel' r', prepare loadPlugins fuel' x = some r' ∧ r'.ok = true ∧
      ParsesAlike φ (Reached x.entrys x.nested) r'.scheme r.scheme := by
  obtain ⟨error, log, hend⟩ := h.settled hload hrun hok
  have hload' : loadPlugins x.plugins = some plugins := by
    rw [hexp.plugins]
    exact hload
  obtain ⟨s', error', hwalk⟩ :=
    hx.prepare_nodes (fun i hi => hexp.node hi) fun i hi => h.copy_resolved hend hout hexp hi
  obtain ⟨fuel', r', hrun', hok', -⟩ := (hx.prepare_ok_iff hload').mpr ⟨error', hwalk⟩
  obtain ⟨error₁, log', hend'⟩ := hx.settled hload' hrun' hok'
  have hmirrors := h.mirrors hend hout hexp hend'
  refine ⟨fuel', r', hrun', hok', ?_⟩
  intro W session session' argv purpose isFilter n hpath hlevels hdone
  exact Ksession.parseLine_image hmirrors argv purpose isFilter n hpath hlevels hdone

/-- A VIEW `v` with a link `a` to `/b`, which is a link to `/c` with a help text of its own. -/
def chainScheme : Kscheme where
  plugins := []
  entrys := [0, 2, 3]
  entry e := { Kentry.new (["v", "a", "b", "c"].getD e "p") e with
    container := e == 0
    help := [none, none, some "hb", some "hc"].getD e none
    purpose := if e < 4 then .common else .ptype
    refStr := [none, some "/b", some "/c"].getD e none }
  body b := { Kbody.new with entrys := [[1], [], [], [4]].getD b [] }

/-- The copies in place of the links, with a help text for the first of them. -/
def copyScheme (help : String) : Kscheme where
  plugins := []
  entrys := [0, 2, 3]
  entry e := { Kentry.new (["v", "a", "b", "c"].getD e "p") e with
    container := e == 0
    help := [none, some help, some "hb", some "hc"].getD e none
    purpose := if e < 4 then .common else .ptype }
  body b := { Kbody.new with entrys := [[1], [5], [6], [4]].getD b [] }

/-- The ENTRY that a copy stands for. -/
def copiedEntry (i : EntryId) : EntryId := if i = 5 ∨ i = 6 then 4 else i

theorem mem_nested_chainScheme {e n : ℕ} :
    n ∈ chainScheme.nested e ↔ e = 0 ∧ n = 1 ∨ e = 3 ∧ n = 4 := by
  have hnested : chainScheme.nested e = [[1], [], [], [4]].getD e [] := rfl
  rw [hnested]
  match e with
  | 0 | 1 | 2 | 3 => simp
  | e + 4 => simp

theorem chainScheme_fresh : chainScheme.Fresh where
  legalFilter _ hfilter := nomatch hfilter
  ownBody _ _ hbody := hbody
  unresolved _ _ haction := nomatch haction
  emptyTable _ _ := rfl
  forest := by
    have hforest : Forest [0, 2, 3] fun e => [[1], [], [], [4]].getD e [] :=
      Forest.of_table (by decide) (by decide)
    exact hforest

theorem copyScheme_fresh (help : String) : (copyScheme help).Fresh where
  legalFilter _ hfilter := nomatch hfilter
  ownBody _ _ hbody := hbody
  unresolved _ _ haction := nomatch haction
  emptyTable _ _ := rfl
  forest := by
    have hforest : Forest [0, 2, 3] fun e => [[1], [5], [6], [4]].getD e [] :=
      Forest.of_table (by decide) (by decide)
    exact hforest

/-- The links lead to `c`. -/
theorem chainScheme_linksTo :
    Pass.LinksTo (chainScheme.start []) 1 3 ∧ Pass.LinksTo (chainScheme.start []) 2 3 := by
  have hfirst : Pass.Walks (chainScheme.start [])
      ⟨chainScheme.enter 0, [1, 2, 3], true, []⟩ := .single (.node rfl)
  have hsecond : Pass.Walks (chainScheme.start [])
      ⟨(chainScheme.enter 0).link 1 3, [2, 3], true, []⟩ := hfirst.tail (.link rfl ⟨3, rfl⟩)
  exact ⟨⟨_, _, _, _, hfirst, rfl, ⟨3, rfl⟩⟩, ⟨_, _, _, _, hsecond, rfl, ⟨2, rfl⟩⟩⟩

theorem expansion_byTarget :
    Expansion chainScheme (copyScheme "hc") (chainScheme.ByTarget []) copiedEntry where
  plugins := rfl
  entrys := by decide
  copy i _ := by
    match i with
    | 0 => exact ⟨0, _, ⟨.inl ⟨rfl, rfl⟩, rfl⟩, rfl, rfl, rfl, rfl, rfl⟩
    | 1 => exact ⟨3, _, ⟨.inr chainScheme_linksTo.1, rfl⟩, rfl, rfl, rfl, rfl, rfl⟩
    | 2 => exact ⟨3, _, ⟨.inr chainScheme_linksTo.2, rfl⟩, rfl, rfl, rfl, rfl, rfl⟩
    | 3 => exact ⟨3, _, ⟨.inl ⟨rfl, rfl⟩, rfl⟩, rfl, rfl, rfl, rfl, rfl⟩
    | 4 => exact ⟨4, _, ⟨.inl ⟨rfl, rfl⟩, rfl⟩, rfl, rfl, rfl, rfl, rfl⟩
    | 5 => exact ⟨4, _, ⟨.inl ⟨rfl, rfl⟩, rfl⟩, rfl, rfl, rfl, rfl, rfl⟩
    | 6 => exact ⟨4, _, ⟨.inl ⟨rfl, rfl⟩, rfl⟩, rfl, rfl, rfl, rfl, rfl⟩
    | i + 7 =>
      have hsame : copiedEntry (i + 7) = i + 7 := by simp [copiedEntry]
      rw [hsame]
      exact ⟨i + 7, _, ⟨.inl ⟨rfl, rfl⟩, rfl⟩, rfl, rfl, rfl, rfl, rfl⟩

theorem reference_copies_sample : ∃ r, prepare some 8 chainScheme = some r ∧
    ∃ fuel' r', prepare some fuel' (copyScheme "hc") = some r' ∧ r'.ok = true ∧
      ParsesAlike copiedEntry (Reached (copyScheme "hc").entrys (copyScheme "hc").nested)
        r'.scheme r.scheme := by
  have hok : (prepare some 8 chainScheme).map Report.ok = some true := by decide
  obtain ⟨r, hrun, hok⟩ := Option.map_eq_some_iff.mp hok
  refine ⟨r, hrun, reference_copies chainScheme_fresh rfl hrun hok ?_ (copyScheme_fresh "hc")
    expansion_byTarget⟩
  -- The links have no ENTRYs of their own.
  rintro e src - ⟨k, hlink, hpath⟩
  obtain ⟨n, hn, -⟩ := Relation.TransGen.head'_iff.mp hpath
  rw [mem_nested_chainScheme] at hn
  rcases hn with ⟨rfl, -⟩ | ⟨rfl, -⟩
  · cases hlink
  · cases hlink

theorem expansion_byReference :
    Expansion chainScheme (copyScheme "hb") chainScheme.ByReference copiedEntry where
  plugins := rfl
  entrys := by decide
  copy i _ := by
    have hsecond : chainScheme.ByReference 2 3 _ := .link ⟨"/c", rfl, rfl⟩ (.node rfl)
    match i with
    | 0 => exact ⟨0, _, .node rfl, rfl, rfl, rfl, rfl, rfl⟩
    | 1 => exact ⟨3, _, .link ⟨"/b", rfl, rfl⟩ hsecond, rfl, rfl, rfl, rfl, rfl⟩
    | 2 => exact ⟨3, _, hsecond, rfl, rfl, rfl, rfl, rfl⟩
    | 3 => exact ⟨3, _, .node rfl, rfl, rfl, rfl, rfl, rfl⟩
    | 4 => exact ⟨4, _, .node rfl, rfl, rfl, rfl, rfl, rfl⟩
    | 5 => exact ⟨4, _, .node rfl, rfl, rfl, rfl, rfl, rfl⟩
    | 6 => exact ⟨4, _, .node rfl, rfl, rfl, rfl, rfl, rfl⟩
    | i + 7 =>
      have hsame : copiedEntry (i + 7) = i + 7 := by simp [copiedEntry]
      rw [hsame]
      exact ⟨i + 7, _, .node rfl, rfl, rfl, rfl, rfl, rfl⟩

/-- A PTYPE that accepts words for ENTRYs with the help text of `c`. -/
def helpOracle : AttributeOracle := fun _ _ candidate =>
  { completed := true
    retcode := if candidate.bind (fun parg => parg.1.help) = some "hc" then 0 else 1
    out := none
    stopped := false }

/-- The link `a` takes over the help text of `c`, not that of `b`. -/
theorem reference_skips_links : chainScheme.Fresh ∧ (copyScheme "hb").Fresh ∧
    Expansion chainScheme (copyScheme "hb") chainScheme.ByReference copiedEntry ∧
      ∃ r r', prepare some 8 chainScheme = some r ∧ r.ok = true ∧
        prepare some 8 (copyScheme "hb") = some r' ∧ r'.ok = true ∧
          ¬ ParsesAlike copiedEntry (Reached (copyScheme "hb").entrys (copyScheme "hb").nested)
            r'.scheme r.scheme := by
  have hok : (prepare some 8 chainScheme).map Report.ok = some true := by decide
  have hok' : (prepare some 8 (copyScheme "hb")).map Report.ok = some true := by decide
  have hstatus : (prepare some 8 chainScheme).bind (fun r =>
      (Ksession.parseLine r.scheme (helpOracle.oracle r.scheme) Ksession.sampleRoot
        ⟨["w"], false⟩ .exec false 8).map fun q => q.1.status) = some .noaction := by decide
  have hstatus' : (prepare some 8 (copyScheme "hb")).bind (fun r =>
      (Ksession.parseLine r.scheme (helpOracle.oracle r.scheme) Ksession.sampleRoot
        ⟨["w"], false⟩ .exec false 8).map fun q => q.1.status) = some .error := by decide
  obtain ⟨r, hrun, hok⟩ := Option.map_eq_some_iff.mp hok
  obtain ⟨r', hrun', hok'⟩ := Option.map_eq_some_iff.mp hok'
  rw [hrun, Option.bind_some] at hstatus
  rw [hrun', Option.bind_some] at hstatus'
  refine ⟨chainScheme_fresh, copyScheme_fresh "hb", expansion_byReference, r, r', hrun, hok, hrun',
    hok', fun halike => ?_⟩
  have hlevels : ∀ i ∈ Ksession.sampleRoot.path.levels,
      Reached (copyScheme "hb").entrys (copyScheme "hb").nested i := by
    intro i hi
    rw [List.mem_singleton.mp hi]
    exact .root List.mem_cons_self
  have hsame := halike helpOracle Ksession.sampleRoot Ksession.sampleRoot ⟨["w"], false⟩ .exec
    false 8 (by decide) hlevels rfl
  rw [hsame, Option.map_map] at hstatus
  have hcopy : (fun q : Kpargv × Ksession => q.1.status) ∘ (fun q : Kpargv × Ksession =>
      (q.1.rename copiedEntry, { Ksession.sampleRoot with done := q.2.done })) =
        fun q => q.1.status := rfl
  rw [hcopy, hstatus'] at hstatus
  cases hstatus

end Kscheme

end Klish
