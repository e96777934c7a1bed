import Klish.KschemeLog
import Klish.Lib.TreeAddresses
import Klish.XmlGrows
import Klish.XmlMerge

/-!
# The loaded scheme in memory

The preparation works on ENTRYs that know each other by their addresses. The ENTRYs of a loaded
scheme are put there in preorder. Whatever has been loaded, they are as the preparation takes them
to be, and a path leads to the same ENTRY before and after.
-/

namespace Klish

open TreeAddresses (Placed place placeTree roots nestedAt Holds)

variable {conv : FauxConv}

section Unprepared

/-- The filter attribute is legal, and no symbol is resolved. -/
structure KentryData.Unprepared (k : KentryData) : Prop where
  legalFilter : k.entry.filter ≠ .none
  unresolved : ∀ a ∈ k.actions, a.sym = none

abbrev UnpreparedEntrys (ts : List KentryTree) : Prop :=
  ∀ t ∈ ts, Rose.All (fun t => t.label.Unprepared) t

theorem unprepared_node {k : KentryData} {ts : List KentryTree} :
    UnpreparedEntrys [.node k ts] ↔ k.Unprepared ∧ UnpreparedEntrys ts := by
  refine List.forall_mem_singleton.trans ⟨fun h => ⟨h.root, fun t ht => h.child ht⟩, fun h => ?_⟩
  exact .node h.1 h.2

theorem ientryParse_filter (info : IentryData) (error : List String) {entry : Kentry}
    (h : entry.filter ≠ .none) : (ientryParse conv info entry error).obj.filter ≠ .none := by
  have hkeep : ∀ {β : Type} (c : String → Option β) (set : β → Kentry → Kentry)
      (p : Parsed Kentry) (field : String) (value : Option String),
      (∀ b (e : Kentry), (set b e).filter = e.filter) → p.obj.filter ≠ .none →
      (p.attr "ENTRY" field value (setBy c set)).obj.filter ≠ .none := by
    intro β c set p field value hset hp
    exact Parsed.attr_setBy (P := fun e : Kentry => e.filter ≠ .none)
      (fun _ b e _ _ he => (hset b e).symm ▸ he) hp
  rw [ientryParse]
  apply Parsed.attr_setBy (P := fun e : Kentry => e.filter ≠ .none) (fun _ _ _ _ hb _ => ofText_ne (by decide) hb)
  repeat refine hkeep _ _ _ _ _ (fun _ _ => rfl) ?_
  exact h

/-- Every step of the loader leaves the scheme unprepared. -/
theorem unprepared_kept : KeptBySteps conv (fun t => UnpreparedEntrys [t])
    (fun ts ts' => UnpreparedEntrys ts → UnpreparedEntrys ts') fun _ _ => True where
  refl _ := id
  trans h h' := fun hts => h' (h hts)
  loaded _ _ hts := by
    refine List.forall_mem_append.mpr ⟨hts, ?_⟩
    exact unprepared_node.mpr ⟨⟨ientryParse_filter _ _ KentryFilter.noConfusion, List.forall_mem_nil _⟩,
      List.forall_mem_nil _⟩
  made ht _ hts := List.forall_mem_append.mpr ⟨hts, ht⟩
  below {ts i t t'} hi h hts := by
    intro u hu
    rcases List.mem_or_eq_of_mem_set hu with hu | rfl
    · exact hts u hu
    · exact h (List.forall_mem_singleton.mpr (hts t (List.mem_of_getElem? hi))) u List.mem_cons_self
  nested h hk := unprepared_node.mpr ⟨(unprepared_node.mp hk).1, h (unprepared_node.mp hk).2⟩
  attributes {k ts info error} hk := by
    obtain ⟨hdata, hts⟩ := unprepared_node.mp hk
    exact unprepared_node.mpr ⟨{ hdata with legalFilter := ientryParse_filter _ _ hdata.legalFilter }, hts⟩
  action hload hk := by
    obtain ⟨hdata, hts⟩ := unprepared_node.mp hk
    refine unprepared_node.mpr ⟨{ hdata with unresolved := ?_ }, hts⟩
    exact List.forall_mem_append.mpr
      ⟨hdata.unresolved, List.forall_mem_singleton.mpr (iactionLoad_legal hload).sym⟩
  hotkey _ _ hk := by
    obtain ⟨hdata, hts⟩ := unprepared_node.mp hk
    exact unprepared_node.mpr ⟨{ hdata with }, hts⟩
  pluginsRefl _ := trivial
  pluginsTrans _ _ := trivial
  plugin _ _ := trivial

end Unprepared

section Memory

/-- The ENTRYs of a scheme at their addresses. -/
def KschemeTree.rows (s : KschemeTree) : List (Placed KentryData) := place none 0 s.entrys

/-- The scheme in memory. An ENTRY that a loader has made by itself has no parent. -/
def KschemeTree.inMemory (s : KschemeTree) (hasParent : EntryId → Bool) : Kscheme where
  plugins := s.plugins.map (·.toKplugin)
  entrys := roots 0 s.entrys
  entry e :=
    match s.rows[e]? with
    | some row => { row.label.entry with parent := if hasParent e then row.parent else none, body := e }
    | none => Kentry.new "" e
  body b :=
    match s.rows[b]? with
    | some row => ⟨row.nested, row.label.actions.map (·.toKaction), row.label.hotkeys, fun _ => none⟩
    | none => Kbody.new

variable {s : KschemeTree} {hasParent : EntryId → Bool}

theorem inMemory_body (e : EntryId) : ((s.inMemory hasParent).entry e).body = e := by
  dsimp only [KschemeTree.inMemory]
  cases s.rows[e]? <;> rfl

theorem inMemory_nested : (s.inMemory hasParent).nested = nestedAt s.rows := by
  funext e
  rw [Kscheme.nested, Kscheme.bodyOf, inMemory_body, nestedAt, List.getD_eq_getElem?_getD,
    List.getElem?_map]
  dsimp only [KschemeTree.inMemory]
  cases s.rows[e]? <;> rfl

theorem inMemory_entry {e : EntryId} {row : Placed KentryData} (h : s.rows[e]? = some row) :
    (s.inMemory hasParent).entry e =
      { row.label.entry with parent := if hasParent e then row.parent else none, body := e } := by
  dsimp only [KschemeTree.inMemory]
  rw [h]

theorem inMemory_actions {e : EntryId} {row : Placed KentryData} (h : s.rows[e]? = some row) :
    (s.inMemory hasParent).actions e = row.label.actions.map (·.toKaction) := by
  rw [Kscheme.actions, Kscheme.bodyOf, inMemory_body]
  dsimp only [KschemeTree.inMemory]
  rw [h]

theorem inMemory_free {e : EntryId} (h : s.rows[e]? = none) :
    (s.inMemory hasParent).entry e = Kentry.new "" e ∧ (s.inMemory hasParent).actions e = [] := by
  constructor
  · dsimp only [KschemeTree.inMemory]
    rw [h]
  · rw [Kscheme.actions, Kscheme.bodyOf, inMemory_body]
    dsimp only [KschemeTree.inMemory]
    rw [h]
    rfl

theorem inMemory_parent {e q : EntryId} (h : ((s.inMemory hasParent).entry e).parent = some q) :
    e ∈ (s.inMemory hasParent).nested q := by
  cases hrow : s.rows[e]? with
  | none =>
    rw [(inMemory_free hrow).1] at h
    cases h
  | some row =>
    rw [inMemory_entry hrow] at h
    have hparent : row.parent = some q := by
      split at h
      · exact h
      · cases h
    obtain rfl : row.address = e := TreeAddresses.place_getElem? s.entrys hrow
    rcases TreeAddresses.place_parent none 0 s.entrys row (List.mem_of_getElem? hrow) with
      ⟨-, hnone⟩ | ⟨above, habove, hsome, hnested⟩
    · rw [hnone] at hparent
      cases hparent
    · obtain rfl : above.address = q := Option.some.inj (hsome.symm.trans hparent)
      obtain ⟨i, hi⟩ := List.mem_iff_getElem?.mp habove
      obtain rfl : above.address = i := TreeAddresses.place_getElem? s.entrys hi
      have hrowq : s.rows[above.address]? = some above := hi
      rw [inMemory_nested, nestedAt, List.getD_eq_getElem?_getD, List.getElem?_map, hrowq]
      exact hnested

/-- The ENTRYs in memory are as the preparation takes them to be. -/
theorem inMemory_declared (h : ∀ row ∈ s.rows, row.label.Unprepared) :
    (s.inMemory hasParent).Declared where
  legalFilter e := by
    cases hrow : s.rows[e]? with
    | none =>
      rw [(inMemory_free hrow).1]
      exact KentryFilter.noConfusion
    | some row =>
      rw [inMemory_entry hrow]
      exact (h row (List.mem_of_getElem? hrow)).legalFilter
  ownBody e e' heq := by rwa [inMemory_body, inMemory_body] at heq
  unresolved e action haction := by
    cases hrow : s.rows[e]? with
    | none =>
      rw [(inMemory_free hrow).2] at haction
      cases haction
    | some row =>
      rw [inMemory_actions hrow] at haction
      obtain ⟨a, ha, rfl⟩ := List.mem_map.mp haction
      exact (h row (List.mem_of_getElem? hrow)).unresolved a ha
  emptyTable e purpose := by
    rw [Kscheme.nestedByPurpose, Kscheme.bodyOf, inMemory_body]
    dsimp only [KschemeTree.inMemory]
    cases s.rows[e]? <;> rfl
  forest := by
    rw [inMemory_nested]
    exact TreeAddresses.forest_place s.entrys
  parent _ _ := inMemory_parent

/-- The ENTRY in memory has the data of the tree, and the ENTRYs nested in it show its children. -/
inductive Shows (scheme : Kscheme) : EntryId → KentryTree → Prop
  | node {e : EntryId} {k : KentryData} {nested : List KentryTree} {parent : Option EntryId}
      (hentry : scheme.entry e = { k.entry with parent := parent, body := e })
      (hactions : scheme.actions e = k.actions.map (·.toKaction))
      (hhotkeys : (scheme.bodyOf e).hotkeys = k.hotkeys)
      (hnested : List.Forall₂ (Shows scheme) (scheme.nested e) nested) :
      Shows scheme e (.node k nested)

theorem Shows.name {scheme : Kscheme} {e : EntryId} {t : KentryTree} (h : Shows scheme e t) :
    scheme.name e = t.name := by
  cases h with
  | node hentry => rw [Kscheme.name, hentry, KentryTree.name, Rose.label_node]

theorem inMemory_bodyOf {e : EntryId} {row : Placed KentryData} (h : s.rows[e]? = some row) :
    (s.inMemory hasParent).bodyOf e =
      ⟨row.nested, row.label.actions.map (·.toKaction), row.label.hotkeys, fun _ => none⟩ := by
  rw [Kscheme.bodyOf, inMemory_body]
  dsimp only [KschemeTree.inMemory]
  rw [h]

theorem inMemory_shows {e : EntryId} {parent : Option EntryId} {t : KentryTree}
    (h : Holds s.rows e (placeTree parent e t)) : Shows (s.inMemory hasParent) e t := by
  induction t using Rose.ind generalizing e parent with
  | hnode k nested ih =>
    obtain ⟨hrow, hnested⟩ := TreeAddresses.holds_placeTree h
    refine .node (inMemory_entry hrow) (inMemory_actions hrow) ?_ ?_
    · rw [inMemory_bodyOf hrow]
    · rw [Kscheme.nested, inMemory_bodyOf hrow]
      exact TreeAddresses.forall₂_roots (fun t ht _ _ hholds => ih t ht hholds) hnested

theorem inMemory_entrys :
    List.Forall₂ (Shows (s.inMemory hasParent)) (s.inMemory hasParent).entrys s.entrys :=
  TreeAddresses.forall₂_roots (fun _ _ _ _ => inMemory_shows) (TreeAddresses.holds_self _)

end Memory

section Paths

variable {scheme : Kscheme}

theorem Shows.nested {e : EntryId} {t : KentryTree} (h : Shows scheme e t) :
    List.Forall₂ (Shows scheme) (scheme.nested e) t.children := by
  cases h with
  | node _ _ _ hnested => exact hnested

theorem Shows.actions {e : EntryId} {t : KentryTree} (h : Shows scheme e t) :
    scheme.actions e = t.label.actions.map (·.toKaction) := by
  cases h with
  | node _ hactions => exact hactions

theorem Shows.names {entrys : List EntryId} {ts : List KentryTree}
    (h : List.Forall₂ (Shows scheme) entrys ts) : entrys.map scheme.name = ts.map KentryTree.name := by
  induction h with
  | nil => rfl
  | cons ht _ ih => rw [List.map_cons, List.map_cons, ht.name, ih]

theorem findEntry_shows {entrys : List EntryId} {ts : List KentryTree}
    (h : List.Forall₂ (Shows scheme) entrys ts) (name : String) :
    Option.Rel (Shows scheme) (scheme.findEntry entrys name) (Rose.findKey KentryData.name ts name) := by
  induction h with
  | nil => exact .none
  | @cons e t entrys ts ht _ ih =>
    have hname : scheme.name e = t.label.name := ht.name
    rw [Kscheme.findEntry, Rose.findKey, List.find?_cons, List.find?_cons, hname, beq_eq_decide]
    cases decide (t.label.name = name) with
    | true => exact .some ht
    | false => exact ih

end Paths

section Loaded

variable {s : KschemeTree} {hasParent : EntryId → Bool}

theorem serviceEntry_unprepared {name sym : String} {purpose : KentryPurpose}
    {nested : List KentryTree} (h : UnpreparedEntrys nested) :
    UnpreparedEntrys [serviceEntry name purpose sym nested] :=
  unprepared_node.mpr ⟨⟨KentryFilter.noConfusion, List.forall_mem_singleton.mpr rfl⟩, h⟩

theorem commandPtype_unprepared : UnpreparedEntrys [commandPtype] := by
  apply serviceEntry_unprepared
  have hcompl : UnpreparedEntrys [serviceEntry "__compl" .completion "completion_COMMAND@klish" []] :=
    serviceEntry_unprepared (List.forall_mem_nil _)
  have hhelp : UnpreparedEntrys [serviceEntry "__help" .help "help_COMMAND@klish" []] :=
    serviceEntry_unprepared (List.forall_mem_nil _)
  exact List.forall_mem_append.mpr ⟨hcompl, hhelp⟩

theorem createPtype_unprepared {ref : Option String} {ptype : KentryTree}
    (h : createPtype none none none ref = some ptype) : UnpreparedEntrys [ptype] := by
  cases ref with
  | none => cases h
  | some ref =>
    cases h
    exact unprepared_node.mpr ⟨⟨KentryFilter.noConfusion, List.forall_mem_nil _⟩, List.forall_mem_nil _⟩

theorem loads_declared {files : KxmlFiles} (h : Loads conv files .new s) :
    (s.inMemory hasParent).Declared := by
  have hunprepared : UnpreparedEntrys s.entrys := (h.kept unprepared_kept commandPtype_unprepared
    fun _ root _ => root.makes fun _ _ => createPtype_unprepared).1 (List.forall_mem_nil _)
  exact inMemory_declared (TreeAddresses.place_all none 0 s.entrys hunprepared)

/-- No ENTRY on the way along the path is a link. -/
def KschemeTree.LinkFree (s : KschemeTree) (path : String) : Prop :=
  ∀ names t, names <+: strtok '/' path → Rose.forestAt KentryData.name names s.entrys = some t →
    t.label.entry.refStr = none

section Prepared

open Kscheme

variable {plugins : List Kplugin} {scheme scheme' : Kscheme} {log : List (EntryId × EntryId)}
  {error : List String}

/-- The walk goes down to the ENTRY, and it is no link. -/
structure Walked (scheme : Kscheme) (e : EntryId) : Prop where
  reached : Forests.Reached scheme.entrys (Forests.spread scheme.isLink scheme.nested) e
  node : scheme.isLink e = false

theorem Shows.isLink {e : EntryId} {t : KentryTree} (h : Shows scheme e t)
    (ht : t.label.entry.refStr = none) : scheme.isLink e = false := by
  cases h with
  | node hentry =>
    rw [Kscheme.isLink, hentry]
    dsimp only [Rose.label_node] at ht ⊢
    rw [ht]
    rfl

theorem findEntry_prepared (hname : scheme'.name = scheme.name) (entrys : List EntryId) (name : String) :
    scheme'.findEntry entrys name = scheme.findEntry entrys name := by
  rw [Kscheme.findEntry, Kscheme.findEntry, hname]

/-- The preparation leaves the way to an ENTRY as it is, if there is no link on it. -/
theorem treeAt_prepared (hend : Pass.Settled (scheme.start plugins) ⟨scheme', [], true, error⟩ log)
    (names : List String) {e : EntryId} {t t' : KentryTree} (he : Shows scheme e t)
    (hwalked : Walked scheme e) (ht : Rose.treeAt KentryData.name names t = some t')
    (hfree : ∀ names' u, names' <+: names → Rose.treeAt KentryData.name names' t = some u →
      u.label.entry.refStr = none) :
    ∃ e', names.foldl (fun entry name => entry.bind fun e =>
        scheme'.findEntry (scheme'.nested e) name) (some e) = some e' ∧
      Shows scheme e' t' ∧ Walked scheme e' := by
  induction names generalizing e t with
  | nil =>
    cases ht
    exact ⟨e, rfl, he, hwalked⟩
  | cons name names ih =>
    obtain ⟨c, hc, ht⟩ := Option.bind_eq_some_iff.mp ht
    have hfind := findEntry_shows he.nested name
    rw [hc] at hfind
    cases hn : scheme.findEntry (scheme.nested e) name with
    | none =>
      rw [hn] at hfind
      cases hfind
    | some n =>
      rw [hn] at hfind
      cases hfind with
      | some hshows =>
        have hcfree : c.label.entry.refStr = none := by
          apply hfree [name] c (List.prefix_append [name] names)
          rw [Rose.treeAt, hc]
          rfl
        have hnwalked : Walked scheme n := by
          refine ⟨hwalked.reached.child ?_, hshows.isLink hcfree⟩
          exact Forests.mem_spread.mpr ⟨hwalked.node, List.mem_of_find?_eq_some hn⟩
        have hnested : scheme'.nested e = scheme.nested e := hend.node_nested hwalked.node
        have hname : scheme'.name = scheme.name := hend.name
        rw [List.foldl_cons, Option.bind_some, hnested, findEntry_prepared hname, hn]
        refine ih hshows hnwalked ht fun names' u hprefix hu => ?_
        apply hfree (name :: names') u (List.cons_prefix_cons.mpr ⟨rfl, hprefix⟩)
        rw [Rose.treeAt, hc]
        exact hu

/-- The ACTION is the loaded one, with the symbol that its reference names. -/
def Filled (scheme : Kscheme) (action : Kaction) (loaded : KactionDecl) : Prop :=
  ∃ sym plugin, loaded.toKaction.symRef.bind scheme.findSym = some (sym, plugin) ∧
    action = { loaded.toKaction with sym := some sym, plugin := some plugin }

theorem Fresh.walked_prepared (h : scheme.Fresh)
    (hend : Pass.Settled (scheme.start plugins) ⟨scheme', [], true, error⟩ log)
    (hfilter : scheme'.FilterInv) {e : EntryId} {t : KentryTree} (he : Shows scheme e t)
    (hwalked : Walked scheme e) :
    scheme'.name e = t.name ∧ (scheme'.nested e).map scheme'.name = t.children.map KentryTree.name ∧
      List.Forall₂ (Filled scheme') (scheme'.actions e) t.label.actions ∧
      Prepared scheme' (Released (scheme.start plugins)) e := by
  have hlog : e ∈ log.map Prod.fst := (mem_log_iff hend).mpr hwalked.reached
  have hname : scheme'.name = scheme.name := hend.name
  have hnested : scheme'.nested e = scheme.nested e := hend.node_nested hwalked.node
  refine ⟨?_, ?_, ?_, h.prepared_node hend hfilter hlog hwalked.node⟩
  · rw [hname, he.name]
  · rw [hname, hnested]
    exact Shows.names he.nested
  · obtain ⟨⟨e, src⟩, hmem, rfl⟩ := List.mem_map.mp hlog
    have hready := (hend.node e src hmem hwalked.node).2
    have hactions : (scheme.start plugins).scheme.actions e = t.label.actions.map (·.toKaction) :=
      he.actions
    have hplugins : scheme'.plugins = (scheme.start plugins).scheme.plugins := hend.plugins
    have hfind : scheme'.findSym = (scheme.start plugins).scheme.findSym := by
      funext name
      rw [findSym, findSym, hplugins]
    have hresolved := hready.resolved
    rw [hactions] at hresolved
    rw [hready.actions, hactions, List.map_map, List.forall₂_map_left_iff, List.forall₂_same]
    intro a ha
    obtain ⟨sym, plugin, hsym, hfilled⟩ :=
      prepareAction_resolved (hresolved a.toKaction (List.mem_map_of_mem ha))
    exact ⟨sym, plugin, by rwa [hfind], hfilled⟩

/-- When the preparation of what has been loaded succeeds, a path with no link on it leads to an
ENTRY with the name, the ACTIONs and the nested ENTRYs that have been loaded, and it is live and
prepared. -/
theorem loads_prepared {files : KxmlFiles} (h : Loads conv files .new s)
    {loadPlugins : List Kplugin → Option (List Kplugin)}
    (hload : loadPlugins (s.inMemory hasParent).plugins = some plugins) {fuel : ℕ} {r : Report}
    (hrun : prepare loadPlugins fuel (s.inMemory hasParent) = some r) (hok : r.ok = true)
    {path : String} {t : KentryTree} (ht : s.findByPath path = some t) (hfree : s.LinkFree path) :
    ∃ e, r.scheme.findEntryByPath path = some e ∧ r.scheme.name e = t.name ∧
      (r.scheme.nested e).map r.scheme.name = t.children.map KentryTree.name ∧
      List.Forall₂ (Filled r.scheme) (r.scheme.actions e) t.label.actions ∧
      Prepared r.scheme (Released ((s.inMemory hasParent).start plugins)) e := by
  have hfresh : (s.inMemory hasParent).Fresh := (loads_declared h).toFresh
  obtain ⟨error, log, hend⟩ := hfresh.settled hload hrun hok
  have hfilter : r.scheme.FilterInv := prepare_filterInv hfresh.toLoaded hrun hok
  have hentrys : r.scheme.entrys = (s.inMemory hasParent).entrys := hend.entrys
  have hname : r.scheme.name = (s.inMemory hasParent).name := hend.name
  rw [KschemeTree.findByPath] at ht
  rw [KschemeTree.LinkFree] at hfree
  rw [findEntryByPath]
  cases hnames : strtok '/' path with
  | nil =>
    rw [hnames] at ht
    cases ht
  | cons name names =>
    rw [hnames] at ht hfree
    obtain ⟨c, hc, ht⟩ := Option.bind_eq_some_iff.mp ht
    have hfind := findEntry_shows (@inMemory_entrys s hasParent) name
    rw [hc] at hfind
    dsimp only
    rw [hentrys, findEntry_prepared hname]
    cases hn : (s.inMemory hasParent).findEntry (s.inMemory hasParent).entrys name with
    | none =>
      rw [hn] at hfind
      cases hfind
    | some n =>
      rw [hn] at hfind
      cases hfind with
      | some hshows =>
        have hcfree : c.label.entry.refStr = none := by
          apply hfree [name] c (List.prefix_append [name] names)
          rw [Rose.forestAt, hc]
          rfl
        have hwalked : Walked (s.inMemory hasParent) n :=
          ⟨.root (List.mem_of_find?_eq_some hn), hshows.isLink hcfree⟩
        obtain ⟨e, he, hshows', hwalked'⟩ := treeAt_prepared hend names hshows hwalked ht
          fun names' u hprefix hu => by
            apply hfree (name :: names') u (List.cons_prefix_cons.mpr ⟨rfl, hprefix⟩)
            rw [Rose.forestAt, hc]
            exact hu
        exact ⟨e, he, Fresh.walked_prepared hfresh hend hfilter hshows' hwalked'⟩

end Prepared

end Loaded

section Samples

def helpFiles : KxmlFiles where
  expandTilde fn := fn
  isfile _ := true
  readdir _ := none
  docRead fn := if fn = "help.xml" then some helpDoc else none

def klishPlugin : Kplugin :=
  ⟨"klish", ["help", "COMMAND", "completion_COMMAND", "help_COMMAND"].map fun name =>
    ⟨name, .undefined, .undefined, false⟩⟩

theorem loads_prepared_sample : ∃ r p t e,
    kxmlLoadScheme wordConv helpFiles .new (some "help.xml") [] = some r ∧
    Kscheme.prepare (fun _ => some [klishPlugin]) 8 (r.obj.inMemory fun _ => true) = some p ∧
    r.obj.findByPath "/main/help" = some t ∧ p.scheme.findEntryByPath "/main/help" = some e ∧
    Kscheme.Prepared p.scheme (Kscheme.Released ((r.obj.inMemory fun _ => true).start [klishPlugin])) e := by
  have hall : (kxmlLoadScheme wordConv helpFiles .new (some "help.xml") []).any (fun r =>
      (Kscheme.prepare (fun _ => some [klishPlugin]) 8 (r.obj.inMemory fun _ => true)).any (fun p => p.ok) &&
      (r.obj.findByPath "/main/help").isSome &&
      (strtok '/' "/main/help").inits.all fun names =>
        (Rose.forestAt KentryData.name names r.obj.entrys).all fun t =>
          t.label.entry.refStr.isNone) = true := by
    decide +kernel
  obtain ⟨r, hload, hr⟩ := (Option.any_eq_true _ _).mp hall
  simp only [Bool.and_eq_true, Option.isSome_iff_exists, List.all_eq_true, List.mem_inits] at hr
  obtain ⟨⟨hprepare, t, ht⟩, hnames⟩ := hr
  obtain ⟨p, hrun, hok⟩ := (Option.any_eq_true _ _).mp hprepare
  have hfree : r.obj.LinkFree "/main/help" := by
    intro names u hprefix hu
    have hnone := hnames names hprefix
    rw [hu] at hnone
    simpa using hnone
  have hplugins : (fun _ => some [klishPlugin] : List Kplugin → Option (List Kplugin))
      (r.obj.inMemory fun _ => true).plugins = some [klishPlugin] := rfl
  obtain ⟨e, he, -, -, -, hprepared⟩ := loads_prepared
    (Relation.ReflTransGen.single (.xml hload)) hplugins hrun hok ht hfree
  exact ⟨r, p, t, e, hload, hrun, ht, he, hprepared⟩

end Samples

end Klish
