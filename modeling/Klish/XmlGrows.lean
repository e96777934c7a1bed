import Klish.Lib.PathMaps
import Klish.XmlLegal

/-!
# Loading only adds

A scheme is loaded from several databases and from many files, in any order. Each of them finds the
ENTRYs that are there already and adds to them. What has been loaded is still found by its path
after all later loads.
-/

namespace Klish

open Rose

variable {conv : FauxConv}

/-- The name of an ENTRY is its key among the ENTRYs of its parent. -/
abbrev KentryData.name (k : KentryData) : String := k.entry.name

/-- `kscheme_find_entry_by_path`, before the links are resolved. -/
def KschemeTree.findByPath (s : KschemeTree) (path : String) : Option KentryTree :=
  forestAt KentryData.name (strtok '/' path) s.entrys

/-- The ACTIONs and the hotkeys stay in front of those that are added. -/
structure KentryData.Grows (k k' : KentryData) : Prop where
  actions : k.actions <+: k'.actions
  hotkeys : k.hotkeys <+: k'.hotkeys

theorem KentryData.Grows.refl (k : KentryData) : k.Grows k := ⟨List.prefix_rfl, List.prefix_rfl⟩

theorem KentryData.Grows.trans (k k' k'' : KentryData) (h : k.Grows k') (h' : k'.Grows k'') :
    k.Grows k'' :=
  ⟨h.actions.trans h'.actions, h.hotkeys.trans h'.hotkeys⟩

abbrev EntrysGrow : List KentryTree → List KentryTree → Prop :=
  Rose.Grows KentryData.name KentryData.Grows

theorem EntrysGrow.refl (ts : List KentryTree) : EntrysGrow ts ts :=
  Rose.Grows.refl KentryData.Grows.refl ts

theorem EntrysGrow.trans {ts ts' ts'' : List KentryTree} (h : EntrysGrow ts ts')
    (h' : EntrysGrow ts' ts'') : EntrysGrow ts ts'' :=
  Rose.Grows.trans KentryData.Grows.trans h h'

/-- Something is added to one ENTRY. -/
theorem EntrysGrow.node {k k' : KentryData} {ts ts' : List KentryTree} (hname : k'.name = k.name)
    (hdata : k.Grows k') (h : EntrysGrow ts ts') : EntrysGrow [.node k ts] [.node k' ts'] :=
  .kept hname hdata h (.added [])

theorem addUnique_grows {κ : Type} {key : κ → String} {k : κ} {list list' : List κ}
    (h : addUnique key k list = some list') : list <+: list' := by
  obtain ⟨-, rfl⟩ := addUnique_eq_some.mp h
  exact List.prefix_append _ _

theorem addSortedUnique_sublist {κ : Type} {key : κ → String} {k : κ} {list list' : List κ}
    (h : addSortedUnique key k list = some list') : list.Sublist list' := by
  induction list generalizing list' with
  | nil => exact List.nil_sublist _
  | cons k' list ih =>
    rw [addSortedUnique] at h
    split at h
    · cases h
      exact List.sublist_cons_self _ _
    · split at h
      · obtain ⟨rest, hrest, rfl⟩ := Option.map_eq_some_iff.mp h
        exact (ih hrest).cons_cons k'
      · cases h

/-- Every step of the loader adds. -/
theorem entrysGrow_kept : KeptBySteps conv (fun _ => True) EntrysGrow List.Sublist where
  refl := EntrysGrow.refl
  trans := EntrysGrow.trans
  loaded _ _ := (EntrysGrow.refl _).append _
  made _ _ := (EntrysGrow.refl _).append _
  below hi h := Rose.Grows.set KentryData.Grows.refl hi h
  nested h := .node rfl (.refl _) h
  attributes := .node (ientryParse_name conv _ _ _) ⟨List.prefix_rfl, List.prefix_rfl⟩ (.refl _)
  action _ := .node rfl ⟨List.prefix_append _ _, List.prefix_rfl⟩ (.refl _)
  hotkey _ hadd := .node rfl ⟨List.prefix_rfl, addUnique_grows hadd⟩ (.refl _)
  pluginsRefl := List.Sublist.refl
  pluginsTrans h h' := h.trans h'
  plugin _ hadd := addSortedUnique_sublist hadd

theorem Loads.grows {files : KxmlFiles} {s s' : KschemeTree} (h : Loads conv files s s') :
    EntrysGrow s.entrys s'.entrys ∧ s.plugins.Sublist s'.plugins := by
  exact h.kept entrysGrow_kept trivial fun _ root _ => root.makes fun _ _ _ => trivial

/-- Whatever is loaded later, and whether it succeeds or not, an ENTRY is still found by its path.
Its ACTIONs, its hotkeys and the ENTRYs that were nested in it are still there, in their order and
before the new ones. No PLUGIN is lost. -/
theorem loads_only_add {files : KxmlFiles} {s s' : KschemeTree} (h : Loads conv files s s') :
    (∀ path t, s.findByPath path = some t → ∃ t', s'.findByPath path = some t' ∧
      t.label.actions <+: t'.label.actions ∧ t.label.hotkeys <+: t'.label.hotkeys ∧
      t.children.map KentryTree.name <+: t'.children.map KentryTree.name) ∧
    s.entrys.map KentryTree.name <+: s'.entrys.map KentryTree.name ∧
    s.plugins.Sublist s'.plugins := by
  obtain ⟨hentrys, hplugins⟩ := h.grows
  refine ⟨?_, hentrys.keys, hplugins⟩
  intro path t ht
  obtain ⟨t', ht', hgrows⟩ := hentrys.forestAt ht
  obtain ⟨hdata, hnested⟩ := hgrows.children
  exact ⟨t', ht', hdata.actions, hdata.hotkeys, hnested.keys⟩

theorem loads_only_add_sample : ∃ r, kxmlLoadScheme wordConv showFiles .new (some "show.xml") [] =
    some r ∧ (∃ t, r.obj.findByPath "/main/show" = some t ∧ t.label.actions ≠ []) ∧
    ∀ path t, r.obj.findByPath path = some t →
      ∃ t', (ischemeLoad wordConv showDecl r.obj []).obj.findByPath path = some t' ∧
        t.label.actions <+: t'.label.actions := by
  obtain ⟨r, hload, hshow⟩ : ∃ r,
      kxmlLoadScheme wordConv showFiles .new (some "show.xml") [] = some r ∧
        ∃ t, r.obj.findByPath "/main/show" = some t ∧ t.label.actions.length = 1 :=
    ⟨_, rfl, _, rfl, rfl⟩
  obtain ⟨t, ht, hactions⟩ := hshow
  refine ⟨r, hload, ⟨t, ht, List.ne_nil_of_length_eq_add_one hactions⟩, ?_⟩
  have hloads : Loads wordConv showFiles r.obj (ischemeLoad wordConv showDecl r.obj []).obj :=
    Relation.ReflTransGen.single (.ischeme showDecl [])
  intro path u hu
  obtain ⟨u', hu', hprefix, -⟩ := (loads_only_add hloads).1 path u hu
  exact ⟨u', hu', hprefix⟩

end Klish
