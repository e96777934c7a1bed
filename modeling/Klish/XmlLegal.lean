import Klish.IschemeRoundTrip
import Klish.Lib.PathMaps
import Klish.XmlSteps

/-!
# The schemes that are loaded from XML

Whatever the documents are, what is loaded from them is as legal as what is loaded from
declarations, and whether the load succeeds does not matter. The only exception is an empty `ptype`
attribute: the ENTRY made for it is a link with an empty path.
-/

namespace Klish

variable {conv : FauxConv}

/-- No element of the document has an empty `ptype` attribute. -/
def KxmlNode.NoEmptyPtype : KxmlNode → Prop := Rose.All fun t => t.label.attr "ptype" ≠ some ""

theorem KxmlNode.NoEmptyPtype.makes {n : KxmlNode} (h : n.NoEmptyPtype) :
    n.Makes (KentryTree.Legal conv) := by
  induction n using Rose.ind with
  | hnode node nodes ih =>
    refine .node ?_ fun c hc => ih c hc (h.child hc)
    intro ptype hptype
    have hne := h.root
    rw [Rose.label_node] at hptype hne
    cases href : node.attr "ptype" with
    | none =>
      rw [href] at hptype
      cases hptype
    | some ref =>
      rw [href] at hptype hne
      cases hptype
      have hnew : (Kentry.new "__ptype" 0).Legal := Kentry.new_legal (by decide)
      have hentry : ({ Kentry.new "__ptype" 0 with purpose := .ptype, refStr := some ref } :
          Kentry).Legal := { hnew with purpose := KentryPurpose.noConfusion, refStr := hne }
      exact .node ⟨⟨hentry, List.forall_mem_nil _, List.forall_mem_nil _, List.nodup_nil⟩,
        List.nodup_nil⟩ (List.forall_mem_nil _)

theorem serviceEntry_legal (htri : ∃ s, conv.str2tri s = some .yes) {name sym : String}
    {purpose : KentryPurpose} {nested : List KentryTree} (hname : name ≠ "") (hsym : sym ≠ "")
    (hpurpose : purpose ≠ .none) (hnested : LegalList conv nested) :
    KentryTree.Legal conv (serviceEntry name purpose sym nested) := by
  have hentry : ({ Kentry.new name 0 with purpose := purpose } : Kentry).Legal :=
    { Kentry.new_legal hname with purpose := hpurpose }
  have haction : ({ KactionDecl.new with symRef := some sym, permanent := .yes } :
      KactionDecl).Legal conv :=
    { KactionDecl.new_legal conv with
      symRef := fun h => hsym (Option.some.inj h)
      permanent := .inr htri }
  exact .node ⟨⟨hentry, List.forall_mem_singleton.mpr haction, List.forall_mem_nil _, List.nodup_nil⟩,
    hnested.names⟩ hnested.each

theorem commandPtype_legal (htri : ∃ s, conv.str2tri s = some .yes) :
    KentryTree.Legal conv commandPtype := by
  have hnil : LegalList conv [] := ⟨List.forall_mem_nil _, List.nodup_nil⟩
  have hcompl : KentryTree.Legal conv (serviceEntry "__compl" .completion "completion_COMMAND@klish" []) :=
    serviceEntry_legal htri (by decide) (by decide) KentryPurpose.noConfusion hnil
  have hhelp : KentryTree.Legal conv (serviceEntry "__help" .help "help_COMMAND@klish" []) :=
    serviceEntry_legal htri (by decide) (by decide) KentryPurpose.noConfusion hnil
  refine serviceEntry_legal htri (by decide) (by decide) KentryPurpose.noConfusion ⟨?_, ?_⟩
  · exact List.forall_mem_cons.mpr ⟨hcompl, List.forall_mem_singleton.mpr hhelp⟩
  · show ["__compl", "__help"].Nodup
    decide

theorem LegalList.snoc {t : KentryTree} {ts : List KentryTree} (h : LegalList conv ts)
    (ht : KentryTree.Legal conv t) (hnew : t.name ∉ ts.map KentryTree.name) :
    LegalList conv (ts ++ [t]) :=
  h.add ht (addUnique_eq_some.mpr ⟨hnew, rfl⟩)

theorem legalList_singleton {t : KentryTree} : LegalList conv [t] ↔ KentryTree.Legal conv t :=
  ⟨fun h => h.each t List.mem_cons_self,
    fun h => ⟨List.forall_mem_singleton.mpr h, List.nodup_singleton _⟩⟩

theorem legal_node {k : KentryData} {ts : List KentryTree} :
    KentryTree.Legal conv (.node k ts) ↔ k.Legal conv ∧ LegalList conv ts :=
  ⟨fun h => ⟨h.root.1, fun _ hc => h.child hc, h.root.2⟩, fun h => .node ⟨h.1, h.2.names⟩ h.2.each⟩

/-- Legal lists stay legal, and the names stay where they are. -/
def StaysLegal (conv : FauxConv) (ts ts' : List KentryTree) : Prop :=
  (LegalList conv ts → LegalList conv ts') ∧ ts.map KentryTree.name <+: ts'.map KentryTree.name

/-- Only the data of one ENTRY are changed. -/
theorem StaysLegal.data {k k' : KentryData} {ts : List KentryTree}
    (hlegal : k.Legal conv → k'.Legal conv) (hname : k'.entry.name = k.entry.name) :
    StaysLegal conv [.node k ts] [.node k' ts] := by
  refine ⟨fun h => ?_, ?_⟩
  · obtain ⟨hk, hts⟩ := legal_node.mp (legalList_singleton.mp h)
    exact legalList_singleton.mpr (legal_node.mpr ⟨hlegal hk, hts⟩)
  · simp [KentryTree.name, hname]

def PluginsStayLegal (ks ks' : List KpluginDecl) : Prop :=
  ((∀ k ∈ ks, k.Legal) → ∀ k ∈ ks', k.Legal) ∧
    (ks.Pairwise (fun k k' => k.name < k'.name) → ks'.Pairwise fun k k' => k.name < k'.name)

theorem staysLegal_kept (hinv : conv.Inverse) :
    KeptBySteps conv (KentryTree.Legal conv) (StaysLegal conv) PluginsStayLegal where
  refl _ := ⟨id, List.prefix_rfl⟩
  trans h h' := ⟨fun hlegal => h'.1 (h.1 hlegal), h.2.trans h'.2⟩
  loaded {info name error ts} hname hnew := by
    have hentry := ientryParse_legal hinv info error (Kentry.new_legal hname)
    refine ⟨fun h => h.snoc ?_ ?_, by simp⟩
    · exact legal_node.mpr ⟨⟨hentry, List.forall_mem_nil _, List.forall_mem_nil _, List.nodup_nil⟩,
        List.forall_mem_nil _, List.nodup_nil⟩
    · rw [newEntry_name]
      exact hnew
  made ht hnew := ⟨fun h => h.snoc ht hnew, by simp⟩
  below {ts i t t'} hi h := by
    have hname : t'.name = t.name := by simpa using (h.2.eq_of_length rfl).symm
    refine ⟨fun hts => ?_, ?_⟩
    · have ht := hts.each t (List.mem_of_getElem? hi)
      exact hts.set hi (legalList_singleton.mp (h.1 (legalList_singleton.mpr ht))) hname
    · exact (map_set_eq hi hname).symm ▸ List.prefix_rfl
  nested {k ts ts'} h := by
    refine ⟨fun hk => ?_, List.prefix_rfl⟩
    obtain ⟨hroot, hts⟩ := legal_node.mp (legalList_singleton.mp hk)
    exact legalList_singleton.mpr (legal_node.mpr ⟨hroot, h.1 hts⟩)
  attributes {k ts info error} :=
    .data (fun hk => { hk with entry := ientryParse_legal hinv info error hk.entry })
      (ientryParse_name conv info k.entry error)
  action hload := by
    refine .data (fun hk => { hk with actions := ?_ }) rfl
    intro a ha
    rcases List.mem_append.mp ha with ha | ha
    · exact hk.actions a ha
    · exact List.mem_singleton.mp ha ▸ iactionLoad_legal hload
  hotkey hload hadd := by
    refine .data (fun hk => { hk with hotkeys := ?_, keys := addUnique_nodup hk.keys hadd }) rfl
    intro h hh
    rcases addUnique_mem hadd hh with rfl | hh
    · exact ihotkeyLoad_legal hload
    · exact hk.hotkeys h hh
  pluginsRefl _ := ⟨id, id⟩
  pluginsTrans h h' := ⟨fun hks => h'.1 (h.1 hks), fun hks => h'.2 (h.2 hks)⟩
  plugin hload hadd := by
    refine ⟨fun hks k hk => ?_, fun hks => addSortedUnique_sorted hks hadd⟩
    rcases addSortedUnique_mem hadd hk with rfl | hk
    · exact ipluginLoad_legal hload
    · exact hks k hk

/-- Whatever is loaded, whether it succeeds or not, the scheme is legal. -/
theorem loads_legal (hinv : conv.Inverse) (htri : ∃ s, conv.str2tri s = some .yes) {files : KxmlFiles}
    (hfiles : ∀ filename, ∀ root ∈ files.docRead filename, root.NoEmptyPtype) {s : KschemeTree}
    (h : Loads conv files .new s) : s.Legal conv := by
  obtain ⟨hentrys, hplugins⟩ := h.kept (staysLegal_kept hinv) (commandPtype_legal htri)
    fun filename root hroot => (hfiles filename root hroot).makes
  obtain ⟨heach, hnames⟩ := hentrys.1 ⟨nofun, List.nodup_nil⟩
  exact ⟨hplugins.1 nofun, hplugins.2 .nil, heach, hnames⟩

section Samples

/-- An element with its attributes. -/
def xmlElement (name : String) (attrs : List (String × String)) (nested : List KxmlNode) : KxmlNode :=
  .node ⟨.elm, some name, fun attr => attrs.lookup attr, none⟩ nested

/-- A VIEW with a COMMAND, its PARAM and its ACTION. -/
def showDoc : KxmlNode :=
  xmlElement "KLISH" [] [xmlElement "PLUGIN" [("name", "klish")] [],
    xmlElement "VIEW" [("name", "main")]
      [xmlElement "COMMAND" [("name", "show"), ("help", "Show")]
        [xmlElement "PARAM" [("name", "port"), ("ptype", "/INT"), ("min", "0")] [],
          xmlElement "ACTION" [("sym", "show@klish")] []]]]

def showFiles : KxmlFiles where
  expandTilde fn := fn
  isfile fn := fn == "show.xml"
  readdir _ := none
  docRead fn := if fn = "show.xml" then some showDoc else none

theorem showDoc_noEmptyPtype : showDoc.NoEmptyPtype := by
  repeat' first
    | exact .node (by decide) (List.forall_mem_nil _)
    | refine .node (by decide) (List.forall_mem_cons.mpr ⟨?_, ?_⟩)
    | refine List.forall_mem_cons.mpr ⟨?_, ?_⟩
    | exact List.forall_mem_nil _

theorem loads_legal_sample : ∃ r, kxmlLoadScheme wordConv showFiles .new (some "show.xml") [] = some r ∧
    r.ok = true ∧ r.obj.Legal wordConv := by
  have hfiles : ∀ filename, ∀ root ∈ showFiles.docRead filename, root.NoEmptyPtype := by
    intro filename root hroot
    by_cases hname : filename = "show.xml"
    · obtain rfl : showDoc = root := by simpa [showFiles, hname] using hroot
      exact showDoc_noEmptyPtype
    · simp [showFiles, hname] at hroot
  obtain ⟨r, hload, hok⟩ : ∃ r,
      kxmlLoadScheme wordConv showFiles .new (some "show.xml") [] = some r ∧ r.ok = true :=
    ⟨_, rfl, rfl⟩
  refine ⟨r, hload, hok, ?_⟩
  exact loads_legal wordConv_inverse ⟨"true", by decide⟩ hfiles
    (Relation.ReflTransGen.single (.xml hload))

end Samples

end Klish
