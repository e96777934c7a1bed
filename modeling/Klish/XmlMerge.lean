import Klish.XmlGrows

/-!
# What a document means

The ENTRYs of a scheme, by their paths, are a map. A document is a list of changes of that map, each
made at a path, whatever the elements are nested in and whether the ENTRY is there already. Loading a
document makes these changes in the order of the document.
-/

namespace Klish

open Rose (labels forestLabels)

/-- What an element does to the ENTRY at a path. -/
inductive EntryChange where
  | declare (info : IentryData)
  | ptype (ref : String)
  | commandPtype
  | action (kaction : KactionDecl)
  | hotkey (khotkey : Khotkey)

abbrev EntryMap := PathMap String KentryData

variable (conv : FauxConv)

/-- The declaration of an ENTRY that may be there already. -/
def declared (info : IentryData) : Option KentryData → KentryData
  | some k => { k with entry := (ientryParse conv info k.entry []).obj }
  | none =>
    let name := info.name.getD ""
    { KentryData.new name with entry := (ientryParse conv info (Kentry.new name 0) []).obj }

/-- The ENTRY for the `ptype` attribute of a PARAM. -/
def refPtype (ref : String) : KentryTree :=
  .node { KentryData.new "__ptype" with
    entry := { Kentry.new "__ptype" 0 with purpose := .ptype, refStr := some ref } } []

namespace EntryChange

open Classical in
/-- A change of what is at a path and below it. -/
noncomputable def apply : EntryChange → EntryMap → EntryMap
  | declare info, m => m.putRoot (some (declared conv info (m [])))
  | ptype ref, m =>
    if m ["__ptype"] = none then m.put "__ptype" (labels KentryData.name (refPtype ref)) else m
  | commandPtype, m =>
    if ∃ name k, m [name] = some k ∧ k.entry.purpose = .ptype then m
    else if m ["__ptype"] = none then m.put "__ptype" (labels KentryData.name Klish.commandPtype) else m
  | action a, m => m.putRoot ((m []).map fun k => { k with actions := k.actions ++ [a] })
  | hotkey h, m => m.putRoot ((m []).map fun k => { k with hotkeys := k.hotkeys ++ [h] })

/-- What a change does to the ENTRY itself. -/
def own : EntryChange → Option KentryData → Option KentryData
  | declare info, k => some (declared conv info k)
  | ptype _, k => k
  | commandPtype, k => k
  | action a, k => k.map fun k => { k with actions := k.actions ++ [a] }
  | hotkey h, k => k.map fun k => { k with hotkeys := k.hotkeys ++ [h] }

end EntryChange

/-- The changes by the handler of an element, with the ones by the nested elements. -/
def elementChanges (node : KxmlNodeData) (tag : Ktag) (nested : List (List String × EntryChange)) :
    List (List String × EntryChange) :=
  match elementInfo node tag with
  | some (.ok info) => PathMap.below (info.name.getD "") (([], .declare info) ::
      (openedChanges ++ nested ++ closedChanges))
  | some (.error _) => []
  | none =>
    match tag with
    | .klish => nested
    | .action => (iactionLoad conv (actionInfo node) []).1.toList.map fun a => ([], .action a)
    | .hotkey => (ihotkeyLoad ⟨node.attr "key", node.attr "cmd"⟩ []).1.toList.map fun h =>
        ([], .hotkey h)
    | _ => []
where
  openedChanges : List (List String × EntryChange) :=
    match tag with
    | .param | .switch | .seq => (node.attr "ptype").toList.map fun ref => ([], .ptype ref)
    | _ => []
  closedChanges : List (List String × EntryChange) :=
    match tag with
    | .command | .filter | .cond | .compl | .help | .prompt | .log => [([], .commandPtype)]
    | _ => []

mutual

/-- The changes by an element, in the order of the document. -/
def nodeChanges : KxmlNode → List (List String × EntryChange)
  | .node node nodes => elementChanges conv node (kxmlNodeTag node) (nodesChanges nodes)

def nodesChanges : List KxmlNode → List (List String × EntryChange)
  | [] => []
  | n :: nodes => nodeChanges n ++ nodesChanges nodes

end

variable {conv}

section Errors

variable {α : Type}

/-- The messages so far do not matter to an attribute. -/
theorem Parsed.attr_error {p q : Parsed α} (h : p.ok = q.ok ∧ p.obj = q.obj) (tag field : String)
    (value : Option String) (set : String → α → Option α) :
    (p.attr tag field value set).ok = (q.attr tag field value set).ok ∧
      (p.attr tag field value set).obj = (q.attr tag field value set).obj := by
  obtain ⟨hok, hobj⟩ := h
  cases value with
  | none => exact ⟨hok, hobj⟩
  | some s =>
    rw [Parsed.attr, Parsed.attr, hobj]
    split
    · exact ⟨hok, hobj⟩
    · split
      · exact ⟨rfl, rfl⟩
      · exact ⟨hok, rfl⟩

theorem ientryParse_error (info : IentryData) (entry : Kentry) (error : List String) :
    (ientryParse conv info entry error).ok = (ientryParse conv info entry []).ok ∧
      (ientryParse conv info entry error).obj = (ientryParse conv info entry []).obj := by
  rw [ientryParse, ientryParse]
  repeat apply Parsed.attr_error
  exact ⟨rfl, rfl⟩

theorem iactionLoad_error (info : Iaction) (error : List String) :
    (iactionLoad conv info error).1 = (iactionLoad conv info []).1 := by
  have hparse : (iactionParse conv info .new error).ok = (iactionParse conv info .new []).ok ∧
      (iactionParse conv info .new error).obj = (iactionParse conv info .new []).obj := by
    rw [iactionParse, iactionParse]
    repeat apply Parsed.attr_error
    exact ⟨rfl, rfl⟩
  rw [iactionLoad, iactionLoad, hparse.1, hparse.2]

theorem ihotkeyLoad_error (info : Ihotkey) (error : List String) :
    (ihotkeyLoad info error).1 = (ihotkeyLoad info []).1 := by
  rw [ihotkeyLoad, ihotkeyLoad]
  split
  · rfl
  · split <;> rfl

end Errors

section Entrys

variable {info : IentryData} {error : List String}

/-- The attributes of an element: it has a name, its ACTIONs and hotkeys are elements. -/
structure IentryData.OfElement (info : IentryData) : Prop where
  name : info.name = some (info.name.getD "")
  actions : info.actions = []
  hotkeys : info.hotkeys = []

theorem elementInfo_ofElement {node : KxmlNodeData} {tag : Ktag}
    (h : elementInfo node tag = some (.ok info)) : info.OfElement := by
  have hparam : ∀ tag, paramInfo node tag = .ok info → info.OfElement := by
    intro tag h
    unfold paramInfo at h
    split at h <;> cases h
    exact ⟨rfl, rfl, rfl⟩
  have hcommand : ∀ tag, commandInfo node tag = .ok info → info.OfElement := by
    intro tag h
    unfold commandInfo at h
    cases hname : commandName node tag <;> rw [hname] at h <;> cases h
    exact ⟨rfl, rfl, rfl⟩
  cases tag with
  | entry =>
    have hinfo : entryInfo node = .ok info := Option.some.inj h
    unfold entryInfo at hinfo
    split at hinfo <;> cases hinfo
    exact ⟨rfl, rfl, rfl⟩
  | view =>
    have hinfo : viewInfo node = .ok info := Option.some.inj h
    unfold viewInfo at hinfo
    split at hinfo <;> cases hinfo
    exact ⟨rfl, rfl, rfl⟩
  | ptype =>
    have hinfo : ptypeInfo node = .ok info := Option.some.inj h
    unfold ptypeInfo at hinfo
    split at hinfo <;> cases hinfo
    exact ⟨rfl, rfl, rfl⟩
  | param => exact hparam _ (Option.some.inj h)
  | switch => exact hparam _ (Option.some.inj h)
  | seq => exact hparam _ (Option.some.inj h)
  | command => exact hcommand _ (Option.some.inj h)
  | filter => exact hcommand _ (Option.some.inj h)
  | cond => exact hcommand _ (Option.some.inj h)
  | compl => exact hcommand _ (Option.some.inj h)
  | help => exact hcommand _ (Option.some.inj h)
  | prompt => exact hcommand _ (Option.some.inj h)
  | log => exact hcommand _ (Option.some.inj h)
  | _ => cases h

/-- A new ENTRY has nothing but its attributes. -/
theorem ientryLoad_leaf {t : KentryTree} (h : (ientryLoad conv (.node info []) error).1 = some t) :
    t.children = [] ∧ info.name = some t.name ∧
      (info.actions = [] → info.hotkeys = [] → t.label = declared conv info none) := by
  rw [ientryLoad, Rose.label_node, ientryLoadWith] at h
  cases hname : info.name with
  | none =>
    rw [hname] at h
    cases h
  | some name =>
    rw [hname] at h
    dsimp only at h
    split at h
    · cases h
    · split at h
      · dsimp only at h
        split at h
        · cases h
          rw [ientryParseNested, parseEntrys]
          refine ⟨rfl, ?_, ?_⟩
          · exact congrArg some (ientryParse_name conv info (Kentry.new name 0) error).symm
          · intro hactions hhotkeys
            rw [hactions, hhotkeys, declared, hname]
            have hentry := (@ientryParse_error conv info (Kentry.new name 0) error).2
            rw [hentry]
            rfl
        · cases h
      · cases h

end Entrys

abbrev UniqueNames : List KentryTree → Prop := Rose.Unique KentryData.name

theorem uniqueNames_leaf (k : KentryData) : UniqueNames [.node k []] :=
  .cons List.not_mem_nil .nil .nil

/-- Every step of the loader adds, and keeps the names apart. -/
theorem merging_kept : KeptBySteps conv (fun t => UniqueNames [t])
    (fun ts ts' => EntrysGrow ts ts' ∧ (UniqueNames ts → UniqueNames ts')) List.Sublist where
  refl ts := ⟨.refl ts, id⟩
  trans h h' := ⟨h.1.trans h'.1, fun hts => h'.2 (h.2 hts)⟩
  loaded {info name error ts} _ hnew := by
    refine ⟨(EntrysGrow.refl _).append _, fun hts => hts.snoc (uniqueNames_leaf _) ?_⟩
    have hname := @newEntry_name conv error info name
    exact fun hmem => hnew (hname ▸ hmem)
  made ht hnew := ⟨(EntrysGrow.refl _).append _, fun hts => hts.snoc ht hnew⟩
  below {ts i t t'} hi h := by
    have hkey : t'.label.name = t.label.name := by simpa using (h.1.keys.eq_of_length rfl).symm
    refine ⟨Rose.Grows.set KentryData.Grows.refl hi h.1, fun hts => ?_⟩
    exact hts.set hi hkey (h.2 (hts.tree (List.mem_of_getElem? hi)))
  nested {k ts ts'} h :=
    ⟨.node rfl (.refl _) h.1, fun hk => .cons List.not_mem_nil (h.2 hk.children) .nil⟩
  attributes {k ts info error} := ⟨(@entrysGrow_kept conv).attributes,
    fun hk => .cons List.not_mem_nil hk.children .nil⟩
  action hload := ⟨(@entrysGrow_kept conv).action hload,
    fun hk => .cons List.not_mem_nil hk.children .nil⟩
  hotkey hload hadd := ⟨(@entrysGrow_kept conv).hotkey hload hadd,
    fun hk => .cons List.not_mem_nil hk.children .nil⟩
  pluginsRefl := List.Sublist.refl
  pluginsTrans h h' := h.trans h'
  plugin _ hadd := addSortedUnique_sublist hadd

/-- The ENTRY and the ones below it, by their paths. -/
abbrev KentryTree.map (t : KentryTree) : EntryMap := labels KentryData.name t

/-- The ENTRYs of a list and the ones below them, by their paths. -/
abbrev entrysMap (ts : List KentryTree) : EntryMap := forestLabels KentryData.name ts

section Steps

variable {node : KxmlNodeData} {tag : Ktag} {info : IentryData}

theorem map_addNested (t n : KentryTree) : KentryTree.map (t.addNested n) =
    if t.map [n.name] = none then t.map.put n.name n.map else t.map := by
  obtain ⟨k, nested⟩ := t
  rw [KentryTree.addNested]
  have hroot : KentryTree.map (.node k nested) [n.name] =
      (Rose.findKey KentryData.name nested n.name).map Rose.label := by
    rw [KentryTree.map, Rose.labels_node]
    show forestLabels KentryData.name nested [n.name] = _
    rw [Rose.forestLabels_cons]
    cases Rose.findKey KentryData.name nested n.name <;> rfl
  cases hadd : addUnique KentryTree.name n nested with
  | none =>
    have hmem : n.name ∈ nested.map fun t => KentryData.name t.label := by
      by_contra hnew
      have hsome : addUnique KentryTree.name n nested = some (nested ++ [n]) :=
        addUnique_eq_some.mpr ⟨hnew, rfl⟩
      rw [hsome] at hadd
      cases hadd
    have hfind : Rose.findKey KentryData.name nested n.name ≠ none :=
      fun hnone => Rose.findKey_eq_none.mp hnone hmem
    rw [hroot, if_neg (by simpa using hfind)]
    rfl
  | some list =>
    obtain ⟨hnew, rfl⟩ := addUnique_eq_some.mp hadd
    rw [hroot, Rose.findKey_eq_none.mpr hnew, Option.map_none, if_pos rfl, KentryTree.map,
      KentryTree.map, Rose.labels_node, Rose.labels_node, PathMap.put_putRoot]
    exact congrArg (PathMap.putRoot · _) (Rose.forestLabels_snoc hnew rfl)

theorem map_openedBy (node : KxmlNodeData) (tag : Ktag) (t : KentryTree) :
    KentryTree.map (openedBy node tag t) =
      PathMap.run (EntryChange.apply conv) (elementChanges.openedChanges node tag) t.map := by
  have hparam : KentryTree.map (addParamPtype node t) = PathMap.run (EntryChange.apply conv)
      ((node.attr "ptype").toList.map fun ref => ([], .ptype ref)) t.map := by
    rw [addParamPtype]
    cases node.attr "ptype" with
    | none => rfl
    | some ref => exact map_addNested t (refPtype ref)
  cases tag with
  | param => exact hparam
  | switch => exact hparam
  | seq => exact hparam
  | _ => rfl

/-- An ENTRY of a name is found if it is the only one of that name. -/
theorem any_purpose_iff {t : KentryTree} (h : UniqueNames [t]) (purpose : KentryPurpose) :
    (t.children.any fun n => n.label.entry.purpose = purpose) = true ↔
      ∃ name k, t.map [name] = some k ∧ k.entry.purpose = purpose := by
  have hmap : ∀ name, t.map [name] =
      (Rose.findKey KentryData.name t.children name).map Rose.label := by
    intro name
    show (Rose.treeAt KentryData.name [name] t).map Rose.label = _
    rw [Rose.treeAt]
    cases Rose.findKey KentryData.name t.children name <;> rfl
  rw [List.any_eq_true]
  constructor
  · rintro ⟨n, hn, hpurpose⟩
    refine ⟨n.label.name, n.label, ?_, by simpa using hpurpose⟩
    rw [hmap, h.children.findKey hn]
    rfl
  · rintro ⟨name, k, hk, hpurpose⟩
    rw [hmap] at hk
    obtain ⟨n, hn, rfl⟩ := Option.map_eq_some_iff.mp hk
    exact ⟨n, List.mem_of_find?_eq_some hn, by simpa using hpurpose⟩

theorem map_closedBy {t : KentryTree} (h : UniqueNames [t]) :
    KentryTree.map (closedBy tag t) =
      PathMap.run (EntryChange.apply conv) (elementChanges.closedChanges tag) t.map := by
  have hcommand : KentryTree.map (addCommandPtype t) =
      PathMap.run (EntryChange.apply conv) [([], .commandPtype)] t.map := by
    show _ = EntryChange.apply conv .commandPtype t.map
    rw [addCommandPtype, EntryChange.apply]
    by_cases hany : (t.children.any fun n => n.label.entry.purpose = .ptype) = true
    · rw [if_pos hany, if_pos ((any_purpose_iff h .ptype).mp hany)]
    · rw [if_neg hany, if_neg (mt (any_purpose_iff h .ptype).mpr hany)]
      exact map_addNested t Klish.commandPtype
  cases tag with
  | command => exact hcommand
  | filter => exact hcommand
  | cond => exact hcommand
  | compl => exact hcommand
  | help => exact hcommand
  | prompt => exact hcommand
  | log => exact hcommand
  | _ => rfl

/-- The ENTRY of an element after it has been found or added. -/
theorem addsEntry_map {list list' : List KentryTree} {i : ℕ} {name : String} (hinfo : info.OfElement)
    (hname : info.name = some name) (h : AddsEntry conv info list (some i) list') :
    ∃ t, list'[i]? = some t ∧ Rose.Place KentryData.name list' name i ∧ t.name = name ∧
      entrysMap list' = (entrysMap list).put name t.map ∧
      t.map = EntryChange.apply conv (.declare info) ((entrysMap list).sub name) := by
  generalize hplace : some i = place at h
  cases h with
  | rejected => cases hplace
  | @parsed j k nested error hfind hj =>
    split at hplace
    · cases hplace
      have hfirst : Rose.Place KentryData.name list name i := by
        have hpred : (fun t : KentryTree => some t.name == info.name) =
            fun t => decide (t.label.name = name) := by
          funext t
          rw [hname]
          rfl
        rwa [hpred] at hfind
      obtain ⟨t, ht, hkey⟩ := hfirst.get
      obtain rfl : Rose.node k nested = t := Option.some.inj (hj.symm.trans ht)
      have hkept : KentryData.name (Rose.node { k with
          entry := (ientryParse conv info k.entry error).obj } nested).label = name :=
        (ientryParse_name conv info k.entry error).trans hkey
      refine ⟨_, List.getElem?_set_self (List.getElem?_eq_some_iff.mp hj).1, (hfirst.set hkept).1,
        hkept, Rose.forestLabels_set hfirst hkept, ?_⟩
      rw [Rose.forestLabels_sub (hfirst.findKey hj), EntryChange.apply, KentryTree.map,
        Rose.labels_node, Rose.labels_node, (ientryParse_error info k.entry error).2]
      rfl
    · cases hplace
  | @added t error hload hnew =>
    cases hplace
    obtain ⟨hnested, hkey, hlabel⟩ := ientryLoad_leaf hload
    obtain rfl : name = t.name := Option.some.inj (hname.symm.trans hkey)
    refine ⟨t, List.getElem?_concat_length, (Rose.findKey_snoc hnew rfl).1, rfl,
      Rose.forestLabels_snoc hnew rfl, ?_⟩
    obtain ⟨k, nested⟩ := t
    obtain rfl : nested = [] := hnested
    obtain rfl : k = declared conv info none := hlabel hinfo.actions hinfo.hotkeys
    rw [Rose.forestLabels_sub_none (Rose.findKey_eq_none.mpr hnew), EntryChange.apply,
      KentryTree.map, Rose.labels_node]
    funext p
    cases p <;> rfl

end Steps

section Documents

variable {node : KxmlNodeData} {tag parentTag : Ktag} {children : KxmlChildren} {parent : KxmlParent}
  {error : List String} {info : IentryData} {nested : List (List String × EntryChange)}

/-- The object has been changed as the list tells. -/
def KxmlParent.Changed (conv : FauxConv) (changes : List (List String × EntryChange)) :
    KxmlParent → KxmlParent → Prop
  | .scheme s, .scheme s' =>
    entrysMap s'.entrys = PathMap.run (EntryChange.apply conv) changes (entrysMap s.entrys)
  | .entry t, .entry t' => t'.map = PathMap.run (EntryChange.apply conv) changes t.map
  | _, _ => True

def KxmlParent.Unique : KxmlParent → Prop
  | .scheme s => UniqueNames s.entrys
  | .entry t => UniqueNames [t]
  | _ => True

/-- Objects that have grown with their names apart. -/
abbrev KxmlParent.Merges : KxmlParent → KxmlParent → Prop :=
  KxmlParent.Rel (fun ts ts' => EntrysGrow ts ts' ∧ (UniqueNames ts → UniqueNames ts')) List.Sublist

/-- What the nested elements do, if all of them succeed. -/
def Makes (conv : FauxConv) (children : KxmlChildren) (nested : List (List String × EntryChange)) : Prop :=
  ∀ parent error r, children parent error = some r → parent.Merges r.obj ∧
    (parent.Unique → r.ok = true → parent.Changed conv nested r.obj)

theorem KxmlParent.Merges.unique {parent' : KxmlParent} (h : parent.Merges parent')
    (hunique : parent.Unique) : parent'.Unique := by
  cases parent with
  | scheme s =>
    cases parent' with
    | scheme s' => exact h.1.2 hunique
    | _ => exact h.elim
  | entry t =>
    cases parent' with
    | entry t' => exact h.2 hunique
    | _ => exact h.elim
  | action a =>
    cases parent' with
    | action a' => trivial
    | _ => exact h.elim
  | plugin k =>
    cases parent' with
    | plugin k' => trivial
    | _ => exact h.elim

theorem createPtype_unique {ref : Option String} {ptype : KentryTree}
    (h : createPtype none none none ref = some ptype) : UniqueNames [ptype] := by
  cases ref with
  | none => cases h
  | some ref =>
    cases h
    exact uniqueNames_leaf _

theorem commandPtype_unique : UniqueNames [commandPtype] := by
  refine .cons List.not_mem_nil (.cons ?_ .nil (uniqueNames_leaf _)) .nil
  show "__compl" ∉ ["__help"]
  decide

theorem elementChanges_entry (hinfo : elementInfo node tag = some (.ok info)) :
    elementChanges conv node tag nested = PathMap.below (info.name.getD "") (([], .declare info) ::
      (elementChanges.openedChanges node tag ++ nested ++ elementChanges.closedChanges tag)) := by
  unfold elementChanges
  rw [hinfo]

theorem processesIn_map (hchildren : Makes conv children nested)
    (hinfo : elementInfo node tag = some (.ok info)) {list : List KentryTree} (hunique : UniqueNames list)
    {r : Parsed (List KentryTree)}
    (h : ProcessesIn conv info (openedBy node tag) (closedBy tag) children list r) (hok : r.ok = true) :
    entrysMap r.obj = PathMap.run (EntryChange.apply conv) (elementChanges conv node tag nested)
      (entrysMap list) := by
  have hof := elementInfo_ofElement hinfo
  cases h with
  | rejected hadd => cases hok
  | @nested i list' t t' ok error error' hadd hi hrun =>
    obtain rfl : ok = true := hok
    obtain ⟨u, hu, hplace, hname, hlist, hdeclared⟩ := addsEntry_map hof hof.name hadd
    obtain rfl : t = u := Option.some.inj (hi.symm.trans hu)
    have hunique' : UniqueNames [t] :=
      ((merging_kept.adds hadd).2 hunique).tree (List.mem_of_getElem? hi)
    have hopened : EntrysGrow [t] [openedBy node tag t] ∧
        (UniqueNames [t] → UniqueNames [openedBy node tag t]) :=
      (@merging_kept conv).opened (fun _ => createPtype_unique) t
    obtain ⟨hmerges, hchanged⟩ := hchildren _ _ _ hrun
    have hclosed : EntrysGrow [t'] [closedBy tag t'] ∧
        (UniqueNames [t'] → UniqueNames [closedBy tag t']) :=
      (@merging_kept conv).closed commandPtype_unique t'
    have hgrows : EntrysGrow [t] [closedBy tag t'] := hopened.1.trans (hmerges.1.trans hclosed.1)
    have hkey : (closedBy tag t').label.name = info.name.getD "" := by
      have hsame : t.label.name = (closedBy tag t').label.name := by
        simpa using hgrows.keys.eq_of_length rfl
      exact hsame.symm.trans hname
    have hmap' : t'.map = PathMap.run (EntryChange.apply conv) nested
        (KentryTree.map (openedBy node tag t)) := hchanged (hopened.2 hunique') rfl
    rw [elementChanges_entry hinfo, if_pos rfl, PathMap.run_below, PathMap.run_cons, PathMap.run_append, PathMap.run_append]
    dsimp only [PathMap.changeAt]
    rw [← hdeclared, ← map_openedBy, ← hmap', ← map_closedBy (hmerges.2 (hopened.2 hunique')),
      entrysMap, Rose.forestLabels_set hplace hkey]
    exact (congrArg (PathMap.put · _ _) hlist).trans (PathMap.put_put ..)

theorem KxmlParent.changed_nil (parent : KxmlParent) : parent.Changed conv [] parent := by
  cases parent with
  | scheme s => rfl
  | entry t => rfl
  | action a => trivial
  | plugin k => trivial

theorem KxmlParent.Changed.append {parent' parent'' : KxmlParent}
    {changes changes' : List (List String × EntryChange)} (hmerges : parent.Merges parent')
    (hmerges' : parent'.Merges parent'') (h : parent.Changed conv changes parent')
    (h' : parent'.Changed conv changes' parent'') : parent.Changed conv (changes ++ changes') parent'' := by
  cases parent with
  | scheme s =>
    cases parent' with
    | scheme s' =>
      cases parent'' with
      | scheme s'' =>
        rw [KxmlParent.Changed] at h h' ⊢
        rw [PathMap.run_append, ← h, h']
      | _ => trivial
    | _ => exact hmerges.elim
  | entry t =>
    cases parent' with
    | entry t' =>
      cases parent'' with
      | entry t'' =>
        rw [KxmlParent.Changed] at h h' ⊢
        rw [PathMap.run_append, ← h, h']
      | _ => trivial
    | _ => exact hmerges.elim
  | action a => trivial
  | plugin k => trivial

/-- Only the data of one ENTRY are changed. -/
theorem changed_data (change : EntryChange) (f : KentryData → KentryData)
    (happly : ∀ m : EntryMap, change.apply conv m = m.putRoot ((m []).map f)) (k : KentryData)
    (list : List KentryTree) :
    KxmlParent.Changed conv [([], change)] (.entry (.node k list)) (.entry (.node (f k) list)) := by
  show KentryTree.map _ = change.apply conv (KentryTree.map _)
  rw [happly, KentryTree.map, KentryTree.map, Rose.labels_node, Rose.labels_node]
  funext p
  cases p <;> rfl

theorem processElement_changes (htag : tag = kxmlNodeTag node) (hchildren : Makes conv children nested)
    {r : Parsed KxmlParent} (h : processElement conv node tag parentTag children parent error = some r)
    (hunique : parent.Unique) (hok : r.ok = true) :
    parent.Changed conv (elementChanges conv node tag nested) r.obj := by
  cases processElement_does h with
  | skipped htype =>
    rw [kxmlNodeTag, if_neg htype] at htag
    subst htag
    exact parent.changed_nil
  | rejected => cases hok
  | klish htag hrun =>
    subst htag
    exact (hchildren _ _ _ hrun).2 hunique hok
  | top hparent hinfo hin => exact processesIn_map hchildren hinfo hunique hin hok
  | @nested k list info r hinfo hin =>
    have hmap := processesIn_map hchildren hinfo hunique.children hin hok
    rw [KxmlParent.Changed, KentryTree.map, KentryTree.map, Rose.labels_node, Rose.labels_node]
    rw [elementChanges_entry hinfo, PathMap.run_below] at hmap ⊢
    rw [PathMap.sub_putRoot, PathMap.put_putRoot]
    exact congrArg (PathMap.putRoot · _) hmap
  | plugin htag _ _ _ =>
    subst htag
    exact rfl
  | @action k list a error error' r htag hload hrun =>
    subst htag
    have hchanges : elementChanges conv node .action nested = [([], .action a)] := by
      rw [iactionLoad_error] at hload
      show (iactionLoad conv (actionInfo node) []).1.toList.map _ = _
      rw [hload]
      rfl
    rw [hchanges]
    exact changed_data (.action a) (fun k => { k with actions := k.actions ++ [a] }) (fun _ => rfl) k list
  | @hotkey k list hotkey hotkeys error error' htag hload hadd =>
    subst htag
    obtain ⟨-, rfl⟩ := addUnique_eq_some.mp hadd
    have hchanges : elementChanges conv node .hotkey nested = [([], .hotkey hotkey)] := by
      rw [ihotkeyLoad_error] at hload
      show (ihotkeyLoad ⟨node.attr "key", node.attr "cmd"⟩ []).1.toList.map _ = _
      rw [hload]
      rfl
    rw [hchanges]
    exact changed_data (.hotkey hotkey) (fun k => { k with hotkeys := k.hotkeys ++ [hotkey] })
      (fun _ => rfl) k list

theorem makes_unique (n : KxmlNode) : n.Makes fun t => UniqueNames [t] :=
  n.makes fun _ _ => createPtype_unique

theorem processChildren_changes {nodes : List KxmlNode}
    (hnodes : ∀ n ∈ nodes, ∀ tag, Makes conv (processNode conv n tag) (nodeChanges conv n))
    (tag : Ktag) : Makes conv (processChildren conv nodes tag) (nodesChanges conv nodes) := by
  induction nodes with
  | nil =>
    intro parent error r h
    cases h
    exact ⟨(@merging_kept conv).relRefl parent, fun _ _ => parent.changed_nil⟩
  | cons n nodes ih =>
    intro parent error r h
    rw [processChildren] at h
    obtain ⟨r', hr', h⟩ := Option.bind_eq_some_iff.mp h
    obtain ⟨hmerges, hchanged⟩ := hnodes n List.mem_cons_self tag _ _ _ hr'
    split at h
    case isTrue hok =>
      obtain ⟨hmerges', hchanged'⟩ := ih (fun n hn => hnodes n (List.mem_cons_of_mem _ hn)) _ _ _ h
      refine ⟨(@merging_kept conv).relTrans hmerges hmerges', fun hunique hok' => ?_⟩
      exact (hchanged hunique hok).append hmerges hmerges' (hchanged' (hmerges.unique hunique) hok')
    case isFalse hok =>
      cases h
      exact ⟨hmerges, fun _ hok' => absurd hok' hok⟩

/-- A document makes its changes in its order. -/
theorem processNode_changes (n : KxmlNode) (tag : Ktag) :
    Makes conv (processNode conv n tag) (nodeChanges conv n) := by
  induction n using Rose.ind generalizing tag with
  | hnode node nodes ih =>
    intro parent error r h
    refine ⟨processNode_kept merging_kept commandPtype_unique (makes_unique _) h, ?_⟩
    rw [processNode] at h
    exact processElement_changes rfl (processChildren_changes ih _) h

/-- The changes by a file, if it can be read. -/
def fileChanges (conv : FauxConv) (files : KxmlFiles) (filename : String) :
    List (List String × EntryChange) :=
  (files.docRead filename).elim [] (nodeChanges conv)

theorem kxmlLoadFile_changes {files : KxmlFiles} {s : KschemeTree} {filename : String}
    {r : Parsed KschemeTree} (hunique : UniqueNames s.entrys)
    (h : kxmlLoadFile conv files s filename error = some r) :
    UniqueNames r.obj.entrys ∧ (r.ok = true → entrysMap r.obj.entrys =
      PathMap.run (EntryChange.apply conv) (fileChanges conv files filename) (entrysMap s.entrys)) := by
  unfold kxmlLoadFile at h
  rw [fileChanges]
  cases hread : files.docRead filename with
  | none =>
    rw [hread] at h
    cases h
    exact ⟨hunique, fun hok => absurd hok Bool.false_ne_true⟩
  | some root =>
    rw [hread] at h
    obtain ⟨⟨ok, obj, error'⟩, hrun, h⟩ := Option.bind_eq_some_iff.mp h
    obtain ⟨hmerges, hchanged⟩ := processNode_changes root .none _ _ _ hrun
    cases obj with
    | scheme s' =>
      cases h
      exact ⟨hmerges.1.2 hunique, fun hok => hchanged hunique hok⟩
    | _ => cases h

theorem kxmlLoadFiles_changes {files : KxmlFiles} {filenames : List String} {p r : Parsed KschemeTree}
    (hunique : UniqueNames p.obj.entrys) (h : kxmlLoadFiles conv files filenames p = some r)
    (hok : r.ok = true) : p.ok = true ∧ entrysMap r.obj.entrys =
      PathMap.run (EntryChange.apply conv) (filenames.flatMap (fileChanges conv files))
        (entrysMap p.obj.entrys) := by
  induction filenames generalizing p with
  | nil =>
    cases h
    exact ⟨hok, rfl⟩
  | cons filename filenames ih =>
    rw [kxmlLoadFiles] at h
    obtain ⟨r', hr', h⟩ := Option.bind_eq_some_iff.mp h
    obtain ⟨hunique', hfile⟩ := kxmlLoadFile_changes hunique hr'
    obtain ⟨hboth, hrest⟩ := ih (p := ⟨p.ok && r'.ok, r'.obj, r'.error⟩) hunique' h
    obtain ⟨hp, hr'ok⟩ := Bool.and_eq_true_iff.mp hboth
    refine ⟨hp, ?_⟩
    rw [List.flatMap_cons, PathMap.run_append, ← hfile hr'ok]
    exact hrest

end Documents

/-- The files that are loaded for a path, in the order of the loader. -/
def kxmlFilesOf (files : KxmlFiles) (path : Option String) : List String :=
  (strtokAny [':', ';'] (path.getD kxmlDefaultPath)).flatMap (kxmlFilesAt files)

/-- A load that succeeds makes the changes of all its files, one file after the other. -/
theorem kxmlLoadScheme_changes {files : KxmlFiles} {s : KschemeTree} {path : Option String}
    {error : List String} {r : Parsed KschemeTree} (hunique : UniqueNames s.entrys)
    (h : kxmlLoadScheme conv files s path error = some r) (hok : r.ok = true) :
    entrysMap r.obj.entrys = PathMap.run (EntryChange.apply conv)
      ((kxmlFilesOf files path).flatMap (fileChanges conv files)) (entrysMap s.entrys) :=
  (kxmlLoadFiles_changes hunique h hok).2

/-- A change of an ENTRY leaves all others as they are, but for a PTYPE that is made in it. -/
theorem EntryChange.apply_local (change : EntryChange) :
    PathMap.Local (· = "__ptype") (change.apply conv) (change.own conv) := by
  have hput : ∀ (m m' : EntryMap) b p, b ≠ "__ptype" → m.put "__ptype" m' (b :: p) = m (b :: p) :=
    fun m m' b p hb => if_neg hb
  cases change with
  | declare info => exact ⟨fun _ => rfl, fun _ _ _ _ => rfl⟩
  | action a => exact ⟨fun _ => rfl, fun _ _ _ _ => rfl⟩
  | hotkey h => exact ⟨fun _ => rfl, fun _ _ _ _ => rfl⟩
  | ptype ref =>
    constructor
    · intro m
      rw [EntryChange.apply]
      split <;> rfl
    · intro m b p hb
      rw [EntryChange.apply]
      split
      · exact hput _ _ b p hb
      · rfl
  | commandPtype =>
    constructor
    · intro m
      rw [EntryChange.apply]
      split
      · rfl
      · split <;> rfl
    · intro m b p hb
      rw [EntryChange.apply]
      split
      · rfl
      · split
        · exact hput _ _ b p hb
        · rfl

theorem kxmlLoadFiles_merges {files : KxmlFiles} {filenames : List String} {s : KschemeTree}
    {error : List String} {r : Parsed KschemeTree} (hunique : UniqueNames s.entrys)
    (h : kxmlLoadFiles conv files filenames ⟨true, s, error⟩ = some r) (hok : r.ok = true)
    {names : List String} (hnames : ∀ name ∈ names, name ≠ "__ptype") :
    entrysMap r.obj.entrys names =
      ((filenames.flatMap (fileChanges conv files)).filter fun change => change.1 = names).foldl
        (fun k change => change.2.own conv k) (entrysMap s.entrys names) := by
  rw [(kxmlLoadFiles_changes hunique h hok).2]
  exact PathMap.run_local EntryChange.apply_local _ _ hnames

/-- What an ENTRY is after a load depends on the elements of its own path alone: they are merged in
the order of the files and of the elements in them. -/
theorem kxmlLoadScheme_merges {files : KxmlFiles} {s : KschemeTree} {path : Option String}
    {error : List String} {r : Parsed KschemeTree} (hunique : UniqueNames s.entrys)
    (h : kxmlLoadScheme conv files s path error = some r) (hok : r.ok = true) {names : List String}
    (hnames : ∀ name ∈ names, name ≠ "__ptype") :
    entrysMap r.obj.entrys names =
      (((kxmlFilesOf files path).flatMap (fileChanges conv files)).filter fun change =>
        change.1 = names).foldl (fun k change => change.2.own conv k) (entrysMap s.entrys names) :=
  kxmlLoadFiles_merges hunique h hok hnames

/-- The only one that gives something may stand anywhere. -/
theorem flatMap_perm {α β : Type} {g : α → List β} {l l' : List α} (hperm : l.Perm l')
    (hone : ∀ a ∈ l, ∀ b ∈ l, g a ≠ [] → g b ≠ [] → a = b) : l.flatMap g = l'.flatMap g := by
  induction hperm with
  | nil => rfl
  | cons a _ ih =>
    rw [List.flatMap_cons, List.flatMap_cons, ih fun b hb c hc =>
      hone b (List.mem_cons_of_mem a hb) c (List.mem_cons_of_mem a hc)]
  | swap a b l =>
    simp only [List.flatMap_cons, ← List.append_assoc]
    congr 1
    by_cases ha : g a = []
    · rw [ha, List.append_nil, List.nil_append]
    · by_cases hb : g b = []
      · rw [hb, List.append_nil, List.nil_append]
      · rw [hone a (by simp) b (by simp) ha hb]
  | trans hperm _ ih ih' =>
    rw [ih hone]
    exact ih' fun a ha b hb => hone a (hperm.mem_iff.mpr ha) b (hperm.mem_iff.mpr hb)

/-- The order of the files, as a directory may list them in any, does not matter to an ENTRY that
only one of them has elements of. -/
theorem kxmlLoadFiles_perm {files : KxmlFiles} {filenames filenames' : List String} {s : KschemeTree}
    {error error' : List String} {r r' : Parsed KschemeTree} (hunique : UniqueNames s.entrys)
    (hperm : filenames.Perm filenames')
    (h : kxmlLoadFiles conv files filenames ⟨true, s, error⟩ = some r) (hok : r.ok = true)
    (h' : kxmlLoadFiles conv files filenames' ⟨true, s, error'⟩ = some r') (hok' : r'.ok = true)
    {names : List String} (hnames : ∀ name ∈ names, name ≠ "__ptype")
    (hone : ∀ f ∈ filenames, ∀ g ∈ filenames, names ∈ (fileChanges conv files f).map Prod.fst →
      names ∈ (fileChanges conv files g).map Prod.fst → f = g) :
    entrysMap r.obj.entrys names = entrysMap r'.obj.entrys names := by
  have hmem : ∀ f, ((fileChanges conv files f).filter fun change => change.1 = names) ≠ [] →
      names ∈ (fileChanges conv files f).map Prod.fst := by
    intro f hne
    obtain ⟨change, hchange⟩ := List.exists_mem_of_ne_nil _ hne
    obtain ⟨hmem, hpath⟩ := List.mem_filter.mp hchange
    exact List.mem_map.mpr ⟨change, hmem, by simpa using hpath⟩
  rw [kxmlLoadFiles_merges hunique h hok hnames, kxmlLoadFiles_merges hunique h' hok' hnames,
    List.filter_flatMap, List.filter_flatMap,
    flatMap_perm hperm fun f hf g hg hne hne' => hone f hf g hg (hmem f hne) (hmem g hne')]

section Samples

/-- Another file with the same VIEW. -/
def helpDoc : KxmlNode :=
  xmlElement "KLISH" [] [xmlElement "VIEW" [("name", "main")]
    [xmlElement "COMMAND" [("name", "help")] [xmlElement "ACTION" [("sym", "help@klish")] []]]]

def mainFiles : KxmlFiles where
  expandTilde fn := fn
  isfile _ := true
  readdir _ := none
  docRead fn := [("show.xml", showDoc), ("help.xml", helpDoc)].lookup fn

def mainPath : String := "show.xml:help.xml"

theorem uniqueNames_new : UniqueNames KschemeTree.new.entrys := .nil

/-- Both files declare the VIEW, each has its own COMMAND. -/
theorem kxmlLoadScheme_merges_sample : ∃ r,
    kxmlLoadScheme wordConv mainFiles .new (some mainPath) [] = some r ∧ r.ok = true ∧
    ∀ names ∈ [["main"], ["main", "show"], ["main", "help"]], entrysMap r.obj.entrys names =
      (((kxmlFilesOf mainFiles (some mainPath)).flatMap (fileChanges wordConv mainFiles)).filter
        fun change => change.1 = names).foldl (fun k change => change.2.own wordConv k)
        (entrysMap KschemeTree.new.entrys names) := by
  obtain ⟨r, hload, hok⟩ := (Option.any_eq_true _ _).mp (show
    (kxmlLoadScheme wordConv mainFiles .new (some mainPath) []).any (fun r => r.ok) = true by
      decide +kernel)
  refine ⟨r, hload, hok, ?_⟩
  have hapart : ∀ names ∈ [["main"], ["main", "show"], ["main", "help"]],
      ∀ name ∈ names, name ≠ "__ptype" := by decide
  exact fun names hmem => kxmlLoadScheme_merges uniqueNames_new hload hok (hapart names hmem)

theorem kxmlLoadScheme_changes_sample : ∃ r,
    kxmlLoadScheme wordConv mainFiles .new (some mainPath) [] = some r ∧ r.ok = true ∧
    entrysMap r.obj.entrys = PathMap.run (EntryChange.apply wordConv)
      ((kxmlFilesOf mainFiles (some mainPath)).flatMap (fileChanges wordConv mainFiles))
      (entrysMap KschemeTree.new.entrys) := by
  obtain ⟨r, hload, hok⟩ := (Option.any_eq_true _ _).mp (show
    (kxmlLoadScheme wordConv mainFiles .new (some mainPath) []).any (fun r => r.ok) = true by
      decide +kernel)
  exact ⟨r, hload, hok, kxmlLoadScheme_changes uniqueNames_new hload hok⟩

/-- The COMMAND of one file, before and after the other file. -/
theorem kxmlLoadFiles_perm_sample : ∃ r r',
    kxmlLoadFiles wordConv mainFiles ["show.xml", "help.xml"] ⟨true, .new, []⟩ = some r ∧
    kxmlLoadFiles wordConv mainFiles ["help.xml", "show.xml"] ⟨true, .new, []⟩ = some r' ∧
    entrysMap r.obj.entrys ["main", "show"] = entrysMap r'.obj.entrys ["main", "show"] := by
  obtain ⟨r, hload, hok⟩ := (Option.any_eq_true _ _).mp (show
    (kxmlLoadFiles wordConv mainFiles ["show.xml", "help.xml"] ⟨true, .new, []⟩).any
      (fun r => r.ok) = true by decide +kernel)
  obtain ⟨r', hload', hok'⟩ := (Option.any_eq_true _ _).mp (show
    (kxmlLoadFiles wordConv mainFiles ["help.xml", "show.xml"] ⟨true, .new, []⟩).any
      (fun r => r.ok) = true by decide +kernel)
  refine ⟨r, r', hload, hload', ?_⟩
  apply kxmlLoadFiles_perm uniqueNames_new (.swap "help.xml" "show.xml" []) hload hok hload' hok' (by decide)
  decide +kernel

end Samples

end Klish
