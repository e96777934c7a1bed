import Klish.IschemeLegal
import Klish.XmlLoad
import Mathlib.Logic.Relation

/-!
# What the elements of a document do

All that an element can do with the object of its parent is said once. What each of these steps
keeps is kept by every document.
-/

namespace Klish

variable {conv : FauxConv} {node : KxmlNodeData} {tag parentTag : Ktag} {children : KxmlChildren}
  {parent : KxmlParent} {error : List String} {info : IentryData}

/-- The attributes of an element that is an ENTRY. -/
def elementInfo (node : KxmlNodeData) (tag : Ktag) : Option (Except String IentryData) :=
  match tag with
  | .entry => some (entryInfo node)
  | .view => some (viewInfo node)
  | .ptype => some (ptypeInfo node)
  | .param | .switch | .seq => some (paramInfo node tag)
  | .command | .filter | .cond | .compl | .help | .prompt | .log => some (commandInfo node tag)
  | _ => none

/-- What the handler adds to the ENTRY before the nested elements. -/
def openedBy (node : KxmlNodeData) (tag : Ktag) : KentryTree → KentryTree :=
  match tag with
  | .param | .switch | .seq => addParamPtype node
  | _ => id

/-- What the handler adds to the ENTRY after the nested elements. -/
def closedBy (tag : Ktag) : KentryTree → KentryTree :=
  match tag with
  | .command | .filter | .cond | .compl | .help | .prompt | .log => addCommandPtype
  | _ => id

def pluginInfo (node : KxmlNodeData) : Iplugin :=
  ⟨node.attr "name", node.attr "id", node.attr "file", node.content⟩

theorem processElement_entry {info : Except String IentryData} (helm : node.type = .elm)
    (h : elementInfo node tag = some info) :
    processElement conv node tag parentTag children parent error =
      processEntryLike conv tag parentTag children parent error info (openedBy node tag)
        (closedBy tag) := by
  unfold processElement
  rw [if_neg (not_not.mpr helm)]
  cases tag <;> cases h <;> rfl

/-- All that `add_entry_to_hierarchy` does with the list of the parent. -/
inductive AddsEntry (conv : FauxConv) (info : IentryData) (list : List KentryTree) :
    Option ℕ → List KentryTree → Prop
  | rejected : AddsEntry conv info list none list
  | parsed {i : ℕ} {k : KentryData} {nested : List KentryTree} (error : List String)
      (hfind : (list.findIdx? fun t => some t.name == info.name) = some i)
      (hi : list[i]? = some (.node k nested)) :
      AddsEntry conv info list (if (ientryParse conv info k.entry error).ok then some i else none)
        (list.set i (.node { k with entry := (ientryParse conv info k.entry error).obj } nested))
  | added {t : KentryTree} (error : List String)
      (hload : (ientryLoad conv (.node info []) error).1 = some t)
      (hnew : t.name ∉ list.map KentryTree.name) :
      AddsEntry conv info list (some list.length) (list ++ [t])

theorem addEntry_adds (info : IentryData) (list : List KentryTree) (error : List String) :
    AddsEntry conv info list (addEntry conv info list error).1 (addEntry conv info list error).2.1 := by
  unfold addEntry
  cases hfind : list.findIdx? fun t => some t.name == info.name with
  | some i =>
    dsimp only
    cases hi : list[i]? with
    | none => exact .rejected
    | some t =>
      obtain ⟨k, nested⟩ := t
      exact .parsed error hfind hi
  | none =>
    dsimp only
    cases hres : ientryLoad conv (.node info []) error with
    | mk t error' =>
      cases t with
      | none => exact .rejected
      | some t =>
        dsimp only
        cases hadd : addUnique KentryTree.name t list with
        | none => exact .rejected
        | some list' =>
          obtain ⟨hnew, rfl⟩ := addUnique_eq_some.mp hadd
          exact .added error (congrArg Prod.fst hres) hnew

/-- All that the handlers of ENTRYs do with the list of the parent. -/
inductive ProcessesIn (conv : FauxConv) (info : IentryData) (opened closed : KentryTree → KentryTree)
    (children : KxmlChildren) (list : List KentryTree) : Parsed (List KentryTree) → Prop
  | rejected {list' : List KentryTree} {error : List String} (hadd : AddsEntry conv info list none list') :
      ProcessesIn conv info opened closed children list ⟨false, list', error⟩
  | nested {i : ℕ} {list' : List KentryTree} {t t' : KentryTree} {ok : Bool}
      {error error' : List String} (hadd : AddsEntry conv info list (some i) list')
      (hi : list'[i]? = some t)
      (hchildren : children (.entry (opened t)) error = some ⟨ok, .entry t', error'⟩) :
      ProcessesIn conv info opened closed children list
        ⟨ok, list'.set i (if ok then closed t' else t'), error'⟩

theorem processIn_cases {opened closed : KentryTree → KentryTree} {list : List KentryTree}
    {r : Parsed (List KentryTree)}
    (h : processIn conv info opened closed children list error = some r) :
    ProcessesIn conv info opened closed children list r := by
  have hadd := @addEntry_adds conv info list error
  unfold processIn at h
  cases hres : addEntry conv info list error with
  | mk place rest =>
    obtain ⟨list', error'⟩ := rest
    rw [hres] at hadd h
    cases place with
    | none =>
      cases h
      exact .rejected hadd
    | some i =>
      obtain ⟨t, hi, h⟩ := Option.bind_eq_some_iff.mp h
      obtain ⟨⟨ok, obj, error''⟩, hchildren, h⟩ := Option.bind_eq_some_iff.mp h
      cases obj with
      | entry t' =>
        cases h
        exact .nested hadd hi hchildren
      | scheme s => cases h
      | action a => cases h
      | plugin k => cases h

/-- All that an element does with the object of its parent. -/
inductive ElementDoes (conv : FauxConv) (node : KxmlNodeData) (tag parentTag : Ktag)
    (children : KxmlChildren) : KxmlParent → Parsed KxmlParent → Prop
  | skipped {parent : KxmlParent} {error : List String} (htype : node.type ≠ .elm) :
      ElementDoes conv node tag parentTag children parent ⟨true, parent, error⟩
  | rejected {parent : KxmlParent} {error : List String} :
      ElementDoes conv node tag parentTag children parent ⟨false, parent, error⟩
  | klish {parent : KxmlParent} {error : List String} {r : Parsed KxmlParent} (htag : tag = .klish)
      (hchildren : children parent error = some r) :
      ElementDoes conv node tag parentTag children parent r
  | top {s : KschemeTree} {info : IentryData} {r : Parsed (List KentryTree)}
      (hparent : parentTag = .klish) (hinfo : elementInfo node tag = some (.ok info))
      (h : ProcessesIn conv info (openedBy node tag) (closedBy tag) children s.entrys r) :
      ElementDoes conv node tag parentTag children (.scheme s)
        ⟨r.ok, .scheme { s with entrys := r.obj }, r.error⟩
  | nested {k : KentryData} {list : List KentryTree} {info : IentryData}
      {r : Parsed (List KentryTree)} (hinfo : elementInfo node tag = some (.ok info))
      (h : ProcessesIn conv info (openedBy node tag) (closedBy tag) children list r) :
      ElementDoes conv node tag parentTag children (.entry (.node k list))
        ⟨r.ok, .entry (.node k r.obj), r.error⟩
  | plugin {s : KschemeTree} {plugin : KpluginDecl} {plugins : List KpluginDecl}
      {error error' : List String} {r : Parsed KxmlParent} (htag : tag = .plugin)
      (hload : (ipluginLoad (pluginInfo node) error).1 = some plugin)
      (hadd : addSortedUnique (fun k => k.name) plugin s.plugins = some plugins)
      (hchildren : children (.plugin plugin) error' = some r) :
      ElementDoes conv node tag parentTag children (.scheme s)
        ⟨r.ok, .scheme { s with plugins }, r.error⟩
  | action {k : KentryData} {nested : List KentryTree} {action : KactionDecl}
      {error error' : List String} {r : Parsed KxmlParent} (htag : tag = .action)
      (hload : (iactionLoad conv (actionInfo node) error).1 = some action)
      (hchildren : children (.action action) error' = some r) :
      ElementDoes conv node tag parentTag children (.entry (.node k nested))
        ⟨r.ok, .entry (.node { k with actions := k.actions ++ [action] } nested), r.error⟩
  | hotkey {k : KentryData} {nested : List KentryTree} {hotkey : Khotkey} {hotkeys : List Khotkey}
      {error error' : List String} (htag : tag = .hotkey)
      (hload : (ihotkeyLoad ⟨node.attr "key", node.attr "cmd"⟩ error).1 = some hotkey)
      (hadd : addUnique Khotkey.key hotkey k.hotkeys = some hotkeys) :
      ElementDoes conv node tag parentTag children (.entry (.node k nested))
        ⟨true, .entry (.node { k with hotkeys } nested), error'⟩

theorem processInHierarchy_does {r : Parsed KxmlParent} (hinfo : elementInfo node tag = some (.ok info))
    (h : processInHierarchy conv tag parentTag info (openedBy node tag) (closedBy tag) children parent
      error = some r) : ElementDoes conv node tag parentTag children parent r := by
  unfold processInHierarchy at h
  split at h
  · cases h
    exact .rejected
  · split at h
    case isTrue hparent =>
      cases parent with
      | scheme s =>
        obtain ⟨r', hr', rfl⟩ := Option.map_eq_some_iff.mp h
        exact .top hparent hinfo (processIn_cases hr')
      | entry t => cases h
      | action a => cases h
      | plugin k => cases h
    case isFalse =>
      cases parent with
      | entry t =>
        obtain ⟨k, list⟩ := t
        obtain ⟨r', hr', rfl⟩ := Option.map_eq_some_iff.mp h
        exact .nested hinfo (processIn_cases hr')
      | scheme s => cases h
      | action a => cases h
      | plugin k => cases h

theorem processPlugin_does {r : Parsed KxmlParent} (htag : tag = .plugin)
    (h : processPlugin node parentTag children parent error = some r) :
    ElementDoes conv node tag parentTag children parent r := by
  unfold processPlugin at h
  split at h
  · cases h
    exact .rejected
  · cases hres : ipluginLoad ⟨node.attr "name", node.attr "id", node.attr "file", node.content⟩ error with
    | mk plugin error' =>
      rw [hres] at h
      cases plugin with
      | none =>
        cases h
        exact .rejected
      | some plugin =>
        cases parent with
        | scheme s =>
          dsimp only at h
          cases hadd : addSortedUnique (fun k => k.name) plugin s.plugins with
          | none =>
            rw [hadd] at h
            cases h
            exact .rejected
          | some plugins =>
            rw [hadd] at h
            obtain ⟨r', hr', rfl⟩ := Option.map_eq_some_iff.mp h
            exact .plugin htag (congrArg Prod.fst hres) hadd hr'
        | entry t => cases h
        | action a => cases h
        | plugin k => cases h

theorem processAction_does {r : Parsed KxmlParent} (htag : tag = .action)
    (h : processAction conv node parentTag children parent error = some r) :
    ElementDoes conv node tag parentTag children parent r := by
  unfold processAction at h
  cases hres : iactionLoad conv (actionInfo node) error with
  | mk action error' =>
    rw [hres] at h
    cases action with
    | none =>
      cases h
      exact .rejected
    | some action =>
      dsimp only at h
      split at h
      · cases parent with
        | entry t =>
          obtain ⟨k, nested⟩ := t
          obtain ⟨r', hr', rfl⟩ := Option.map_eq_some_iff.mp h
          exact .action htag (congrArg Prod.fst hres) hr'
        | scheme s => cases h
        | action a => cases h
        | plugin k => cases h
      · cases h
        exact .rejected

theorem processHotkey_does {r : Parsed KxmlParent} (htag : tag = .hotkey)
    (h : processHotkey node parentTag parent error = some r) :
    ElementDoes conv node tag parentTag children parent r := by
  unfold processHotkey at h
  cases hkey : node.attr "key" with
  | none =>
    rw [hkey] at h
    cases h
    exact .rejected
  | some key =>
    cases hcmd : node.attr "cmd" with
    | none =>
      rw [hkey, hcmd] at h
      cases h
      exact .rejected
    | some cmd =>
      rw [hkey, hcmd] at h
      dsimp only at h
      cases hres : ihotkeyLoad ⟨some key, some cmd⟩ error with
      | mk hotkey error' =>
        rw [hres] at h
        cases hotkey with
        | none =>
          cases h
          exact .rejected
        | some hotkey =>
          dsimp only at h
          split at h
          · cases parent with
            | entry t =>
              obtain ⟨k, nested⟩ := t
              dsimp only at h
              cases hadd : addUnique Khotkey.key hotkey k.hotkeys with
              | none =>
                rw [hadd] at h
                cases h
                exact .rejected
              | some hotkeys =>
                rw [hadd] at h
                cases h
                have hload : (ihotkeyLoad ⟨node.attr "key", node.attr "cmd"⟩ error).1 = some hotkey := by
                  rw [hkey, hcmd, hres]
                exact .hotkey htag hload hadd
            | scheme s => cases h
            | action a => cases h
            | plugin k => cases h
          · cases h
            exact .rejected

theorem processElement_does {r : Parsed KxmlParent}
    (h : processElement conv node tag parentTag children parent error = some r) :
    ElementDoes conv node tag parentTag children parent r := by
  by_cases helm : node.type = .elm
  · cases hinfo : elementInfo node tag with
    | some info =>
      rw [processElement_entry helm hinfo] at h
      cases info with
      | error msg =>
        cases h
        exact .rejected
      | ok info => exact processInHierarchy_does hinfo h
    | none =>
      unfold processElement at h
      rw [if_neg (not_not.mpr helm)] at h
      cases tag with
      | none =>
        cases h
        exact .rejected
      | action => exact processAction_does rfl h
      | plugin => exact processPlugin_does rfl h
      | klish => exact .klish rfl h
      | hotkey => exact processHotkey_does rfl h
      | _ => cases hinfo
  · unfold processElement at h
    rw [if_pos helm] at h
    cases h
    exact .skipped helm

/-- The PTYPE that is made for a COMMAND. -/
def commandPtype : KentryTree :=
  serviceEntry "__ptype" .ptype "COMMAND@klish"
    [serviceEntry "__compl" .completion "completion_COMMAND@klish" [],
      serviceEntry "__help" .help "help_COMMAND@klish" []]

/-- A new ENTRY with its attributes. -/
def newEntry (conv : FauxConv) (info : IentryData) (name : String) (error : List String) : KentryTree :=
  .node { KentryData.new name with entry := (ientryParse conv info (Kentry.new name 0) error).obj } []

/-- Relations on lists of ENTRYs and on lists of PLUGINs that hold for each step of the loader. The
ENTRYs that the loader makes by itself are among the given ones. -/
structure KeptBySteps (conv : FauxConv) (Made : KentryTree → Prop)
    (L : List KentryTree → List KentryTree → Prop) (P : List KpluginDecl → List KpluginDecl → Prop) :
    Prop where
  refl : ∀ ts, L ts ts
  trans : ∀ {ts ts' ts''}, L ts ts' → L ts' ts'' → L ts ts''
  loaded : ∀ {info name error ts}, name ≠ "" → name ∉ ts.map KentryTree.name →
    L ts (ts ++ [newEntry conv info name error])
  made : ∀ {t ts}, Made t → t.name ∉ ts.map KentryTree.name → L ts (ts ++ [t])
  below : ∀ {ts i t t'}, ts[i]? = some t → L [t] [t'] → L ts (ts.set i t')
  nested : ∀ {k ts ts'}, L ts ts' → L [.node k ts] [.node k ts']
  attributes : ∀ {k ts info error},
    L [.node k ts] [.node { k with entry := (ientryParse conv info k.entry error).obj } ts]
  action : ∀ {k ts info error a}, (iactionLoad conv info error).1 = some a →
    L [.node k ts] [.node { k with actions := k.actions ++ [a] } ts]
  hotkey : ∀ {k ts info error h hotkeys}, (ihotkeyLoad info error).1 = some h →
    addUnique Khotkey.key h k.hotkeys = some hotkeys → L [.node k ts] [.node { k with hotkeys } ts]
  pluginsRefl : ∀ ks, P ks ks
  pluginsTrans : ∀ {ks ks' ks''}, P ks ks' → P ks' ks'' → P ks ks''
  plugin : ∀ {info error k ks ks'}, (ipluginLoad info error).1 = some k →
    addSortedUnique (fun k => k.name) k ks = some ks' → P ks ks'

/-- The ENTRYs that the loader makes for a document by itself. -/
def KxmlNode.Makes (Made : KentryTree → Prop) : KxmlNode → Prop :=
  Rose.All fun t => ∀ ptype, createPtype none none none (t.label.attr "ptype") = some ptype → Made ptype

theorem KxmlNode.makes {Made : KentryTree → Prop}
    (hmade : ∀ ref ptype, createPtype none none none ref = some ptype → Made ptype) (n : KxmlNode) :
    n.Makes Made := by
  induction n using Rose.ind with
  | hnode node nodes ih => exact .node (hmade _) ih

/-- The relations for the objects that the elements get. -/
def KxmlParent.Rel (L : List KentryTree → List KentryTree → Prop)
    (P : List KpluginDecl → List KpluginDecl → Prop) : KxmlParent → KxmlParent → Prop
  | .scheme s, .scheme s' => L s.entrys s'.entrys ∧ P s.plugins s'.plugins
  | .entry t, .entry t' => L [t] [t']
  | .action a, .action a' => a = a'
  | .plugin k, .plugin k' => k = k'
  | _, _ => False

/-- A load from declarations or from XML files, and what it leaves. -/
inductive Load (conv : FauxConv) (files : KxmlFiles) : KschemeTree → KschemeTree → Prop
  | ischeme {s : KschemeTree} (ischeme : Ischeme) (error : List String) :
      Load conv files s (ischemeLoad conv ischeme s error).obj
  | xml {s : KschemeTree} {path : Option String} {error : List String} {r : Parsed KschemeTree}
      (hload : kxmlLoadScheme conv files s path error = some r) : Load conv files s r.obj

/-- The loads of the databases, one after the other. -/
abbrev Loads (conv : FauxConv) (files : KxmlFiles) : KschemeTree → KschemeTree → Prop :=
  Relation.ReflTransGen (Load conv files)

section Kept

variable {Made : KentryTree → Prop} {L : List KentryTree → List KentryTree → Prop}
  {P : List KpluginDecl → List KpluginDecl → Prop} (hkept : KeptBySteps conv Made L P)
include hkept

theorem KeptBySteps.relRefl (parent : KxmlParent) : parent.Rel L P parent := by
  cases parent with
  | scheme s => exact ⟨hkept.refl _, hkept.pluginsRefl _⟩
  | entry t => exact hkept.refl _
  | action a => rfl
  | plugin k => rfl

theorem KeptBySteps.relTrans {parent parent' parent'' : KxmlParent} (h : parent.Rel L P parent')
    (h' : parent'.Rel L P parent'') : parent.Rel L P parent'' := by
  cases parent <;> cases parent' <;> cases parent'' <;> try contradiction
  · exact ⟨hkept.trans h.1 h'.1, hkept.pluginsTrans h.2 h'.2⟩
  · exact hkept.trans h h'
  · exact h.trans h'
  · exact h.trans h'

theorem KeptBySteps.addNested {t n : KentryTree} (hn : Made n) : L [t] [t.addNested n] := by
  obtain ⟨k, nested⟩ := t
  rw [KentryTree.addNested]
  cases hadd : addUnique KentryTree.name n nested with
  | none => exact hkept.refl _
  | some list =>
    obtain ⟨hnew, rfl⟩ := addUnique_eq_some.mp hadd
    exact hkept.nested (hkept.made hn hnew)

theorem KeptBySteps.opened (hmakes : ∀ ptype, createPtype none none none (node.attr "ptype") =
    some ptype → Made ptype) (t : KentryTree) : L [t] [openedBy node tag t] := by
  have hparam : L [t] [addParamPtype node t] := by
    rw [addParamPtype]
    cases hptype : createPtype none none none (node.attr "ptype") with
    | none => exact hkept.refl _
    | some ptype => exact hkept.addNested (hmakes ptype hptype)
  cases tag with
  | param => exact hparam
  | switch => exact hparam
  | seq => exact hparam
  | _ => exact hkept.refl _

theorem KeptBySteps.closed (hcommand : Made commandPtype) (t : KentryTree) :
    L [t] [closedBy tag t] := by
  have hclosed : L [t] [addCommandPtype t] := by
    rw [addCommandPtype]
    split
    · exact hkept.refl _
    · exact hkept.addNested hcommand
  cases tag with
  | command => exact hclosed
  | filter => exact hclosed
  | cond => exact hclosed
  | compl => exact hclosed
  | help => exact hclosed
  | prompt => exact hclosed
  | log => exact hclosed
  | _ => exact hkept.refl _

/-- A parse of nested declarations keeps what the steps keep. -/
def KeptNested (L : List KentryTree → List KentryTree → Prop)
    (parseNested : KentryTree → List String → Parsed KentryTree) : Prop :=
  ∀ t error, (parseNested t error).obj.name = t.name ∧ L [t] [(parseNested t error).obj]

omit hkept in
/-- A new ENTRY gets its attributes, and then its nested declarations are parsed. -/
theorem ientryLoadWith_new {parseNested : KentryTree → List String → Parsed KentryTree}
    {t : KentryTree} (h : (ientryLoadWith conv parseNested info error).1 = some t) :
    ∃ name error', name ≠ "" ∧ t = (parseNested (newEntry conv info name error) error').obj := by
  unfold ientryLoadWith at h
  split at h
  · cases h
  · rename_i name hname
    split at h
    · cases h
    · rename_i hempty
      dsimp only at h
      split at h
      · dsimp only at h
        split at h
        · cases h
          exact ⟨name, _, by simpa using hempty, rfl⟩
        · cases h
      · cases h

omit hkept in
theorem newEntry_name (name : String) : (newEntry conv info name error).name = name :=
  ientryParse_name conv info (Kentry.new name 0) error

theorem KeptBySteps.loadedWith {parseNested : KentryTree → List String → Parsed KentryTree}
    (hnested : KeptNested L parseNested) {t : KentryTree} {ts : List KentryTree}
    (h : (ientryLoadWith conv parseNested info error).1 = some t) (hnew : t.name ∉ ts.map KentryTree.name) :
    L ts (ts ++ [t]) := by
  obtain ⟨name, error', hname, rfl⟩ := ientryLoadWith_new h
  rw [(hnested _ error').1, newEntry_name] at hnew
  have hset : L (ts ++ [newEntry conv info name error]) ((ts ++ [newEntry conv info name error]).set
      ts.length (parseNested (newEntry conv info name error) error').obj) :=
    hkept.below List.getElem?_concat_length (hnested _ error').2
  rw [List.set_append_right _ _ (Nat.le_refl _), Nat.sub_self] at hset
  exact hkept.trans (hkept.loaded hname hnew) hset

theorem parseEntryWith_kept {tag : String}
    {parseNested : KentryTree → List String → Parsed KentryTree} (hnested : KeptNested L parseNested)
    (info : IentryData) (r : Parsed (List KentryTree)) :
    L r.obj (parseEntryWith conv tag parseNested info r).obj := by
  rw [parseEntryWith]
  split
  case h_1 i _ =>
    cases hi : r.obj[i]? with
    | none => exact hkept.refl _
    | some t =>
      obtain ⟨k, nested⟩ := t
      have hparsed : L [.node k nested]
          [.node { k with entry := (ientryParse conv info k.entry r.error).obj } nested] :=
        hkept.attributes
      dsimp only
      split
      · exact hkept.below hi (hkept.trans hparsed (hnested _ _).2)
      · exact hkept.below hi hparsed
  case h_2 =>
    cases hload : ientryLoadWith conv parseNested info r.error with
    | mk t error =>
      cases t with
      | none => exact hkept.refl _
      | some t =>
        dsimp only
        cases hadd : addUnique KentryTree.name t r.obj with
        | none => exact hkept.refl _
        | some obj =>
          obtain ⟨hnew, rfl⟩ := addUnique_eq_some.mp hadd
          exact hkept.loadedWith hnested (congrArg Prod.fst hload) hnew

theorem parseEntrys_kept (tag : String) {is : List Ientry}
    (hnested : ∀ i ∈ is, KeptNested L (ientryParseNested conv i)) (r : Parsed (List KentryTree)) :
    L r.obj (parseEntrys conv tag is r).obj := by
  induction is generalizing r with
  | nil =>
    rw [parseEntrys]
    exact hkept.refl _
  | cons i is ih =>
    rw [parseEntrys]
    exact hkept.trans (parseEntryWith_kept hkept (hnested i List.mem_cons_self) i.label r)
      (ih (fun j hj => hnested j (List.mem_cons_of_mem i hj)) _)

theorem loadActions_kept (k : KentryData) (ts : List KentryTree) (is : List Iaction)
    (cantAdd : KactionDecl → List KactionDecl → String) (ok : Bool) (error : List String) :
    L [.node k ts] [.node { k with
      actions := (loadList (iactionLoad conv) addLast cantAdd is ⟨ok, k.actions, error⟩).obj } ts] := by
  apply loadList_inv (I := fun list => L [.node k ts] [.node { k with actions := list } ts])
    (Q := fun a => ∃ info error, (iactionLoad conv info error).1 = some a)
  · exact fun info error a ha => ⟨info, error, ha⟩
  · rintro a list list' ⟨info, error, ha⟩ hlist hadd
    obtain rfl : list ++ [a] = list' := Option.some.inj hadd
    exact hkept.trans hlist (hkept.action ha)
  · exact hkept.refl _

theorem loadHotkeys_kept (k : KentryData) (ts : List KentryTree) (is : List Ihotkey)
    (cantAdd : Khotkey → List Khotkey → String) (ok : Bool) (error : List String) :
    L [.node k ts] [.node { k with
      hotkeys := (loadList ihotkeyLoad (addUnique Khotkey.key) cantAdd is ⟨ok, k.hotkeys, error⟩).obj }
      ts] := by
  apply loadList_inv (I := fun list => L [.node k ts] [.node { k with hotkeys := list } ts])
    (Q := fun h => ∃ info error, (ihotkeyLoad info error).1 = some h)
  · exact fun info error h hh => ⟨info, error, hh⟩
  · rintro h list list' ⟨info, error, hh⟩ hlist hadd
    exact hkept.trans hlist (hkept.hotkey hh hadd)
  · exact hkept.refl _

theorem ientryParseNested_kept (i : Ientry) : KeptNested L (ientryParseNested conv i) := by
  induction i using Rose.ind with
  | hnode info entrys ih =>
    rintro ⟨k, nested⟩ error
    rw [ientryParseNested]
    refine ⟨rfl, hkept.trans (hkept.nested (parseEntrys_kept hkept "ENTRY" ih ⟨true, nested, error⟩)) ?_⟩
    exact hkept.trans (loadActions_kept hkept k _ info.actions _ _ _)
      (loadHotkeys_kept hkept { k with actions := _ } _ info.hotkeys _ _ _)

theorem KeptBySteps.adds {list list' : List KentryTree} {place : Option ℕ}
    (h : AddsEntry conv info list place list') : L list list' := by
  cases h with
  | rejected => exact hkept.refl _
  | parsed error hfind hi => exact hkept.below hi hkept.attributes
  | added error hload hnew => exact hkept.loadedWith (ientryParseNested_kept hkept _) hload hnew

theorem KeptBySteps.processesIn (hcommand : Made commandPtype)
    (hmakes : ∀ ptype, createPtype none none none (node.attr "ptype") = some ptype → Made ptype)
    (hchildren : ∀ parent error r, children parent error = some r → parent.Rel L P r.obj)
    {list : List KentryTree} {r : Parsed (List KentryTree)}
    (h : ProcessesIn conv info (openedBy node tag) (closedBy tag) children list r) : L list r.obj := by
  cases h with
  | rejected hadd => exact hkept.adds hadd
  | @nested i list' t t' ok error error' hadd hi hrun =>
    refine hkept.trans (hkept.adds hadd) (hkept.below hi ?_)
    refine hkept.trans (hkept.opened hmakes t) (hkept.trans (hchildren _ _ _ hrun) ?_)
    cases ok with
    | true => exact hkept.closed hcommand t'
    | false => exact hkept.refl _

theorem processElement_kept (hcommand : Made commandPtype)
    (hmakes : ∀ ptype, createPtype none none none (node.attr "ptype") = some ptype → Made ptype)
    (hchildren : ∀ parent error r, children parent error = some r → parent.Rel L P r.obj)
    {r : Parsed KxmlParent}
    (h : processElement conv node tag parentTag children parent error = some r) :
    parent.Rel L P r.obj := by
  cases processElement_does h with
  | skipped => exact hkept.relRefl _
  | rejected => exact hkept.relRefl _
  | klish _ hrun => exact hchildren _ _ _ hrun
  | top _ _ hin => exact ⟨hkept.processesIn hcommand hmakes hchildren hin, hkept.pluginsRefl _⟩
  | nested _ hin => exact hkept.nested (hkept.processesIn hcommand hmakes hchildren hin)
  | plugin _ hload hadd => exact ⟨hkept.refl _, hkept.plugin hload hadd⟩
  | action _ hload => exact hkept.action hload
  | hotkey _ hload hadd => exact hkept.hotkey hload hadd

theorem processChildren_kept {nodes : List KxmlNode}
    (hnodes : ∀ n ∈ nodes, ∀ tag parent error r, processNode conv n tag parent error = some r →
      parent.Rel L P r.obj) {r : Parsed KxmlParent}
    (h : processChildren conv nodes tag parent error = some r) : parent.Rel L P r.obj := by
  induction nodes generalizing parent error with
  | nil =>
    cases h
    exact hkept.relRefl _
  | cons n nodes ih =>
    rw [processChildren] at h
    obtain ⟨r', hr', h⟩ := Option.bind_eq_some_iff.mp h
    have hfirst := hnodes n List.mem_cons_self _ _ _ _ hr'
    split at h
    · exact hkept.relTrans hfirst (ih (fun n hn => hnodes n (List.mem_cons_of_mem _ hn)) h)
    · cases h
      exact hfirst

/-- What the steps keep is kept by every document, whether it is loaded or not. -/
theorem processNode_kept (hcommand : Made commandPtype) {n : KxmlNode} (hmakes : n.Makes Made)
    {r : Parsed KxmlParent} (h : processNode conv n parentTag parent error = some r) :
    parent.Rel L P r.obj := by
  induction n using Rose.ind generalizing parentTag parent error r with
  | hnode node nodes ih =>
    rw [processNode] at h
    refine processElement_kept hkept hcommand hmakes.root ?_ h
    intro parent error r hr
    exact processChildren_kept hkept
      (fun n hn tag parent error r hrun => ih n hn (hmakes.child hn) hrun) hr

theorem kxmlLoadFile_kept (hcommand : Made commandPtype) {files : KxmlFiles} {s : KschemeTree}
    {filename : String} (hmakes : ∀ root ∈ files.docRead filename, root.Makes Made)
    {r : Parsed KschemeTree} (h : kxmlLoadFile conv files s filename error = some r) :
    L s.entrys r.obj.entrys ∧ P s.plugins r.obj.plugins := by
  unfold kxmlLoadFile at h
  cases hread : files.docRead filename with
  | none =>
    rw [hread] at h
    cases h
    exact ⟨hkept.refl _, hkept.pluginsRefl _⟩
  | some root =>
    rw [hread] at h
    obtain ⟨⟨ok, obj, error'⟩, hrun, h⟩ := Option.bind_eq_some_iff.mp h
    have hrel := processNode_kept hkept hcommand (hmakes root hread) hrun
    cases obj with
    | scheme s' =>
      cases h
      exact hrel
    | entry t => cases h
    | action a => cases h
    | plugin k => cases h

theorem kxmlLoadFiles_kept (hcommand : Made commandPtype) {files : KxmlFiles}
    (hmakes : ∀ filename, ∀ root ∈ files.docRead filename, root.Makes Made)
    {filenames : List String} {p r : Parsed KschemeTree}
    (h : kxmlLoadFiles conv files filenames p = some r) :
    L p.obj.entrys r.obj.entrys ∧ P p.obj.plugins r.obj.plugins := by
  induction filenames generalizing p with
  | nil =>
    cases h
    exact ⟨hkept.refl _, hkept.pluginsRefl _⟩
  | cons filename filenames ih =>
    rw [kxmlLoadFiles] at h
    obtain ⟨r', hr', h⟩ := Option.bind_eq_some_iff.mp h
    obtain ⟨hentrys, hplugins⟩ := kxmlLoadFile_kept hkept hcommand (hmakes filename) hr'
    obtain ⟨hentrys', hplugins'⟩ := ih h
    exact ⟨hkept.trans hentrys hentrys', hkept.pluginsTrans hplugins hplugins'⟩

theorem ischemeLoad_kept (ischeme : Ischeme) (s : KschemeTree) (error : List String) :
    L s.entrys (ischemeLoad conv ischeme s error).obj.entrys ∧
      P s.plugins (ischemeLoad conv ischeme s error).obj.plugins := by
  refine ⟨parseEntrys_kept hkept "SCHEME" (fun i _ => ientryParseNested_kept hkept i) ⟨_, s.entrys, _⟩, ?_⟩
  apply loadList_inv (Q := fun k => ∃ info error, (ipluginLoad info error).1 = some k)
    (I := fun list => P s.plugins list)
  · exact fun info error k hk => ⟨info, error, hk⟩
  · rintro k list list' ⟨info, error, hk⟩ hlist hadd
    exact hkept.pluginsTrans hlist (hkept.plugin hk hadd)
  · exact hkept.pluginsRefl _

/-- What the steps keep is kept by all loads. -/
theorem Loads.kept (hcommand : Made commandPtype) {files : KxmlFiles}
    (hmakes : ∀ filename, ∀ root ∈ files.docRead filename, root.Makes Made) {s s' : KschemeTree}
    (h : Loads conv files s s') : L s.entrys s'.entrys ∧ P s.plugins s'.plugins := by
  induction h with
  | refl => exact ⟨hkept.refl _, hkept.pluginsRefl _⟩
  | @tail s' s'' _ hload ih =>
    have hstep : L s'.entrys s''.entrys ∧ P s'.plugins s''.plugins := by
      cases hload with
      | ischeme ischeme error => exact ischemeLoad_kept hkept ischeme s' error
      | xml hload => exact kxmlLoadFiles_kept hkept hcommand hmakes hload
    exact ⟨hkept.trans ih.1 hstep.1, hkept.pluginsTrans ih.2 hstep.2⟩

end Kept

end Klish
