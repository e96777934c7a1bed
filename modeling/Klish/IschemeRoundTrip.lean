import Klish.IschemeRead

/-!
# Deploying and loading back

The declarations of a legal scheme are loaded into a scheme in which the links have the defaults for
everything but the name, the help and the reference. So a scheme comes back as it was if and only if
no ENTRY has hotkeys and its links have nothing else. The mode, the filter and the lists of a link
are replaced when it is resolved, so they may be left out of the comparison.
-/

namespace Klish

variable {conv : FauxConv}

section Attributes

variable {α β : Type} {p : Parsed α} {tag field : String}

theorem attr_some {c : String → Option β} {set : β → α → α} {s : String} {b : β} (hs : s ≠ "")
    (hb : c s = some b) :
    p.attr tag field (some s) (setBy c set) = ⟨p.ok, set b p.obj, p.error⟩ := by
  simp [Parsed.attr, hs, setBy, hb]

theorem attr_text {set : String → α → α} {value : Option String} (hvalue : value ≠ some "") :
    p.attr tag field value (setBy some set) =
      ⟨p.ok, value.elim p.obj fun s => set s p.obj, p.error⟩ := by
  cases value with
  | none => rfl
  | some s => exact attr_some (by simpa using hvalue) rfl

theorem attr_bool (hinv : conv.Inverse) {set : Bool → α → α} (b : Bool) :
    p.attr tag field (some (conv.bool2str b)) (setBy conv.str2bool set) =
      ⟨p.ok, set b p.obj, p.error⟩ :=
  attr_some (hinv.bool b).1 (hinv.bool b).2

theorem attr_tri (hinv : conv.Inverse) {set : Tri → α → α} {t : Tri}
    (ht : t = .no ∨ ∃ s, conv.str2tri s = some t) :
    p.attr tag field (some (conv.tri2str t)) (setBy conv.str2tri set) =
      ⟨p.ok, set t p.obj, p.error⟩ :=
  attr_some (hinv.tri t ht).1 (hinv.tri t ht).2

theorem attr_unsigned (hinv : conv.Inverse) {set : ℕ → α → α} {n : ℕ} (hn : n ≤ uintMax) :
    p.attr tag field (some (unsignedToText n)) (setBy conv.atoui set) =
      ⟨p.ok, set n p.obj, p.error⟩ := by
  have hlt : n < UInt32.size := Nat.lt_of_le_pred (by decide) hn
  apply attr_some (unsignedToText_ne_empty n)
  rw [unsignedToText, Nat.mod_eq_of_lt hlt]
  exact hinv.atoui n hn

/-- The text for a value is read as that value. -/
def Spelled [DecidableEq β] (spellings : List (String × β)) (b : β) : Prop :=
  ∃ s, toText spellings b = some s ∧ s ≠ "" ∧ ofText spellings s = some b

theorem attr_spelled [DecidableEq β] {spellings : List (String × β)} {set : β → α → α} {b : β}
    (hb : Spelled spellings b) : p.attr tag field (toText spellings b) (setBy (ofText spellings) set) =
      ⟨p.ok, set b p.obj, p.error⟩ := by
  obtain ⟨s, htext, hs, hof⟩ := hb
  rw [htext]
  exact attr_some hs hof

end Attributes

theorem KentryMode.spelled {mode : KentryMode} (h : mode ≠ .none) : Spelled spellings mode := by
  cases mode with
  | none => exact absurd rfl h
  | _ => exact ⟨_, rfl, by decide, by decide⟩

theorem KentryPurpose.spelled {purpose : KentryPurpose} (h : purpose ≠ .none) :
    Spelled spellings purpose := by
  cases purpose with
  | none => exact absurd rfl h
  | _ => exact ⟨_, rfl, by decide, by decide⟩

theorem KentryFilter.spelled {filter : KentryFilter} (h : filter ≠ .none) :
    Spelled spellings filter := by
  cases filter with
  | none => exact absurd rfl h
  | _ => exact ⟨_, rfl, by decide, by decide⟩

theorem KactionIo.spelled {io : KactionIo} (h : io ≠ .none) : Spelled spellings io := by
  cases io with
  | none => exact absurd rfl h
  | _ => exact ⟨_, rfl, by decide, by decide⟩

theorem KactionCond.spelled {c : KactionCond} (h : c ≠ .none) : Spelled spellings c := by
  cases c with
  | none => exact absurd rfl h
  | _ => exact ⟨_, rfl, by decide, by decide⟩

section Declared

/-- The symbol of a new ACTION has not been set. -/
theorem attr_sym {symRef : Option String} {error : List String} (h : symRef ≠ some "") :
    Parsed.attr ⟨true, .new, error⟩ "ACTION" "sym" symRef KactionDecl.setSymRef =
      ⟨true, { KactionDecl.new with symRef := symRef }, error⟩ := by
  cases symRef with
  | none => rfl
  | some s =>
    have hs : s ≠ "" := by simpa using h
    simp [Parsed.attr, hs, KactionDecl.setSymRef, KactionDecl.new, Kaction.new]

theorem iactionLoad_declare (hinv : conv.Inverse) {a : KactionDecl} (h : a.Legal conv)
    (error : List String) : iactionLoad conv (a.declare conv) error = (some a, error) := by
  have hparse : iactionParse conv (a.declare conv) .new error = ⟨true, a, error⟩ := by
    rw [iactionParse]
    simp only [KactionDecl.declare, attr_sym h.symRef, attr_text h.lock, attr_bool hinv,
      attr_spelled (KactionIo.spelled h.inp), attr_spelled (KactionIo.spelled h.out),
      attr_spelled (KactionCond.spelled h.execOn), attr_tri hinv h.permanent,
      attr_tri hinv h.sync, attr_text h.script]
    obtain ⟨⟨symRef, sym, plugin, interrupt, inp, out, execOn, updateRetcode, permanent, sync,
      script⟩, lock⟩ := a
    obtain rfl : sym = none := h.sym
    obtain rfl : plugin = none := h.plugin
    cases lock <;> cases script <;> rfl
  rw [iactionLoad, hparse]
  rfl

theorem ipluginLoad_declare {k : KpluginDecl} (h : k.Legal) (error : List String) :
    ipluginLoad k.declare error = (some k, error) := by
  have hparse : ipluginParse k.declare (.new k.name) error = ⟨true, k, error⟩ := by
    rw [ipluginParse]
    simp only [KpluginDecl.declare, attr_text h.id, attr_text h.file, attr_text h.conf]
    obtain ⟨⟨name, syms⟩, id, file, conf⟩ := k
    obtain rfl : syms = [] := h.syms
    cases id <;> cases file <;> cases conf <;> rfl
  have hname : k.declare.name = some k.name := rfl
  have hne : k.name.isEmpty = false := by simpa using h.name
  simp [ipluginLoad, hname, hne, hparse]

theorem ientryParse_declareOwn (hinv : conv.Inverse) {e : Kentry} (h : e.Legal)
    (error : List String) :
    ientryParse conv (e.declareOwn conv) (Kentry.new e.name 0) error = ⟨true, e, error⟩ := by
  rw [ientryParse]
  simp only [Kentry.declareOwn, Kentry.declareLink, attr_text h.help, attr_bool hinv,
    attr_spelled (KentryMode.spelled h.mode), attr_spelled (KentryPurpose.spelled h.purpose),
    attr_unsigned hinv h.min, attr_unsigned hinv h.max, attr_text h.refStr, attr_text h.value,
    attr_spelled (KentryFilter.spelled h.filter)]
  obtain ⟨name, help, parent, container, mode, purpose, min, max, refStr, value, restore,
    transparent, order, filter, body⟩ := e
  obtain rfl : parent = none := h.parent
  obtain rfl : body = 0 := h.body
  cases help <;> cases refStr <;> cases value <;> rfl

/-- A link as its text declares it. -/
def Kentry.bareLink (e : Kentry) : Kentry :=
  { Kentry.new e.name 0 with help := e.help, refStr := e.refStr }

theorem ientryParse_declareLink {e : Kentry} (h : e.Legal) (error : List String) :
    ientryParse conv e.declareLink (Kentry.new e.name 0) error = ⟨true, e.bareLink, error⟩ := by
  rw [ientryParse]
  simp only [Kentry.declareLink, IentryData.null, attr_text h.help, attr_text h.refStr]
  obtain ⟨name, help, parent, container, mode, purpose, min, max, refStr, value, restore,
    transparent, order, filter, body⟩ := e
  cases help <;> cases refStr <;> rfl

mutual

/-- What is loaded from the text of an ENTRY without hotkeys. -/
def reload : KentryTree → KentryTree
  | .node k nested =>
    if k.entry.isLink then .node ⟨k.entry.bareLink, [], []⟩ []
    else .node k (reloads nested)

def reloads : List KentryTree → List KentryTree
  | [] => []
  | t :: ts => reload t :: reloads ts

end

theorem reload_name (t : KentryTree) : (reload t).name = t.name := by
  obtain ⟨k, nested⟩ := t
  rw [reload]
  split <;> rfl

theorem declare_name {t : KentryTree} {i : Ientry} (h : declare conv t = some i) :
    i.label.name = some t.name := by
  obtain ⟨k, nested⟩ := t
  rw [declare] at h
  split at h
  · cases h
    rfl
  · split at h
    · obtain ⟨is, _, rfl⟩ := Option.map_eq_some_iff.mp h
      rfl
    · cases h

end Declared

section Lists

variable {ι κ : Type}

/-- Declarations that are each loaded as their object, one after the other. -/
theorem loadList_declared {load : ι → List String → Option κ × List String}
    {add : κ → List κ → Option (List κ)} {cantAdd : κ → List κ → String} {decl : κ → ι}
    {all : List κ} {ok : Bool} {error : List String}
    (hload : ∀ k ∈ all, load (decl k) error = (some k, error))
    (hadd : ∀ pre k post, all = pre ++ k :: post → add k pre = some (pre ++ [k]))
    {pre ks : List κ} (hall : all = pre ++ ks) :
    loadList load add cantAdd (ks.map decl) ⟨ok, pre, error⟩ = ⟨ok, all, error⟩ := by
  induction ks generalizing pre with
  | nil => simp [loadList, hall]
  | cons k ks ih =>
    have hk : k ∈ all := by simp [hall]
    rw [List.map_cons, loadList, hload k hk]
    simp only [hadd pre k ks hall]
    exact ih (by simp [hall])

theorem addSortedUnique_last {key : κ → String} {k : κ} {list : List κ}
    (h : ∀ k' ∈ list, key k' < key k) : addSortedUnique key k list = some (list ++ [k]) := by
  induction list with
  | nil => rfl
  | cons k' list ih =>
    have hlt := h k' List.mem_cons_self
    rw [addSortedUnique, if_neg (String.lt_asymm hlt), if_pos hlt,
      ih fun k'' hk'' => h k'' (List.mem_cons_of_mem k' hk'')]
    rfl

end Lists

theorem plugins_declared {s : KschemeTree} (h : s.Legal conv) (ok : Bool) (error : List String)
    (cantAdd : KpluginDecl → List KpluginDecl → String) :
    loadList ipluginLoad (addSortedUnique fun k => k.name) cantAdd
      (s.plugins.map KpluginDecl.declare) ⟨ok, [], error⟩ = ⟨ok, s.plugins, error⟩ := by
  refine loadList_declared (fun k hk => ipluginLoad_declare (h.plugins k hk) error) ?_
    (List.nil_append _).symm
  intro pre k post hall
  have hsorted := h.sorted
  rw [hall, List.pairwise_append] at hsorted
  exact addSortedUnique_last fun k' hk' => hsorted.2.2 k' hk' k List.mem_cons_self

section Entrys

/-- The declarations of ENTRYs of different names are loaded one after the other. -/
theorem parseEntrys_declared {tag : String} {ts : List KentryTree} {is : List Ientry} {ok : Bool}
    {error : List String} {pre : List KentryTree}
    (hload : ∀ t ∈ ts, ∀ i, declare conv t = some i → ientryLoad conv i error = (some (reload t), error))
    (hdecl : declares conv ts = some is)
    (hnames : (pre.map KentryTree.name ++ ts.map KentryTree.name).Nodup) :
    parseEntrys conv tag is ⟨ok, pre, error⟩ = ⟨ok, pre ++ reloads ts, error⟩ := by
  induction ts generalizing is pre with
  | nil =>
    cases hdecl
    simp [parseEntrys, reloads]
  | cons t ts ih =>
    obtain ⟨i, hi, hrest⟩ := Option.bind_eq_some_iff.mp hdecl
    obtain ⟨is, his, rfl⟩ := Option.map_eq_some_iff.mp hrest
    have hnew : t.name ∉ pre.map KentryTree.name := by
      intro hmem
      exact (List.nodup_append.mp hnames).2.2 _ hmem _ (by simp) rfl
    have hfind : (pre.findIdx? fun t' => some t'.name == i.label.name) = none := by
      rw [declare_name hi]
      apply List.findIdx?_eq_none_iff.mpr
      intro t' ht'
      have hne : t'.name ≠ t.name := fun heq => hnew (heq ▸ List.mem_map_of_mem ht')
      simpa using hne
    have hadd : addUnique KentryTree.name (reload t) pre = some (pre ++ [reload t]) := by
      apply addUnique_eq_some.mpr
      rw [reload_name]
      exact ⟨hnew, rfl⟩
    have hone := hload t List.mem_cons_self i hi
    rw [ientryLoad] at hone
    rw [parseEntrys, parseEntryWith, hfind]
    simp only [hone, hadd]
    rw [ih (fun t' ht' => hload t' (List.mem_cons_of_mem t ht')) his ?_, reloads]
    · simp
    · simpa [reload_name] using hnames

/-- A new ENTRY, when nothing of its declaration is wrong. -/
theorem ientryLoad_declared {info : IentryData} {is : List Ientry} {entry : Kentry}
    {actions : List KactionDecl} {ts : List KentryTree} {error : List String}
    (hname : info.name = some entry.name) (hne : entry.name ≠ "")
    (hparse : ientryParse conv info (Kentry.new entry.name 0) error = ⟨true, entry, error⟩)
    (hentrys : parseEntrys conv "ENTRY" is ⟨true, [], error⟩ = ⟨true, ts, error⟩)
    (hactions : info.actions = actions.map (·.declare conv))
    (hload : ∀ a ∈ actions, iactionLoad conv (a.declare conv) error = (some a, error))
    (hhotkeys : info.hotkeys = []) :
    ientryLoad conv (.node info is) error = (some (.node ⟨entry, actions, []⟩ ts), error) := by
  have hloaded : ∀ cantAdd : KactionDecl → List KactionDecl → String,
      loadList (iactionLoad conv) addLast cantAdd (actions.map (·.declare conv)) ⟨true, [], error⟩ =
        ⟨true, actions, error⟩ := by
    intro cantAdd
    exact loadList_declared hload (fun _ _ _ _ => rfl) (List.nil_append _).symm
  have hnested : ientryParseNested conv (.node info is)
      (.node { KentryData.new entry.name with entry := entry } []) error =
        ⟨true, .node ⟨entry, actions, []⟩ ts, error⟩ := by
    rw [ientryParseNested, hentrys, hactions, hhotkeys]
    simp only [KentryData.new, hloaded, loadList, if_true]
  have hempty : entry.name.isEmpty = false := by simpa using hne
  simp only [ientryLoad, ientryLoadWith, Rose.label_node, hname, hempty, hparse, hnested]
  rfl

theorem ientryLoad_declare (hinv : conv.Inverse) {t : KentryTree} (h : t.Legal conv) {i : Ientry}
    (hi : declare conv t = some i) (error : List String) :
    ientryLoad conv i error = (some (reload t), error) := by
  induction t using Rose.ind generalizing i error with
  | hnode k nested ih =>
    have hlegal : k.Legal conv := h.root.1
    rw [declare] at hi
    rw [reload]
    cases hlink : k.entry.isLink with
    | true =>
      obtain rfl : Rose.node k.entry.declareLink [] = i := by simpa [hlink] using hi
      have hentrys : parseEntrys conv "ENTRY" [] ⟨true, [], error⟩ = ⟨true, [], error⟩ := by
        rw [parseEntrys]
      have hactions : ∀ a ∈ ([] : List KactionDecl),
          iactionLoad conv (a.declare conv) error = (some a, error) :=
        fun a ha => absurd ha List.not_mem_nil
      have hname : k.entry.declareLink.name = some k.entry.bareLink.name := rfl
      rw [if_pos rfl]
      exact ientryLoad_declared hname hlegal.entry.name
        (ientryParse_declareLink hlegal.entry error) hentrys rfl hactions rfl
    | false =>
      cases hhotkeys : k.hotkeys with
      | cons hotkey hotkeys => simp [hlink, hhotkeys] at hi
      | nil =>
        obtain ⟨is, his, rfl⟩ : ∃ is, declares conv nested = some is ∧ Rose.node
            { k.entry.declareOwn conv with actions := k.actions.map (·.declare conv) } is = i := by
          simpa [hlink, hhotkeys] using hi
        have hparse := ientryParse_declareOwn hinv hlegal.entry error
        have hentrys : parseEntrys conv "ENTRY" is ⟨true, [], error⟩ =
            ⟨true, reloads nested, error⟩ :=
          parseEntrys_declared (fun t ht i hi => ih t ht (h.child ht) hi error) his
            (by simpa using h.root.2)
        have hactions := fun a ha => iactionLoad_declare hinv (hlegal.actions a ha) error
        have hdata : k = ⟨k.entry, k.actions, []⟩ := by rw [← hhotkeys]
        rw [if_neg Bool.false_ne_true, hdata]
        exact ientryLoad_declared rfl hlegal.entry.name hparse hentrys rfl hactions rfl

end Entrys

/-- The declarations of a scheme are loaded as its PLUGINs and the ENTRYs that they declare. -/
theorem ischemeLoad_declared (hinv : conv.Inverse) {s : KschemeTree} (h : s.Legal conv)
    {is : List Ientry} (his : declares conv s.entrys = some is) (error : List String) :
    ischemeLoad conv ⟨is, s.plugins.map KpluginDecl.declare⟩ .new error =
      ⟨true, ⟨s.plugins, reloads s.entrys⟩, error⟩ := by
  have hentrys : parseEntrys conv "SCHEME" is ⟨true, [], error⟩ =
      ⟨true, reloads s.entrys, error⟩ :=
    parseEntrys_declared (fun t ht i hi => ientryLoad_declare hinv (h.entrys t ht) hi error) his
      (by simpa using h.names)
  simp only [ischemeLoad, ischemeParseNested, KschemeTree.new, plugins_declared h, hentrys, if_true]

section Emitted

/-- The defaults for the attributes that a link keeps. -/
structure Kentry.Plain (e : Kentry) : Prop where
  container : e.container = false
  purpose : e.purpose = .common
  min : e.min = 1
  max : e.max = 1
  value : e.value = none
  restore : e.restore = false
  transparent : e.transparent = true
  order : e.order = false

/-- Nothing of the ENTRY is left out of its text, nor of the ones below it. -/
def KentryTree.Emitted : KentryTree → Prop :=
  Rose.All fun t => t.label.hotkeys = [] ∧ (t.label.entry.isLink → (t.label.entry.Plain ∧
    t.label.entry.mode = .sequence ∧ t.label.entry.filter = .no) ∧
      t.label.actions = [] ∧ t.children = [])

/-- The mode and the filter of a link are replaced when it is resolved. -/
def Kentry.kept (e : Kentry) : Kentry := { e with mode := .sequence, filter := .no }

mutual

/-- The ENTRY without what is replaced when its links are resolved. -/
def kept : KentryTree → KentryTree
  | .node k nested =>
    if k.entry.isLink then .node ⟨k.entry.kept, [], []⟩ [] else .node k (kepts nested)

def kepts : List KentryTree → List KentryTree
  | [] => []
  | t :: ts => kept t :: kepts ts

end

/-- Nothing of that is left out of its text. -/
inductive KentryTree.KeptEmitted : KentryTree → Prop
  | link {k : KentryData} {nested : List KentryTree} (hlink : k.entry.isLink = true)
      (hplain : k.entry.Plain) : KeptEmitted (.node k nested)
  | own {k : KentryData} {nested : List KentryTree} (hlink : k.entry.isLink = false)
      (hhotkeys : k.hotkeys = []) (hnested : ∀ t ∈ nested, KeptEmitted t) :
      KeptEmitted (.node k nested)

theorem kepts_eq_map (ts : List KentryTree) : kepts ts = ts.map kept := by
  induction ts with
  | nil => rfl
  | cons t ts ih => rw [kepts, ih, List.map_cons]

/-- The ENTRY is declared, and what is loaded looks the same. -/
def ComesBack (conv : FauxConv) (view : KentryTree → KentryTree) (t : KentryTree) : Prop :=
  (∃ i, declare conv t = some i) ∧ view (reload t) = view t

theorem comes_back_all {view : KentryTree → KentryTree} (ts : List KentryTree) :
    (∃ is, declares conv ts = some is) ∧ (reloads ts).map view = ts.map view ↔
      ∀ t ∈ ts, ComesBack conv view t := by
  induction ts with
  | nil => simp [declares, reloads]
  | cons t ts ih =>
    rw [List.forall_mem_cons, ← ih, declares, reloads, List.map_cons, List.map_cons,
      List.cons.injEq]
    constructor
    · rintro ⟨⟨is, his⟩, ht, hts⟩
      obtain ⟨i, hi, hrest⟩ := Option.bind_eq_some_iff.mp his
      obtain ⟨is, his, _⟩ := Option.map_eq_some_iff.mp hrest
      exact ⟨⟨⟨i, hi⟩, ht⟩, ⟨is, his⟩, hts⟩
    · rintro ⟨⟨⟨i, hi⟩, ht⟩, ⟨is, his⟩, hts⟩
      exact ⟨⟨i :: is, by simp [hi, his]⟩, ht, hts⟩

theorem bareLink_eq_iff {e : Kentry} (h : e.Legal) :
    e.bareLink = e ↔ e.Plain ∧ e.mode = .sequence ∧ e.filter = .no := by
  obtain ⟨name, help, parent, container, mode, purpose, min, max, refStr, value, restore,
    transparent, order, filter, body⟩ := e
  obtain rfl : parent = none := h.parent
  obtain rfl : body = 0 := h.body
  constructor
  · intro heq
    injection heq with _ _ _ hcontainer hmode hpurpose hmin hmax _ hvalue hrestore htransparent
      horder hfilter
    exact ⟨⟨hcontainer.symm, hpurpose.symm, hmin.symm, hmax.symm, hvalue.symm, hrestore.symm,
      htransparent.symm, horder.symm⟩, hmode.symm, hfilter.symm⟩
  · rintro ⟨⟨rfl, rfl, rfl, rfl, rfl, rfl, rfl, rfl⟩, rfl, rfl⟩
    rfl

theorem bareLink_eq_kept_iff {e : Kentry} (h : e.Legal) : e.bareLink = e.kept ↔ e.Plain := by
  have hkept : e.kept.Legal := { h with mode := nofun, filter := nofun }
  have hiff := bareLink_eq_iff hkept
  constructor
  · intro heq
    exact { (hiff.mp heq).1 with }
  · intro hplain
    exact hiff.mpr ⟨{ hplain with }, rfl, rfl⟩

theorem emitted_node {k : KentryData} {nested : List KentryTree} :
    KentryTree.Emitted (.node k nested) ↔ (k.hotkeys = [] ∧ (k.entry.isLink →
      (k.entry.Plain ∧ k.entry.mode = .sequence ∧ k.entry.filter = .no) ∧
        k.actions = [] ∧ nested = [])) ∧ ∀ t ∈ nested, KentryTree.Emitted t :=
  ⟨fun h => ⟨h.root, fun _ ht => h.child ht⟩, fun ⟨hroot, hnested⟩ => .node hroot hnested⟩

theorem keptEmitted_node {k : KentryData} {nested : List KentryTree} :
    KentryTree.KeptEmitted (.node k nested) ↔ if k.entry.isLink then k.entry.Plain
      else k.hotkeys = [] ∧ ∀ t ∈ nested, KentryTree.KeptEmitted t := by
  constructor
  · intro h
    cases h with
    | link hlink hplain => simpa [hlink] using hplain
    | own hlink hhotkeys hnested => simpa [hlink] using ⟨hhotkeys, hnested⟩
  · intro h
    cases hlink : k.entry.isLink with
    | true => exact .link hlink (by simpa [hlink] using h)
    | false =>
      obtain ⟨hhotkeys, hnested⟩ : k.hotkeys = [] ∧ ∀ t ∈ nested, KentryTree.KeptEmitted t := by
        simpa [hlink] using h
      exact .own hlink hhotkeys hnested

theorem comes_back_iff_emitted {t : KentryTree} (h : t.Legal conv) :
    ComesBack conv id t ↔ t.Emitted := by
  induction t using Rose.ind with
  | hnode k nested ih =>
    have hlegal : k.Legal conv := h.root.1
    have hnested : (∀ t ∈ nested, ComesBack conv id t) ↔ ∀ t ∈ nested, KentryTree.Emitted t :=
      forall₂_congr fun t ht => ih t ht (h.child ht)
    rw [ComesBack, declare, reload, emitted_node, ← hnested]
    cases hlink : k.entry.isLink with
    | true =>
      simp only [if_true, forall_const, id_eq, Rose.node.injEq]
      constructor
      · rintro ⟨_, hk, rfl⟩
        have hentry : k.entry.bareLink = k.entry := congrArg KentryData.entry hk
        have hactions : [] = k.actions := congrArg KentryData.actions hk
        have hhotkeys : [] = k.hotkeys := congrArg KentryData.hotkeys hk
        exact ⟨⟨hhotkeys.symm, (bareLink_eq_iff hlegal.entry).mp hentry, hactions.symm, rfl⟩,
          List.forall_mem_nil _⟩
      · rintro ⟨⟨hhotkeys, hplain, hactions, rfl⟩, _⟩
        refine ⟨⟨_, rfl⟩, ?_, rfl⟩
        rw [(bareLink_eq_iff hlegal.entry).mpr hplain, ← hhotkeys, ← hactions]
    | false =>
      simp only [Bool.false_eq_true, if_false, id_eq, Rose.node.injEq, true_and, false_imp_iff,
        and_true]
      rw [← comes_back_all nested, List.map_id, List.map_id]
      cases hhotkeys : k.hotkeys with
      | nil => simp
      | cons hotkey hotkeys => simp

theorem comes_back_iff_keptEmitted {t : KentryTree} (h : t.Legal conv) :
    ComesBack conv kept t ↔ t.KeptEmitted := by
  induction t using Rose.ind with
  | hnode k nested ih =>
    have hlegal : k.Legal conv := h.root.1
    have hnested : (∀ t ∈ nested, ComesBack conv kept t) ↔ ∀ t ∈ nested, KentryTree.KeptEmitted t :=
      forall₂_congr fun t ht => ih t ht (h.child ht)
    rw [ComesBack, declare, reload, keptEmitted_node, ← hnested]
    cases hlink : k.entry.isLink with
    | true =>
      have hbare : k.entry.bareLink.isLink = true := hlink
      have hkept : k.entry.bareLink.kept = k.entry.bareLink := rfl
      rw [← bareLink_eq_kept_iff hlegal.entry]
      simp [kept, hlink, hbare, hkept]
    | false =>
      simp only [kept, hlink, Bool.false_eq_true, if_false, kepts_eq_map, Rose.node.injEq, true_and]
      rw [← comes_back_all nested]
      cases hhotkeys : k.hotkeys with
      | nil => simp
      | cons hotkey hotkeys => simp

end Emitted

/-- A loaded scheme comes back if and only if nothing of its ENTRYs is left out of the text. The
same holds when only what its links keep is compared. -/
theorem KschemeTree.comes_back_iff (conv : FauxConv) (hinv : conv.Inverse) {s : KschemeTree}
    (h : Produced conv s) (error : List String) :
    ((∃ i, readScheme (ischemeDeploy conv s) = some i ∧ (ischemeLoad conv i .new error).ok = true ∧
      (ischemeLoad conv i .new error).obj = s) ↔ ∀ t ∈ s.entrys, KentryTree.Emitted t) ∧
    ((∃ i, readScheme (ischemeDeploy conv s) = some i ∧ (ischemeLoad conv i .new error).ok = true ∧
      (ischemeLoad conv i .new error).obj.plugins = s.plugins ∧
      kepts (ischemeLoad conv i .new error).obj.entrys = kepts s.entrys) ↔
        ∀ t ∈ s.entrys, KentryTree.KeptEmitted t) := by
  have hlegal := h.legal hinv
  have hread := readScheme_deploy hinv hlegal
  have hemitted : (∀ t ∈ s.entrys, ComesBack conv id t) ↔ ∀ t ∈ s.entrys, KentryTree.Emitted t :=
    forall₂_congr fun t ht => comes_back_iff_emitted (hlegal.entrys t ht)
  have hkept : (∀ t ∈ s.entrys, ComesBack conv kept t) ↔ ∀ t ∈ s.entrys, KentryTree.KeptEmitted t :=
    forall₂_congr fun t ht => comes_back_iff_keptEmitted (hlegal.entrys t ht)
  rw [← hemitted, ← hkept, ← comes_back_all, ← comes_back_all, List.map_id, List.map_id, hread]
  constructor
  · constructor
    · rintro ⟨i, hi, _, hobj⟩
      obtain ⟨is, his, rfl⟩ := Option.map_eq_some_iff.mp hi
      rw [ischemeLoad_declared hinv hlegal his] at hobj
      exact ⟨⟨is, his⟩, congrArg KschemeTree.entrys hobj⟩
    · rintro ⟨⟨is, his⟩, hentrys⟩
      refine ⟨⟨is, s.plugins.map KpluginDecl.declare⟩, by rw [his, Option.map_some], ?_⟩
      rw [ischemeLoad_declared hinv hlegal his, hentrys]
      exact ⟨rfl, rfl⟩
  · constructor
    · rintro ⟨i, hi, _, _, hentrys⟩
      obtain ⟨is, his, rfl⟩ := Option.map_eq_some_iff.mp hi
      rw [ischemeLoad_declared hinv hlegal his, kepts_eq_map, kepts_eq_map] at hentrys
      exact ⟨⟨is, his⟩, hentrys⟩
    · rintro ⟨⟨is, his⟩, hentrys⟩
      refine ⟨⟨is, s.plugins.map KpluginDecl.declare⟩, by rw [his, Option.map_some], ?_⟩
      rw [ischemeLoad_declared hinv hlegal his, kepts_eq_map, kepts_eq_map]
      exact ⟨rfl, rfl, hentrys⟩

section Samples

/-- Words for the truth values, and decimal digits. -/
def wordConv : FauxConv where
  str2bool := ofText [("false", false), ("true", true)]
  bool2str b := if b then "true" else "false"
  str2tri := ofText [("false", .no), ("true", .yes)]
  tri2str t := if t = .yes then "true" else "false"
  atoui s :=
    let n := Nat.ofDigitChars 10 s.toList 0
    if !s.isEmpty && s.toList.all Char.isDigit && n ≤ uintMax then some n else none

theorem wordConv_inverse : wordConv.Inverse where
  bool b := by cases b <;> exact ⟨by decide, by decide⟩
  tri t ht := by
    have hne : t ≠ .undefined := by
      rcases ht with rfl | ⟨s, hs⟩
      · decide
      · exact ofText_ne (by decide) hs
    cases t with
    | undefined => exact absurd rfl hne
    | _ => exact ⟨by decide, by decide⟩
  atoui n hn := by
    have hdigits : ∀ c ∈ Nat.toDigits 10 n, c.isDigit :=
      fun c hc => Nat.isDigit_of_mem_toDigits (by decide) (by decide) hc
    simpa [wordConv, hn] using hdigits
  atoui_le s n h := by
    simp only [wordConv] at h
    split at h
    case isTrue hn =>
      cases h
      simpa using (Bool.and_eq_true_iff.mp hn).2
    case isFalse => cases h

/-- A PLUGIN and an ENTRY with an ACTION, a nested ENTRY and a link. -/
def showDecl : Ischeme where
  entrys := [.node { IentryData.null with
      name := "show", help := "Show", mode := "switch",
      actions := [{ Iaction.null with sym := "show@sys", lock := "conf", out := "tty" }] }
    [.node { IentryData.null with name := "port", min := "0", max := "3", filter := "dual" } [],
      .node { IentryData.null with name := "log", help := "Log", ref := "/LOG" } []]]
  plugins := [{ Iplugin.null with name := "sys", conf := "a=b" }]

def showScheme : KschemeTree := (ischemeLoad wordConv showDecl .new []).obj

theorem showScheme_comes_back : ∃ i, readScheme (ischemeDeploy wordConv showScheme) = some i ∧
    (ischemeLoad wordConv i .new []).ok = true ∧ (ischemeLoad wordConv i .new []).obj = showScheme := by
  apply (KschemeTree.comes_back_iff wordConv wordConv_inverse (.load .new showDecl []) []).1.mpr
  have hport : KentryTree.Emitted (.node
      ⟨{ Kentry.new "port" 0 with min := 0, max := 3, filter := .dual }, [], []⟩ []) :=
    emitted_node.mpr ⟨⟨rfl, nofun⟩, nofun⟩
  have hlog : KentryTree.Emitted (.node
      ⟨{ Kentry.new "log" 0 with help := "Log", refStr := "/LOG" }, [], []⟩ []) :=
    emitted_node.mpr ⟨⟨rfl, fun _ => ⟨⟨⟨rfl, rfl, rfl, rfl, rfl, rfl, rfl, rfl⟩, rfl, rfl⟩, rfl, rfl⟩⟩,
      nofun⟩
  intro t ht
  obtain rfl := List.mem_singleton.mp ht
  refine emitted_node.mpr ⟨⟨rfl, nofun⟩, ?_⟩
  exact List.forall_mem_cons.mpr ⟨hport, List.forall_mem_singleton.mpr hlog⟩

/-- An ENTRY with a hotkey. -/
def viewDecl : Ischeme where
  entrys := [.node { IentryData.null with name := "view", hotkeys := [⟨"^D", "exit"⟩] } []]
  plugins := []

/-- A link that is a PTYPE. -/
def portDecl : Ischeme where
  entrys := [.node { IentryData.null with name := "PORT", purpose := "ptype", ref := "/TYPES" } []]
  plugins := []

/-- What is read from the text of that link. -/
def portText : Ischeme where
  entrys := [.node { IentryData.null with name := "PORT", ref := "/TYPES" } []]
  plugins := []

/-- Both are loaded, but the hotkey makes the text unreadable, and the purpose is not in the text. -/
theorem deployed_differs :
    ((ischemeLoad wordConv viewDecl .new []).ok = true ∧
      readScheme (ischemeDeploy wordConv (ischemeLoad wordConv viewDecl .new []).obj) = none) ∧
    (ischemeLoad wordConv portDecl .new []).ok = true ∧
      readScheme (ischemeDeploy wordConv (ischemeLoad wordConv portDecl .new []).obj) =
        some portText ∧
      (ischemeLoad wordConv portDecl .new []).obj.entrys.map (·.label.entry.purpose) = [.ptype] ∧
      (ischemeLoad wordConv portText .new []).obj.entrys.map (·.label.entry.purpose) = [.common] := by
  exact ⟨⟨by decide, rfl⟩, by decide, rfl, by decide, by decide⟩

end Samples

end Klish
