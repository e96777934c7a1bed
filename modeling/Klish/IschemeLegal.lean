import Klish.Ischeme
import Mathlib.Data.List.Nodup

/-!
# The schemes that are loaded

What the loader leaves in a scheme, whatever the declarations are and whether the load succeeds.
-/

namespace Klish

/-- The attributes that the loader can leave in an ENTRY. -/
structure Kentry.Legal (e : Kentry) : Prop where
  name : e.name ≠ ""
  parent : e.parent = none
  body : e.body = 0
  help : e.help ≠ some ""
  refStr : e.refStr ≠ some ""
  value : e.value ≠ some ""
  mode : e.mode ≠ .none
  purpose : e.purpose ≠ .none
  filter : e.filter ≠ .none
  min : e.min ≤ uintMax
  max : e.max ≤ uintMax

/-- The symbol and the plugin of an ACTION are found later. -/
structure KactionDecl.Legal (conv : FauxConv) (a : KactionDecl) : Prop where
  sym : a.sym = none
  plugin : a.plugin = none
  symRef : a.symRef ≠ some ""
  lock : a.lock ≠ some ""
  script : a.script ≠ some ""
  inp : a.inp ≠ .none
  out : a.out ≠ .none
  execOn : a.execOn ≠ .none
  permanent : a.permanent = .no ∨ ∃ s, conv.str2tri s = some a.permanent
  sync : a.sync = .no ∨ ∃ s, conv.str2tri s = some a.sync

structure KpluginDecl.Legal (k : KpluginDecl) : Prop where
  name : k.name ≠ ""
  syms : k.syms = []
  id : k.id ≠ some ""
  file : k.file ≠ some ""
  conf : k.conf ≠ some ""

structure Khotkey.Legal (h : Khotkey) : Prop where
  key : h.key ≠ ""
  cmd : h.cmd ≠ ""

structure KentryData.Legal (conv : FauxConv) (k : KentryData) : Prop where
  entry : k.entry.Legal
  actions : ∀ a ∈ k.actions, a.Legal conv
  hotkeys : ∀ h ∈ k.hotkeys, h.Legal
  keys : (k.hotkeys.map Khotkey.key).Nodup

/-- An ENTRY and the ones below it. The names are unique among the children of a node. -/
def KentryTree.Legal (conv : FauxConv) : KentryTree → Prop :=
  Rose.All fun t => t.label.Legal conv ∧ (t.children.map KentryTree.name).Nodup

structure KschemeTree.Legal (conv : FauxConv) (s : KschemeTree) : Prop where
  plugins : ∀ k ∈ s.plugins, k.Legal
  sorted : s.plugins.Pairwise fun k k' => k.name < k'.name
  entrys : ∀ t ∈ s.entrys, KentryTree.Legal conv t
  names : (s.entrys.map KentryTree.name).Nodup

/-- A scheme that some loads have made from an empty one. -/
inductive Produced (conv : FauxConv) : KschemeTree → Prop
  | new : Produced conv .new
  | load {s : KschemeTree} (h : Produced conv s) (ischeme : Ischeme) (error : List String) :
      Produced conv (ischemeLoad conv ischeme s error).obj

variable {conv : FauxConv}

section Attributes

variable {α β : Type} {P : α → Prop} {p : Parsed α} {tag field : String} {value : Option String}

theorem Parsed.attr_obj {set : String → α → Option α} (hset : ∀ s obj obj', s ≠ "" → P obj →
    set s obj = some obj' → P obj') (h : P p.obj) : P (p.attr tag field value set).obj := by
  cases value with
  | none => exact h
  | some s =>
    rw [Parsed.attr]
    by_cases hs : s.isEmpty
    · simpa [hs] using h
    · have hne : s ≠ "" := by simpa using hs
      cases hobj : set s p.obj with
      | none => simpa [hs, hobj] using h
      | some obj => simpa [hs, hobj] using hset s p.obj obj hne h hobj

/-- A converted attribute keeps what each converted value keeps. -/
theorem Parsed.attr_setBy {conv : String → Option β} {set : β → α → α}
    (hset : ∀ s b obj, s ≠ "" → conv s = some b → P obj → P (set b obj)) (h : P p.obj) :
    P (p.attr tag field value (setBy conv set)).obj := by
  apply Parsed.attr_obj _ h
  intro s obj obj' hs hobj hset'
  obtain ⟨b, hb, rfl⟩ := Option.map_eq_some_iff.mp hset'
  exact hset s b obj hs hb hobj

/-- A value without a spelling is not read. -/
theorem ofText_ne {spellings : List (String × α)} {s : String} {a a' : α}
    (hspell : a' ∉ spellings.map Prod.snd) (h : ofText spellings s = some a) : a ≠ a' := by
  rintro rfl
  obtain ⟨⟨t, b⟩, hfind, rfl⟩ := Option.map_eq_some_iff.mp h
  exact hspell (List.mem_map_of_mem (List.mem_of_find?_eq_some hfind))

end Attributes

theorem some_ne_empty {s b : String} (hs : s ≠ "") (hb : some s = some b) : some b ≠ some "" := by
  rw [← hb]
  exact fun h => hs (Option.some.inj h)

theorem Kentry.new_legal {name : String} (h : name ≠ "") : (Kentry.new name 0).Legal := by
  constructor <;> simp [Kentry.new, h, uintMax]

/-- An attribute leaves the others as they are. -/
theorem ientryParse_legal (hinv : conv.Inverse) (info : IentryData) (error : List String)
    {entry : Kentry} (h : entry.Legal) : (ientryParse conv info entry error).obj.Legal := by
  apply Parsed.attr_setBy (fun _ _ _ _ hb ho => { ho with filter := ofText_ne (by decide) hb })
  apply Parsed.attr_setBy (fun _ _ _ _ _ ho => { ho with })
  apply Parsed.attr_setBy (fun _ _ _ _ _ ho => { ho with })
  apply Parsed.attr_setBy (fun _ _ _ _ _ ho => { ho with })
  apply Parsed.attr_setBy (fun s b _ hs hb ho => { ho with value := some_ne_empty hs hb })
  apply Parsed.attr_setBy (fun s b _ hs hb ho => { ho with refStr := some_ne_empty hs hb })
  apply Parsed.attr_setBy (fun s n _ _ hn ho => { ho with max := hinv.atoui_le s n hn })
  apply Parsed.attr_setBy (fun s n _ _ hn ho => { ho with min := hinv.atoui_le s n hn })
  apply Parsed.attr_setBy (fun _ _ _ _ hb ho => { ho with purpose := ofText_ne (by decide) hb })
  apply Parsed.attr_setBy (fun _ _ _ _ hb ho => { ho with mode := ofText_ne (by decide) hb })
  apply Parsed.attr_setBy (fun _ _ _ _ _ ho => { ho with })
  apply Parsed.attr_setBy (fun s b _ hs hb ho => { ho with help := some_ne_empty hs hb })
  exact h

theorem ientryParse_name (conv : FauxConv) (info : IentryData) (entry : Kentry)
    (error : List String) : (ientryParse conv info entry error).obj.name = entry.name := by
  have hkeep : ∀ {β : Type} (c : String → Option β) (set : β → Kentry → Kentry)
      (p : Parsed Kentry) (field : String) (value : Option String),
      (∀ b e, (set b e).name = e.name) → p.obj.name = entry.name →
      (p.attr "ENTRY" field value (setBy c set)).obj.name = entry.name := by
    intro β c set p field value hset hp
    exact Parsed.attr_setBy (P := fun e => e.name = entry.name)
      (fun _ b e _ _ he => (hset b e).trans he) hp
  rw [ientryParse]
  repeat refine hkeep _ _ _ _ _ (fun _ _ => rfl) ?_
  rfl

theorem KactionDecl.new_legal (conv : FauxConv) : KactionDecl.new.Legal conv := by
  constructor <;> simp [new, Kaction.new]

theorem iactionParse_legal (info : Iaction) (error : List String) {action : KactionDecl}
    (h : action.Legal conv) : (iactionParse conv info action error).obj.Legal conv := by
  apply Parsed.attr_setBy (fun s b _ hs hb ho => { ho with script := some_ne_empty hs hb })
  apply Parsed.attr_setBy (fun s b _ _ hb ho => { ho with sync := .inr ⟨s, hb⟩ })
  apply Parsed.attr_setBy (fun s b _ _ hb ho => { ho with permanent := .inr ⟨s, hb⟩ })
  apply Parsed.attr_setBy (fun _ _ _ _ _ ho => { ho with })
  apply Parsed.attr_setBy (fun _ _ _ _ hb ho => { ho with execOn := ofText_ne (by decide) hb })
  apply Parsed.attr_setBy (fun _ _ _ _ hb ho => { ho with out := ofText_ne (by decide) hb })
  apply Parsed.attr_setBy (fun _ _ _ _ hb ho => { ho with inp := ofText_ne (by decide) hb })
  apply Parsed.attr_setBy (fun _ _ _ _ _ ho => { ho with })
  apply Parsed.attr_setBy (fun s b _ hs hb ho => { ho with lock := some_ne_empty hs hb })
  apply Parsed.attr_obj _ h
  intro s a a' hs ha hset
  rw [KactionDecl.setSymRef] at hset
  cases hsym : a.symRef with
  | none =>
    obtain rfl : { a with symRef := some s } = a' := by simpa [hsym] using hset
    exact { ha with symRef := some_ne_empty hs rfl }
  | some symRef =>
    obtain ⟨_, rfl⟩ : symRef = s ∧ a = a' := by simpa [hsym] using hset
    exact ha

theorem iactionLoad_legal {info : Iaction} {error : List String} {a : KactionDecl}
    (h : (iactionLoad conv info error).1 = some a) : a.Legal conv := by
  have hlegal := iactionParse_legal info error (KactionDecl.new_legal conv)
  rw [iactionLoad] at h
  split at h
  · cases h
    exact hlegal
  · cases h

theorem getD_ne_empty {s : Option String} (h : ¬ strIsEmpty s) : s.getD "" ≠ "" := by
  cases s with
  | none => exact absurd rfl h
  | some s => simpa [strIsEmpty] using h

theorem ihotkeyLoad_legal {info : Ihotkey} {error : List String} {h : Khotkey}
    (hload : (ihotkeyLoad info error).1 = some h) : h.Legal := by
  rw [ihotkeyLoad] at hload
  by_cases hkey : strIsEmpty info.key
  · simp [hkey] at hload
  · by_cases hcmd : strIsEmpty info.cmd
    · simp [hkey, hcmd] at hload
    · obtain rfl : Khotkey.mk (info.key.getD "") (info.cmd.getD "") = h := by
        simpa [hkey, hcmd] using hload
      exact ⟨getD_ne_empty hkey, getD_ne_empty hcmd⟩

theorem ipluginLoad_legal {info : Iplugin} {error : List String} {k : KpluginDecl}
    (h : (ipluginLoad info error).1 = some k) : k.Legal := by
  cases hname : info.name with
  | none => simp [ipluginLoad, hname] at h
  | some name =>
    by_cases hempty : name = ""
    · simp [ipluginLoad, hname, hempty] at h
    · have hnew : (KpluginDecl.new name).Legal := by
        constructor <;> simp [KpluginDecl.new, hempty]
      have hparse : (ipluginParse info (.new name) error).obj.Legal := by
        apply Parsed.attr_setBy (fun s b _ hs hb ho => { ho with conf := some_ne_empty hs hb })
        apply Parsed.attr_setBy (fun s b _ hs hb ho => { ho with file := some_ne_empty hs hb })
        apply Parsed.attr_setBy (fun s b _ hs hb ho => { ho with id := some_ne_empty hs hb })
        exact hnew
      by_cases hok : (ipluginParse info (.new name) error).ok
      · obtain rfl : _ = k := by simpa [ipluginLoad, hname, hempty, hok] using h
        exact hparse
      · simp [ipluginLoad, hname, hempty, hok] at h

section Lists

variable {ι κ : Type}

/-- What each added object keeps holds of the list that is loaded. -/
theorem loadList_inv {load : ι → List String → Option κ × List String}
    {add : κ → List κ → Option (List κ)} {cantAdd : κ → List κ → String} {Q : κ → Prop}
    {I : List κ → Prop} (hload : ∀ i error k, (load i error).1 = some k → Q k)
    (hadd : ∀ k list list', Q k → I list → add k list = some list' → I list') (is : List ι)
    (ok : Bool) {list : List κ} (error : List String) (h : I list) :
    I (loadList load add cantAdd is ⟨ok, list, error⟩).obj := by
  induction is generalizing ok list error with
  | nil => exact h
  | cons i is ih =>
    rw [loadList]
    have hQ := hload i error
    cases hi : load i error with
    | mk k error =>
      rw [hi] at hQ
      cases k with
      | none => exact ih _ _ h
      | some k =>
        cases hk : add k list with
        | none => simpa [hk] using ih false _ h
        | some obj => simpa [hk] using ih ok error (hadd k _ _ (hQ k rfl) h hk)

/-- Only what is loaded is added. -/
theorem loadList_all {load : ι → List String → Option κ × List String}
    {add : κ → List κ → Option (List κ)} {cantAdd : κ → List κ → String} {Q : κ → Prop}
    (hload : ∀ i error k, (load i error).1 = some k → Q k)
    (hadd : ∀ k k' list list', add k list = some list' → k' ∈ list' → k' = k ∨ k' ∈ list)
    (is : List ι) (ok : Bool) {list : List κ} (error : List String) (h : ∀ k ∈ list, Q k) :
    ∀ k ∈ (loadList load add cantAdd is ⟨ok, list, error⟩).obj, Q k := by
  refine loadList_inv (I := fun list => ∀ k ∈ list, Q k) hload ?_ is ok error h
  intro k list list' hk hlist hlist' k' hmem
  rcases hadd k k' list list' hlist' hmem with rfl | hmem
  · exact hk
  · exact hlist k' hmem

theorem addUnique_eq_some {key : κ → String} {k : κ} {list list' : List κ} :
    addUnique key k list = some list' ↔ key k ∉ list.map key ∧ list' = list ++ [k] := by
  rw [addUnique]
  by_cases hk : key k ∈ list.map key
  · have hany : (list.any fun k' => key k' == key k) = true := by
      obtain ⟨k', hmem, heq⟩ := List.mem_map.mp hk
      exact List.any_eq_true.mpr ⟨k', hmem, by simp [heq]⟩
    simp [hany, hk]
  · have hany : (list.any fun k' => key k' == key k) = false := by
      apply List.any_eq_false.mpr
      intro k' hmem heq
      exact hk (List.mem_map.mpr ⟨k', hmem, by simpa using heq⟩)
    simp [hany, hk, eq_comm]

theorem nodup_snoc {list : List String} {s : String} (h : list.Nodup) (hs : s ∉ list) :
    (list ++ [s]).Nodup := by
  apply List.nodup_append.mpr
  refine ⟨h, by simp, ?_⟩
  intro a ha b hb
  obtain rfl := List.mem_singleton.mp hb
  exact fun heq => hs (heq ▸ ha)

theorem addLast_mem {k k' : κ} {list list' : List κ} (hadd : addLast k list = some list')
    (hmem : k' ∈ list') : k' = k ∨ k' ∈ list := by
  obtain rfl : list ++ [k] = list' := by simpa [addLast] using hadd
  simpa [or_comm] using hmem

theorem addUnique_mem {key : κ → String} {k k' : κ} {list list' : List κ}
    (hadd : addUnique key k list = some list') (hmem : k' ∈ list') : k' = k ∨ k' ∈ list := by
  obtain ⟨_, rfl⟩ := addUnique_eq_some.mp hadd
  simpa [or_comm] using hmem

theorem addUnique_nodup {key : κ → String} {k : κ} {list list' : List κ}
    (h : (list.map key).Nodup) (hadd : addUnique key k list = some list') :
    (list'.map key).Nodup := by
  obtain ⟨hk, rfl⟩ := addUnique_eq_some.mp hadd
  rw [List.map_append]
  exact nodup_snoc h hk

/-- The new object goes between the smaller and the larger ones. -/
theorem addSortedUnique_perm {key : κ → String} {k : κ} {list list' : List κ}
    (h : addSortedUnique key k list = some list') : list'.Perm (k :: list) := by
  induction list generalizing list' with
  | nil =>
    obtain rfl : [k] = list' := by simpa [addSortedUnique] using h
    exact .refl _
  | cons k' list ih =>
    rw [addSortedUnique] at h
    split at h
    · cases h
      exact .refl _
    · split at h
      · obtain ⟨rest, hrest, rfl⟩ := Option.map_eq_some_iff.mp h
        exact ((ih hrest).cons k').trans (.swap k k' list)
      · cases h

theorem addSortedUnique_mem {key : κ → String} {k k' : κ} {list list' : List κ}
    (hadd : addSortedUnique key k list = some list') (hmem : k' ∈ list') : k' = k ∨ k' ∈ list :=
  List.mem_cons.mp ((addSortedUnique_perm hadd).mem_iff.mp hmem)

theorem addSortedUnique_sorted {key : κ → String} {k : κ} {list list' : List κ}
    (hsorted : list.Pairwise fun k k' => key k < key k')
    (h : addSortedUnique key k list = some list') : list'.Pairwise fun k k' => key k < key k' := by
  induction list generalizing list' with
  | nil =>
    obtain rfl : [k] = list' := by simpa [addSortedUnique] using h
    exact List.pairwise_singleton _ _
  | cons k' list ih =>
    obtain ⟨hfirst, hrest⟩ := List.pairwise_cons.mp hsorted
    rw [addSortedUnique] at h
    split at h
    case isTrue hlt =>
      cases h
      refine List.pairwise_cons.mpr ⟨?_, hsorted⟩
      intro k'' hmem
      rcases List.mem_cons.mp hmem with rfl | hmem
      · exact hlt
      · exact String.lt_trans hlt (hfirst k'' hmem)
    case isFalse =>
      split at h
      case isTrue hlt =>
        obtain ⟨rest, hadd, rfl⟩ := Option.map_eq_some_iff.mp h
        refine List.pairwise_cons.mpr ⟨?_, ih hrest hadd⟩
        intro k'' hmem
        rcases addSortedUnique_mem hadd hmem with rfl | hmem
        · exact hlt
        · exact hfirst k'' hmem
      case isFalse => cases h

end Lists

section Entrys

/-- A parse of nested elements keeps what it parses into legal, and its name. -/
def KeepsLegal (conv : FauxConv) (parseNested : KentryTree → List String → Parsed KentryTree) :
    Prop :=
  ∀ t error, KentryTree.Legal conv t →
    KentryTree.Legal conv (parseNested t error).obj ∧ (parseNested t error).obj.name = t.name

/-- The ENTRYs of one list. -/
structure LegalList (conv : FauxConv) (ts : List KentryTree) : Prop where
  each : ∀ t ∈ ts, KentryTree.Legal conv t
  names : (ts.map KentryTree.name).Nodup

theorem LegalList.add {t : KentryTree} {ts ts' : List KentryTree} (h : LegalList conv ts)
    (ht : KentryTree.Legal conv t) (hadd : addUnique KentryTree.name t ts = some ts') :
    LegalList conv ts' := by
  refine ⟨?_, addUnique_nodup h.names hadd⟩
  intro t' hmem
  rcases addUnique_mem hadd hmem with rfl | hmem
  · exact ht
  · exact h.each t' hmem

/-- An ENTRY of the list may change as long as its name is kept. -/
theorem LegalList.set {t t' : KentryTree} {ts : List KentryTree} {i : ℕ} (h : LegalList conv ts)
    (hi : ts[i]? = some t) (ht' : KentryTree.Legal conv t') (hname : t'.name = t.name) :
    LegalList conv (ts.set i t') := by
  constructor
  · intro u hu
    rcases List.mem_or_eq_of_mem_set hu with hu | rfl
    · exact h.each u hu
    · exact ht'
  · have hsame : (ts.set i t').map KentryTree.name = ts.map KentryTree.name := by
      apply List.ext_getElem?
      intro j
      rw [List.getElem?_map, List.getElem?_map, List.getElem?_set]
      by_cases hij : i = j
      · subst hij
        obtain ⟨hlt, rfl⟩ := List.getElem?_eq_some_iff.mp hi
        simp [hlt, hname]
      · simp [hij]
    rw [hsame]
    exact h.names

theorem ientryLoadWith_legal (hinv : conv.Inverse)
    {parseNested : KentryTree → List String → Parsed KentryTree} (hkeeps : KeepsLegal conv parseNested)
    {info : IentryData} {error : List String} {t : KentryTree}
    (h : (ientryLoadWith conv parseNested info error).1 = some t) : KentryTree.Legal conv t := by
  cases hname : info.name with
  | none => simp [ientryLoadWith, hname] at h
  | some name =>
    by_cases hempty : name = ""
    · simp [ientryLoadWith, hname, hempty] at h
    · have hentry := ientryParse_legal hinv info error (Kentry.new_legal hempty)
      by_cases hok : (ientryParse conv info (Kentry.new name 0) error).ok
      · simp only [ientryLoadWith, hname, hok, String.isEmpty_iff, hempty, if_false, if_true] at h
        split at h
        · cases h
          apply (hkeeps _ _ _).1
          refine .node ⟨⟨hentry, ?_, ?_, List.nodup_nil⟩, List.nodup_nil⟩ ?_
          all_goals simp [KentryData.new]
        · cases h
      · simp [ientryLoadWith, hname, hempty, hok] at h

theorem parseEntryWith_legal (hinv : conv.Inverse) {tag : String}
    {parseNested : KentryTree → List String → Parsed KentryTree} (hkeeps : KeepsLegal conv parseNested)
    {info : IentryData} {r : Parsed (List KentryTree)} (h : LegalList conv r.obj) :
    LegalList conv (parseEntryWith conv tag parseNested info r).obj := by
  rw [parseEntryWith]
  split
  case h_1 i _ =>
    cases hi : r.obj[i]? with
    | none => exact h
    | some t =>
      obtain ⟨k, nested⟩ := t
      have hlegal := h.each _ (List.mem_of_getElem? hi)
      have hparsed : KentryTree.Legal conv
          (.node { k with entry := (ientryParse conv info k.entry r.error).obj } nested) := by
        obtain ⟨hroot, hnames⟩ := hlegal.root
        exact .node ⟨{ hroot with entry := ientryParse_legal hinv info r.error hroot.entry }, hnames⟩
          fun c hc => hlegal.child hc
      have hname := ientryParse_name conv info k.entry r.error
      dsimp only
      split
      · obtain ⟨hnested, hnested'⟩ := hkeeps _ (ientryParse conv info k.entry r.error).error hparsed
        exact h.set hi hnested (hnested'.trans hname)
      · exact h.set hi hparsed hname
  case h_2 =>
    have hload : ∀ t, (ientryLoadWith conv parseNested info r.error).1 = some t →
        KentryTree.Legal conv t := fun t => ientryLoadWith_legal hinv hkeeps
    cases hres : ientryLoadWith conv parseNested info r.error with
    | mk t error =>
      rw [hres] at hload
      cases t with
      | none => exact h
      | some t =>
        cases hadd : addUnique KentryTree.name t r.obj with
        | none => simpa [hadd] using h
        | some obj => simpa [hadd] using h.add (hload t rfl) hadd

theorem parseEntrys_legal (hinv : conv.Inverse) (tag : String) {is : List Ientry}
    (hkeeps : ∀ i ∈ is, KeepsLegal conv (ientryParseNested conv i)) {r : Parsed (List KentryTree)}
    (h : LegalList conv r.obj) : LegalList conv (parseEntrys conv tag is r).obj := by
  induction is generalizing r with
  | nil => simpa [parseEntrys] using h
  | cons i is ih =>
    rw [parseEntrys]
    apply ih fun j hj => hkeeps j (List.mem_cons_of_mem i hj)
    exact parseEntryWith_legal hinv (hkeeps i List.mem_cons_self) h

theorem ientryParseNested_legal (hinv : conv.Inverse) (i : Ientry) :
    KeepsLegal conv (ientryParseNested conv i) := by
  induction i using Rose.ind with
  | hnode info entrys ih =>
    intro t error h
    obtain ⟨k, nested⟩ := t
    obtain ⟨hroot, hnames⟩ := h.root
    have hnested : LegalList conv nested := ⟨fun c hc => h.child hc, hnames⟩
    rw [ientryParseNested]
    refine ⟨?_, rfl⟩
    have hentrys := parseEntrys_legal hinv "ENTRY" ih (r := ⟨true, nested, error⟩) hnested
    refine .node ⟨⟨hroot.entry, ?_, ?_, ?_⟩, hentrys.names⟩ hentrys.each
    · exact loadList_all (fun _ _ _ => iactionLoad_legal) (fun _ _ _ _ => addLast_mem)
        info.actions _ _ hroot.actions
    · exact loadList_all (fun _ _ _ => ihotkeyLoad_legal) (fun _ _ _ _ => addUnique_mem)
        info.hotkeys _ _ hroot.hotkeys
    · exact loadList_inv (Q := fun _ => True) (fun _ _ _ _ => trivial)
        (fun _ _ _ _ => addUnique_nodup) info.hotkeys _ _ hroot.keys

end Entrys

theorem ischemeLoad_legal (hinv : conv.Inverse) {ischeme : Ischeme} {s : KschemeTree}
    {error : List String} (h : s.Legal conv) : (ischemeLoad conv ischeme s error).obj.Legal conv := by
  have hentrys : ∀ ok error, LegalList conv
      (parseEntrys conv "SCHEME" ischeme.entrys ⟨ok, s.entrys, error⟩).obj := by
    intro ok error
    exact parseEntrys_legal hinv _ (fun i _ => ientryParseNested_legal hinv i) ⟨h.entrys, h.names⟩
  refine ⟨?_, ?_, (hentrys _ _).each, (hentrys _ _).names⟩
  · exact loadList_all (fun _ _ _ => ipluginLoad_legal) (fun _ _ _ _ => addSortedUnique_mem)
      ischeme.plugins _ _ h.plugins
  · exact loadList_inv (Q := fun _ => True) (fun _ _ _ _ => trivial)
      (fun _ _ _ _ => addSortedUnique_sorted) ischeme.plugins _ _ h.sorted

/-- Every scheme that is loaded is legal. -/
theorem Produced.legal (hinv : conv.Inverse) {s : KschemeTree} (h : Produced conv s) :
    s.Legal conv := by
  induction h with
  | new => exact ⟨nofun, .nil, nofun, List.nodup_nil⟩
  | load _ ischeme error ih => exact ischemeLoad_legal hinv ih

end Klish
