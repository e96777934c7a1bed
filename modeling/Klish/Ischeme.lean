import Klish.Kentry
import Klish.Kpargv
import Klish.Lib.Roses

/-!
# Loading a scheme

The declarations of a scheme have all attributes as texts. The loader makes the objects of the
scheme from them. ENTRYs that are declared twice are merged.

Before the links are resolved the ENTRYs are the nodes of trees. Their records are the ones of
`kentry_t`, without the addresses.
-/

namespace Klish

/-- `UINT_MAX` -/
def uintMax : ℕ := UInt32.size - 1

/-- The conversions of texts that the library makes. -/
structure FauxConv where
  str2bool : String → Option Bool
  bool2str : Bool → String
  str2tri : String → Option Tri
  tri2str : Tri → String
  atoui : String → Option ℕ

/-- The conversions to texts are inverted by the ones from texts. -/
structure FauxConv.Inverse (conv : FauxConv) : Prop where
  bool : ∀ b, conv.bool2str b ≠ "" ∧ conv.str2bool (conv.bool2str b) = some b
  tri : ∀ t, (t = .no ∨ ∃ s, conv.str2tri s = some t) →
    conv.tri2str t ≠ "" ∧ conv.str2tri (conv.tri2str t) = some t
  atoui : ∀ n ≤ uintMax, conv.atoui (toString n) = some n
  atoui_le : ∀ s n, conv.atoui s = some n → n ≤ uintMax

/-- `faux_str_casecmp`, as a test for equality. -/
def strCaseEq (s t : String) : Bool := s.toList.map Char.toLower == t.toList.map Char.toLower

section Spellings

variable {α : Type}

/-- The value that a text spells. -/
def ofText (spellings : List (String × α)) (s : String) : Option α :=
  (spellings.find? fun spelling => strCaseEq s spelling.1).map Prod.snd

/-- The text for a value, NULL if there is none. -/
def toText [DecidableEq α] (spellings : List (String × α)) (a : α) : Option String :=
  (spellings.find? fun spelling => spelling.2 = a).map Prod.fst

end Spellings

def KentryMode.spellings : List (String × KentryMode) :=
  [("sequence", .sequence), ("switch", .switch), ("empty", .empty)]

def KentryPurpose.spellings : List (String × KentryPurpose) :=
  [("common", .common), ("ptype", .ptype), ("prompt", .prompt), ("cond", .cond),
    ("completion", .completion), ("help", .help), ("log", .log)]

def KentryFilter.spellings : List (String × KentryFilter) :=
  [("false", .no), ("true", .yes), ("dual", .dual)]

/-- `kaction_io_e_str` -/
def KactionIo.spellings : List (String × KactionIo) :=
  [("false", .no), ("true", .yes), ("tty", .tty)]

def KactionCond.spellings : List (String × KactionCond) :=
  [("fail", .fail), ("success", .success), ("always", .always), ("never", .never)]

structure Iaction where
  sym : Option String
  lock : Option String
  interrupt : Option String
  inp : Option String
  out : Option String
  execOn : Option String
  updateRetcode : Option String
  permanent : Option String
  sync : Option String
  script : Option String
  deriving DecidableEq

structure Ihotkey where
  key : Option String
  cmd : Option String
  deriving DecidableEq

structure Iplugin where
  name : Option String
  id : Option String
  file : Option String
  conf : Option String
  deriving DecidableEq

/-- `ientry_t`, without the nested ENTRYs. -/
structure IentryData where
  name : Option String
  help : Option String
  container : Option String
  mode : Option String
  purpose : Option String
  min : Option String
  max : Option String
  ref : Option String
  value : Option String
  restore : Option String
  transparent : Option String
  order : Option String
  filter : Option String
  actions : List Iaction
  hotkeys : List Ihotkey
  deriving DecidableEq

abbrev Ientry := Rose IentryData

structure Ischeme where
  entrys : List Ientry
  plugins : List Iplugin

/-- `kaction_t`, with the named lock. -/
structure KactionDecl extends Kaction where
  lock : Option String
  deriving DecidableEq

/-- `kplugin_t`, before it is loaded. -/
structure KpluginDecl extends Kplugin where
  id : Option String
  file : Option String
  conf : Option String

/-- `kentry_t`, without the nested ENTRYs. -/
structure KentryData where
  entry : Kentry
  actions : List KactionDecl
  hotkeys : List Khotkey

abbrev KentryTree := Rose KentryData

structure KschemeTree where
  plugins : List KpluginDecl
  entrys : List KentryTree

/-- `kscheme_new` -/
def KschemeTree.new : KschemeTree := ⟨[], []⟩

/-- `kentry_new`, the lists included. -/
def KentryData.new (name : String) : KentryData := ⟨Kentry.new name 0, [], []⟩

/-- What a parse leaves: its result, the object, and the messages so far. -/
structure Parsed (α : Type) where
  ok : Bool
  obj : α
  error : List String

section Attributes

variable {α : Type}

/-- One attribute of a declaration. An empty one is not set. -/
def Parsed.attr (p : Parsed α) (tag field : String) (value : Option String)
    (set : String → α → Option α) : Parsed α :=
  match value with
  | none => p
  | some s =>
    if s.isEmpty then p
    else
      match set s p.obj with
      | none => ⟨false, p.obj, p.error ++ [tag ++ ": Illegal '" ++ field ++ "' attribute"]⟩
      | some obj => ⟨p.ok, obj, p.error⟩

/-- An attribute is converted and set. -/
def setBy {β : Type} (conv : String → Option β) (set : β → α → α) (s : String) (obj : α) : Option α :=
  (conv s).map fun b => set b obj

end Attributes

variable (conv : FauxConv)

/-- `ientry_parse` -/
def ientryParse (info : IentryData) (entry : Kentry) (error : List String) : Parsed Kentry :=
  let p : Parsed Kentry := ⟨true, entry, error⟩
  let p := p.attr "ENTRY" "help" info.help (setBy some fun s e => { e with help := some s })
  let p := p.attr "ENTRY" "container" info.container
    (setBy conv.str2bool fun b e => { e with container := b })
  let p := p.attr "ENTRY" "mode" info.mode
    (setBy (ofText KentryMode.spellings) fun mode e => { e with mode := mode })
  let p := p.attr "ENTRY" "purpose" info.purpose
    (setBy (ofText KentryPurpose.spellings) fun purpose e => { e with purpose := purpose })
  let p := p.attr "ENTRY" "min" info.min (setBy conv.atoui fun i e => { e with min := i })
  let p := p.attr "ENTRY" "max" info.max (setBy conv.atoui fun i e => { e with max := i })
  let p := p.attr "ENTRY" "ref" info.ref (setBy some fun s e => { e with refStr := some s })
  let p := p.attr "ENTRY" "value" info.value (setBy some fun s e => { e with value := some s })
  let p := p.attr "ENTRY" "restore" info.restore
    (setBy conv.str2bool fun b e => { e with restore := b })
  let p := p.attr "ENTRY" "transparent" info.transparent
    (setBy conv.str2bool fun b e => { e with transparent := b })
  let p := p.attr "ENTRY" "order" info.order (setBy conv.str2bool fun b e => { e with order := b })
  p.attr "ENTRY" "filter" info.filter
    (setBy (ofText KentryFilter.spellings) fun filter e => { e with filter := filter })

/-- `kaction_set_sym_ref`. It is set once. -/
def KactionDecl.setSymRef (s : String) (action : KactionDecl) : Option KactionDecl :=
  match action.symRef with
  | none => some { action with symRef := some s }
  | some symRef => if symRef = s then some action else none

/-- `kaction_new` -/
def KactionDecl.new : KactionDecl := { Kaction.new with lock := none }

/-- `iaction_parse` -/
def iactionParse (info : Iaction) (action : KactionDecl) (error : List String) :
    Parsed KactionDecl :=
  let p : Parsed KactionDecl := ⟨true, action, error⟩
  let p := p.attr "ACTION" "sym" info.sym KactionDecl.setSymRef
  let p := p.attr "ACTION" "lock" info.lock (setBy some fun s a => { a with lock := some s })
  let p := p.attr "ACTION" "interrupt" info.interrupt
    (setBy conv.str2bool fun b a => { a with interrupt := b })
  let p := p.attr "ACTION" "in" info.inp
    (setBy (ofText KactionIo.spellings) fun io a => { a with inp := io })
  let p := p.attr "ACTION" "out" info.out
    (setBy (ofText KactionIo.spellings) fun io a => { a with out := io })
  let p := p.attr "ACTION" "exec_on" info.execOn
    (setBy (ofText KactionCond.spellings) fun c a => { a with execOn := c })
  let p := p.attr "ACTION" "update_retcode" info.updateRetcode
    (setBy conv.str2bool fun b a => { a with updateRetcode := b })
  let p := p.attr "ACTION" "permanent" info.permanent
    (setBy conv.str2tri fun b a => { a with permanent := b })
  let p := p.attr "ACTION" "sync" info.sync (setBy conv.str2tri fun b a => { a with sync := b })
  p.attr "ACTION" "script" info.script (setBy some fun s a => { a with script := some s })

/-- `iaction_load` -/
def iactionLoad (iaction : Iaction) (error : List String) : Option KactionDecl × List String :=
  let p := iactionParse conv iaction .new error
  (if p.ok then some p.obj else none, p.error)

/-- `ihotkey_load` -/
def ihotkeyLoad (ihotkey : Ihotkey) (error : List String) : Option Khotkey × List String :=
  if strIsEmpty ihotkey.key then (none, error ++ ["HOTKEY: Empty 'key' attribute"])
  else if strIsEmpty ihotkey.cmd then (none, error ++ ["HOTKEY: Empty 'cmd' attribute"])
  else (some ⟨ihotkey.key.getD "", ihotkey.cmd.getD ""⟩, error)

/-- `kplugin_new` -/
def KpluginDecl.new (name : String) : KpluginDecl where
  name := name
  syms := []
  id := none
  file := none
  conf := none

/-- `iplugin_parse` -/
def ipluginParse (info : Iplugin) (plugin : KpluginDecl) (error : List String) :
    Parsed KpluginDecl :=
  let p : Parsed KpluginDecl := ⟨true, plugin, error⟩
  let p := p.attr "PLUGIN" "id" info.id (setBy some fun s k => { k with id := some s })
  let p := p.attr "PLUGIN" "file" info.file (setBy some fun s k => { k with file := some s })
  p.attr "PLUGIN" "conf" info.conf (setBy some fun s k => { k with conf := some s })

/-- `iplugin_load` -/
def ipluginLoad (iplugin : Iplugin) (error : List String) : Option KpluginDecl × List String :=
  match iplugin.name with
  | none => (none, error)
  | some name =>
    if name.isEmpty then (none, error)
    else
      let p := ipluginParse iplugin (.new name) error
      (if p.ok then some p.obj else none, p.error)

section Lists

variable {ι κ : Type}

/-- The loop over a list of declarations. An object that can't be added is reported. -/
def loadList (load : ι → List String → Option κ × List String) (add : κ → List κ → Option (List κ))
    (cantAdd : κ → List κ → String) : List ι → Parsed (List κ) → Parsed (List κ)
  | [], r => r
  | i :: is, r =>
    match load i r.error with
    | (none, error) => loadList load add cantAdd is ⟨false, r.obj, error⟩
    | (some k, error) =>
      match add k r.obj with
      | none => loadList load add cantAdd is ⟨false, r.obj, error ++ [cantAdd k r.obj]⟩
      | some obj => loadList load add cantAdd is ⟨r.ok, obj, error⟩

/-- An unsorted list that is not unique. -/
def addLast (k : κ) (list : List κ) : Option (List κ) := some (list ++ [k])

/-- An unsorted list that is unique by a key. -/
def addUnique (key : κ → String) (k : κ) (list : List κ) : Option (List κ) :=
  if list.any fun k' => key k' == key k then none else some (list ++ [k])

/-- A sorted list that is unique by a key. -/
def addSortedUnique (key : κ → String) (k : κ) : List κ → Option (List κ)
  | [] => some [k]
  | k' :: list =>
    if key k < key k' then some (k :: k' :: list)
    else if key k' < key k then (addSortedUnique key k list).map (k' :: ·)
    else none

end Lists

def KentryTree.name (t : KentryTree) : String := t.label.entry.name

/-- The new ENTRY of `ientry_load`, over the parse of its nested elements. -/
def ientryLoadWith (parseNested : KentryTree → List String → Parsed KentryTree) (info : IentryData)
    (error : List String) : Option KentryTree × List String :=
  match info.name with
  | none => (none, error ++ ["ENTRY: Empty 'name' attribute"])
  | some name =>
    if name.isEmpty then (none, error ++ ["ENTRY: Empty 'name' attribute"])
    else
      let p := ientryParse conv info (Kentry.new name 0) error
      if p.ok then
        let q := parseNested (.node { KentryData.new name with entry := p.obj } []) p.error
        (if q.ok then some q.obj else none, q.error)
      else (none, p.error)

/-- One step of the loop over the declarations of ENTRYs: an ENTRY of the name is parsed into, or a
new one is loaded. -/
def parseEntryWith (tag : String) (parseNested : KentryTree → List String → Parsed KentryTree)
    (info : IentryData) (r : Parsed (List KentryTree)) : Parsed (List KentryTree) :=
  match r.obj.findIdx? fun t => some t.name == info.name with
  | some i =>
    match r.obj[i]? with
    | none => r
    | some (.node k nested) =>
      let p := ientryParse conv info k.entry r.error
      let t := Rose.node { k with entry := p.obj } nested
      if p.ok then
        let q := parseNested t p.error
        ⟨r.ok && q.ok, r.obj.set i q.obj, q.error⟩
      else ⟨false, r.obj.set i t, p.error⟩
  | none =>
    match ientryLoadWith conv parseNested info r.error with
    | (none, error) => ⟨false, r.obj, error⟩
    | (some t, error) =>
      match addUnique KentryTree.name t r.obj with
      | none => ⟨false, r.obj, error ++ [tag ++ ": Can't add ENTRY \"" ++ t.name ++ "\""]⟩
      | some obj => ⟨r.ok, obj, error⟩

mutual

/-- `ientry_parse_nested` -/
def ientryParseNested : Ientry → KentryTree → List String → Parsed KentryTree
  | .node info entrys, .node k nested, error =>
    let r := parseEntrys "ENTRY" entrys ⟨true, nested, error⟩
    let a := loadList (iactionLoad conv) addLast
      (fun _ list => "ENTRY: Can't add ACTION #" ++ toString (list.length + 1)) info.actions
      ⟨r.ok, k.actions, r.error⟩
    let h := loadList ihotkeyLoad (addUnique Khotkey.key)
      (fun hotkey _ => "ENTRY: Can't add HOTKEY \"" ++ hotkey.key ++ "\"") info.hotkeys
      ⟨a.ok, k.hotkeys, a.error⟩
    ⟨h.ok, .node { k with actions := a.obj, hotkeys := h.obj } r.obj,
      if h.ok then h.error
      else h.error ++ ["ENTRY \"" ++ k.entry.name ++ "\": Illegal nested elements"]⟩

/-- The loop over the declarations of ENTRYs. -/
def parseEntrys (tag : String) : List Ientry → Parsed (List KentryTree) → Parsed (List KentryTree)
  | [], r => r
  | i :: is, r =>
    parseEntrys tag is (parseEntryWith conv tag (ientryParseNested i) i.label r)

end

/-- `ientry_load` -/
def ientryLoad (i : Ientry) (error : List String) : Option KentryTree × List String :=
  ientryLoadWith conv (ientryParseNested conv i) i.label error

/-- `ischeme_parse_nested` -/
def ischemeParseNested (ischeme : Ischeme) (kscheme : KschemeTree) (error : List String) :
    Parsed KschemeTree :=
  let p := loadList ipluginLoad (addSortedUnique fun k => k.name)
    (fun plugin _ => "SCHEME: Can't add duplicate PLUGIN \"" ++ plugin.name ++ "\"") ischeme.plugins
    ⟨true, kscheme.plugins, error⟩
  let r := parseEntrys conv "SCHEME" ischeme.entrys ⟨p.ok, kscheme.entrys, p.error⟩
  ⟨r.ok, ⟨p.obj, r.obj⟩, if r.ok then r.error else r.error ++ ["SCHEME: Illegal nested elements"]⟩

/-- `ischeme_load` -/
def ischemeLoad (ischeme : Ischeme) (kscheme : KschemeTree) (error : List String) :
    Parsed KschemeTree :=
  ischemeParseNested conv ischeme kscheme error

end Klish
