import Klish.Ischeme

/-!
# Deploying a scheme

The text that is emitted is a list of tokens, one for each piece the code appends. Spaces and the
escapes of strings are left out. It is read as the initialiser of an `ischeme_t`, with the macros of
the headers.
-/

namespace Klish

/-- A piece of the emitted text. -/
inductive Token where
  /-- `ischeme_t sch = {` -/
  | openScheme
  /-- `};` -/
  | closeScheme
  /-- A word and a brace. -/
  | openObj (macro' : String)
  /-- `},` -/
  | closeObj
  /-- `.field = "value",` -/
  | attr (field value : String)
  | openList (macro' : String)
  /-- A word and a comma. -/
  | closeList (macro' : String)
  deriving DecidableEq

/-- `attr2ctext` -/
def attr2ctext (field : String) (value : Option String) : List Token :=
  match value with
  | none => []
  | some s => if s.isEmpty then [] else [.attr field s]

/-- A list of objects, if there are any. -/
def listToText (macro' endMacro : String) (objs : List (List Token)) : List Token :=
  if objs.isEmpty then [] else .openList macro' :: objs.flatten ++ [.closeList endMacro]

/-- `%u` with a `size_t` -/
def unsignedToText (n : ℕ) : String := toString (n % UInt32.size)

/-- `iplugin_deploy` -/
def ipluginDeploy (plugin : KpluginDecl) : List Token :=
  .openObj "PLUGIN" ::
    (attr2ctext "name" plugin.name ++ attr2ctext "id" plugin.id ++ attr2ctext "file" plugin.file ++
      attr2ctext "conf" plugin.conf) ++ [.closeObj]

/-- `ihotkey_deploy` -/
def ihotkeyDeploy (hotkey : Khotkey) : List Token :=
  .openObj "hotkey" :: (attr2ctext "key" hotkey.key ++ attr2ctext "cmd" hotkey.cmd) ++ [.closeObj]

variable (conv : FauxConv)

/-- `iaction_deploy` -/
def iactionDeploy (action : KactionDecl) : List Token :=
  .openObj "ACTION" ::
    (attr2ctext "sym" action.symRef ++ attr2ctext "lock" action.lock ++
      attr2ctext "interrupt" (conv.bool2str action.interrupt) ++
      attr2ctext "in" (toText KactionIo.spellings action.inp) ++
      attr2ctext "out" (toText KactionIo.spellings action.out) ++
      attr2ctext "exec_on" (toText KactionCond.spellings action.execOn) ++
      attr2ctext "update_retcode" (conv.bool2str action.updateRetcode) ++
      attr2ctext "permanent" (conv.tri2str action.permanent) ++
      attr2ctext "sync" (conv.tri2str action.sync) ++
      attr2ctext "script" action.script) ++ [.closeObj]

/-- The attributes that are not emitted for a link. -/
def ownAttributes (entry : Kentry) : List Token :=
  attr2ctext "container" (conv.bool2str entry.container) ++
    attr2ctext "mode" (toText KentryMode.spellings entry.mode) ++
    attr2ctext "purpose" (toText KentryPurpose.spellings entry.purpose) ++
    attr2ctext "min" (unsignedToText entry.min) ++ attr2ctext "max" (unsignedToText entry.max) ++
    attr2ctext "value" entry.value ++ attr2ctext "restore" (conv.bool2str entry.restore) ++
    attr2ctext "transparent" (conv.bool2str entry.transparent) ++
    attr2ctext "order" (conv.bool2str entry.order) ++
    attr2ctext "filter" (toText KentryFilter.spellings entry.filter)

mutual

/-- `ientry_deploy` -/
def ientryDeploy : KentryTree → List Token
  | .node k nested =>
    .openObj "ENTRY" ::
      (attr2ctext "name" k.entry.name ++ attr2ctext "help" k.entry.help ++
        attr2ctext "ref" k.entry.refStr ++
        (if strIsEmpty k.entry.refStr then
          ownAttributes conv k.entry ++ listToText "ENTRY_LIST" "END_ENTRY_LIST" (entrysDeploy nested) ++
            listToText "ACTION_LIST" "END_ACTION_LIST" (k.actions.map (iactionDeploy conv)) ++
            listToText "HOTKEY_LIST" "END_HOTKEY_LIST" (k.hotkeys.map ihotkeyDeploy)
        else [])) ++ [.closeObj]

def entrysDeploy : List KentryTree → List (List Token)
  | [] => []
  | t :: ts => ientryDeploy t :: entrysDeploy ts

end

/-- `ischeme_deploy` -/
def ischemeDeploy (scheme : KschemeTree) : List Token :=
  .openScheme ::
    (listToText "PLUGIN_LIST" "END_PLUGIN_LIST" (scheme.plugins.map ipluginDeploy) ++
      listToText "ENTRY_LIST" "END_ENTRY_LIST" (entrysDeploy conv scheme.entrys)) ++ [.closeScheme]

section Reading

/-- A designated initialiser of a field. A field without one is NULL. -/
def Iaction.set (field : String) (value : Option String) (i : Iaction) : Option Iaction :=
  match field with
  | "sym" => some { i with sym := value }
  | "lock" => some { i with lock := value }
  | "interrupt" => some { i with interrupt := value }
  | "in" => some { i with inp := value }
  | "out" => some { i with out := value }
  | "exec_on" => some { i with execOn := value }
  | "update_retcode" => some { i with updateRetcode := value }
  | "permanent" => some { i with permanent := value }
  | "sync" => some { i with sync := value }
  | "script" => some { i with script := value }
  | _ => none

def Ihotkey.set (field : String) (value : Option String) (i : Ihotkey) : Option Ihotkey :=
  match field with
  | "key" => some { i with key := value }
  | "cmd" => some { i with cmd := value }
  | _ => none

def Iplugin.set (field : String) (value : Option String) (i : Iplugin) : Option Iplugin :=
  match field with
  | "name" => some { i with name := value }
  | "id" => some { i with id := value }
  | "file" => some { i with file := value }
  | "conf" => some { i with conf := value }
  | _ => none

def IentryData.set (field : String) (value : Option String) (i : IentryData) : Option IentryData :=
  match field with
  | "name" => some { i with name := value }
  | "help" => some { i with help := value }
  | "container" => some { i with container := value }
  | "mode" => some { i with mode := value }
  | "purpose" => some { i with purpose := value }
  | "min" => some { i with min := value }
  | "max" => some { i with max := value }
  | "ref" => some { i with ref := value }
  | "value" => some { i with value := value }
  | "restore" => some { i with restore := value }
  | "transparent" => some { i with transparent := value }
  | "order" => some { i with order := value }
  | "filter" => some { i with filter := value }
  | _ => none

def Iaction.null : Iaction :=
  ⟨none, none, none, none, none, none, none, none, none, none⟩

def Ihotkey.null : Ihotkey := ⟨none, none⟩

def Iplugin.null : Iplugin := ⟨none, none, none, none⟩

def IentryData.null : IentryData :=
  ⟨none, none, none, none, none, none, none, none, none, none, none, none, none, [], []⟩

/-- An initialiser that has been opened. -/
inductive Frame where
  | scheme (i : Ischeme)
  | entry (i : IentryData) (nested : List Ientry)
  | action (i : Iaction)
  | hotkey (i : Ihotkey)
  | plugin (i : Iplugin)
  | entrys (list : List Ientry)
  | actions (list : List Iaction)
  | hotkeys (list : List Ihotkey)
  | plugins (list : List Iplugin)

def Frame.set (field : String) (value : Option String) : Frame → Option Frame
  | .entry i nested => (i.set field value).map (.entry · nested)
  | .action i => (i.set field value).map .action
  | .hotkey i => (i.set field value).map .hotkey
  | .plugin i => (i.set field value).map .plugin
  | _ => none

/-- The macros that end a list are all the same. -/
def endMacros : List String :=
  ["END_ENTRY_LIST", "END_ACTION_LIST", "END_HOTKEY_LIST", "END_PLUGIN_LIST"]

/-- An object of a type is opened in a list of that type. -/
def Frame.openObj (macro' : String) : Frame → Option Frame
  | .entrys _ => if macro' = "ENTRY" then some (.entry .null []) else none
  | .actions _ => if macro' = "ACTION" then some (.action .null) else none
  | .hotkeys _ => if macro' = "HOTKEY" then some (.hotkey .null) else none
  | .plugins _ => if macro' = "PLUGIN" then some (.plugin .null) else none
  | _ => none

/-- The list is a field of the object. -/
def Frame.openList (macro' : String) : Frame → Option Frame
  | .entry _ _ =>
    if macro' = "ENTRY_LIST" then some (.entrys [])
    else if macro' = "ACTION_LIST" then some (.actions [])
    else if macro' = "HOTKEY_LIST" then some (.hotkeys [])
    else none
  | .scheme _ =>
    if macro' = "ENTRY_LIST" then some (.entrys [])
    else if macro' = "PLUGIN_LIST" then some (.plugins [])
    else none
  | _ => none

/-- The first frame is closed and belongs to the second one. -/
def Frame.close : Frame → Frame → Option Frame
  | .entry i nested, .entrys list => some (.entrys (list ++ [.node i nested]))
  | .action i, .actions list => some (.actions (list ++ [i]))
  | .hotkey i, .hotkeys list => some (.hotkeys (list ++ [i]))
  | .plugin i, .plugins list => some (.plugins (list ++ [i]))
  | .entrys list, .entry i _ => some (.entry i list)
  | .actions list, .entry i nested => some (.entry { i with actions := list } nested)
  | .hotkeys list, .entry i nested => some (.entry { i with hotkeys := list } nested)
  | .entrys list, .scheme i => some (.scheme { i with entrys := list })
  | .plugins list, .scheme i => some (.scheme { i with plugins := list })
  | _, _ => none

def Frame.isList : Frame → Bool
  | .entrys _ | .actions _ | .hotkeys _ | .plugins _ => true
  | _ => false

/-- One token of the declaration, with the initialisers that are open, the innermost one first. -/
def readToken (frames : List Frame) (token : Token) : Option (List Frame) :=
  match token, frames with
  | .openObj macro', frame :: frames => (frame.openObj macro').map (· :: frame :: frames)
  | .openList macro', frame :: frames => (frame.openList macro').map (· :: frame :: frames)
  | .attr field value, frame :: frames => (frame.set field (some value)).map (· :: frames)
  | .closeObj, frame :: frame' :: frames =>
    if frame.isList then none else (frame.close frame').map (· :: frames)
  | .closeList macro', frame :: frame' :: frames =>
    if frame.isList && endMacros.contains macro' then (frame.close frame').map (· :: frames)
    else none
  | _, _ => none

/-- The tokens inside the outermost initialiser. -/
def readTokens (tokens : List Token) (frames : List Frame) : Option (List Frame) :=
  tokens.foldlM readToken frames

/-- The declaration is read as the `ischeme_t` it denotes. -/
def readScheme (tokens : List Token) : Option Ischeme :=
  match tokens with
  | .openScheme :: tokens =>
    match tokens.getLast? with
    | some .closeScheme =>
      match readTokens tokens.dropLast [.scheme ⟨[], []⟩] with
      | some [.scheme i] => some i
      | _ => none
    | _ => none
  | _ => none

end Reading

end Klish
