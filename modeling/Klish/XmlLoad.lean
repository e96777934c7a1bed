import Klish.IschemeDeploy
import Klish.Kscheme

/-!
# Loading a scheme from XML

A document is processed element by element, in its order, and the first error ends it. An element
gets the object that its parent element has made. The object comes without its type, the handlers
tell its type from the tag of the parent element: `none` stands for an object that is taken for one
of another type.
-/

namespace Klish

/-- `kxml_nodetype_e` -/
inductive KxmlNodeType where
  | doc | elm | text | attr | comment | pi | decl | unknown
  deriving DecidableEq, Repr

/-- A node as the XML engines show it, without the nested ones. -/
structure KxmlNodeData where
  type : KxmlNodeType
  name : Option String
  attr : String → Option String
  content : Option String

abbrev KxmlNode := Rose KxmlNodeData

/-- `ktags_e` -/
inductive Ktag where
  | none | action | param | switch | seq | command | filter | view | ptype | plugin | klish | entry
  | cond | compl | help | prompt | log | hotkey
  deriving DecidableEq, Repr

/-- `kxml_tags` -/
def Ktag.spellings : List (String × Ktag) :=
  [("ACTION", .action), ("PARAM", .param), ("SWITCH", .switch), ("SEQ", .seq),
    ("COMMAND", .command), ("FILTER", .filter), ("VIEW", .view), ("PTYPE", .ptype),
    ("PLUGIN", .plugin), ("KLISH", .klish), ("ENTRY", .entry), ("COND", .cond), ("COMPL", .compl),
    ("HELP", .help), ("PROMPT", .prompt), ("LOG", .log), ("HOTKEY", .hotkey)]

/-- `kxml_tag_name` -/
def Ktag.name (tag : Ktag) : String := (toText spellings tag).getD "NONE"

/-- `kxml_node_tag` -/
def kxmlNodeTag (node : KxmlNodeData) : Ktag :=
  if node.type = .elm then (node.name.bind (ofText Ktag.spellings)).getD .none else .none

/-- The object that the nested elements get. -/
inductive KxmlParent where
  | scheme (kscheme : KschemeTree)
  | entry (kentry : KentryTree)
  | action (kaction : KactionDecl)
  | plugin (kplugin : KpluginDecl)

/-- The nested elements of an element, with the object that they get. -/
abbrev KxmlChildren := KxmlParent → List String → Option (Parsed KxmlParent)

/-- An error ends the processing. -/
def xmlError {α : Type} (obj : α) (error : List String) (msg : String) : Option (Parsed α) :=
  some ⟨false, obj, error ++ ["XML: " ++ msg]⟩

variable (conv : FauxConv)

/-- The ENTRY of `add_entry_to_hierarchy` in the list of its parent: one of the name is parsed into,
or a new one is added. Its place is returned, unless there is an error. -/
def addEntry (info : IentryData) (list : List KentryTree) (error : List String) :
    Option ℕ × List KentryTree × List String :=
  match list.findIdx? fun t => some t.name == info.name with
  | some i =>
    match list[i]? with
    | none => (none, list, error)
    | some (.node k nested) =>
      let p := ientryParse conv info k.entry error
      (if p.ok then some i else none, list.set i (.node { k with entry := p.obj } nested), p.error)
  | none =>
    match ientryLoad conv (.node info []) error with
    | (none, error) => (none, list, error)
    | (some t, error) =>
      match addUnique KentryTree.name t list with
      | none => (none, list, error ++
          ["XML: Can't add entry \"" ++ t.name ++ "\". Probably duplication"])
      | some list' => (some list.length, list', error)

/-- The ENTRY of an element and its nested elements. What `opened` and `closed` add to the ENTRY
is added before and after them. -/
def processIn (info : IentryData) (opened closed : KentryTree → KentryTree) (children : KxmlChildren)
    (list : List KentryTree) (error : List String) : Option (Parsed (List KentryTree)) :=
  match addEntry conv info list error with
  | (none, list, error) => some ⟨false, list, error⟩
  | (some i, list, error) =>
    list[i]?.bind fun t => (children (.entry (opened t)) error).bind fun r =>
      match r.obj with
      | .entry t => some ⟨r.ok, list.set i (if r.ok then closed t else t), r.error⟩
      | _ => none

/-- `add_entry_to_hierarchy`, with the rest of the handlers that call it. -/
def processInHierarchy (tag parentTag : Ktag) (info : IentryData)
    (opened closed : KentryTree → KentryTree) (children : KxmlChildren) (parent : KxmlParent)
    (error : List String) : Option (Parsed KxmlParent) :=
  if parentTag = .action ∨ parentTag = .plugin then
    xmlError parent error ("Tag \"" ++ parentTag.name ++ "\" can't contain " ++ tag.name ++
      " tag \"" ++ Kscheme.printed info.name ++ "\"")
  else if parentTag = .klish then
    match parent with
    | .scheme s => (processIn conv info opened closed children s.entrys error).map fun r =>
        ⟨r.ok, .scheme { s with entrys := r.obj }, r.error⟩
    | _ => none
  else
    match parent with
    | .entry (.node k nested) => (processIn conv info opened closed children nested error).map fun r =>
        ⟨r.ok, .entry (.node k r.obj), r.error⟩
    | _ => none

/-- `kentry_add_entrys`, where its result is not looked at. -/
def KentryTree.addNested : KentryTree → KentryTree → KentryTree
  | .node k nested, n => .node k ((addUnique KentryTree.name n nested).getD nested)

/-- An ENTRY that the loader makes by itself, with the symbol of its ACTION. -/
def serviceEntry (name : String) (purpose : KentryPurpose) (sym : String)
    (nested : List KentryTree) : KentryTree :=
  .node ⟨{ Kentry.new name 0 with purpose := purpose },
    [{ KactionDecl.new with symRef := some sym, permanent := .yes }], []⟩ nested

/-- `create_ptype` -/
def createPtype (ptype compl help ref : Option String) : Option KentryTree :=
  match ref, ptype with
  | some ref, _ => some (.node
      { KentryData.new "__ptype" with
        entry := { Kentry.new "__ptype" 0 with purpose := .ptype, refStr := some ref } } [])
  | none, none => none
  | none, some ptype => some (serviceEntry "__ptype" .ptype ptype
      ((compl.map fun sym => serviceEntry "__compl" .completion sym []).toList ++
        (help.map fun sym => serviceEntry "__help" .help sym []).toList))

/-- The PTYPE that the attribute of a PARAM names. -/
def addParamPtype (node : KxmlNodeData) (t : KentryTree) : KentryTree :=
  match createPtype none none none (node.attr "ptype") with
  | none => t
  | some ptype => t.addNested ptype

/-- The PTYPE of a COMMAND that has none. -/
def addCommandPtype (t : KentryTree) : KentryTree :=
  if t.children.any fun n => n.label.entry.purpose = .ptype then t
  else
    match createPtype (some "COMMAND@klish") (some "completion_COMMAND@klish")
      (some "help_COMMAND@klish") none with
    | none => t
    | some ptype => t.addNested ptype

section Attributes

variable (node : KxmlNodeData) (tag : Ktag)

/-- The attributes of `process_entry` -/
def entryInfo : Except String IentryData :=
  match node.attr "name" with
  | none => .error "entry without name"
  | some name => .ok { IentryData.null with
      name := some name
      help := node.attr "help"
      container := node.attr "container"
      mode := node.attr "mode"
      purpose := node.attr "purpose"
      min := node.attr "min"
      max := node.attr "max"
      ref := node.attr "ref"
      value := node.attr "value"
      restore := node.attr "restore"
      transparent := node.attr "transparent"
      order := node.attr "order"
      filter := node.attr "filter" }

/-- The attributes of `process_view` -/
def viewInfo : Except String IentryData :=
  match node.attr "name" with
  | none => .error "VIEW without name"
  | some name => .ok { IentryData.null with
      name := some name
      help := node.attr "help"
      container := "true"
      mode := "switch"
      purpose := "common"
      min := "1"
      max := "1"
      ref := node.attr "ref"
      restore := "false"
      transparent := node.attr "transparent"
      order := "false"
      filter := "false" }

/-- The attributes of `process_ptype` -/
def ptypeInfo : Except String IentryData :=
  match node.attr "name", node.attr "ref" with
  | none, none => .error "PTYPE without name or reference"
  | name, ref => .ok { IentryData.null with
      name := some (name.getD "__ptype")
      help := node.attr "help"
      container := "true"
      mode := "sequence"
      purpose := "ptype"
      min := "1"
      max := "1"
      ref := ref
      value := node.attr "value"
      restore := "false"
      transparent := "true"
      order := "true"
      filter := "false" }

/-- The mode in `process_param` -/
def paramMode : Option String :=
  match tag with
  | .param => node.attr "mode"
  | .switch => "switch"
  | .seq => "sequence"
  | _ => "empty"

/-- The attributes of `process_param` -/
def paramInfo : Except String IentryData :=
  match node.attr "name" with
  | none => .error "PARAM without name"
  | some name => .ok { IentryData.null with
      name := some name
      help := node.attr "help"
      container := if tag = .param then "false" else "true"
      mode := paramMode node tag
      purpose := "common"
      min := node.attr "min"
      max := node.attr "max"
      ref := node.attr "ref"
      value := node.attr "value"
      restore := "false"
      transparent := "true"
      order := node.attr "order"
      filter := "false" }

/-- The name in `process_command` -/
def commandName : Except String String :=
  match node.attr "name", tag with
  | some name, _ => .ok name
  | none, .command => .error "COMMAND without name"
  | none, .filter => .error "COMMAND without name"
  | none, .cond => .ok "__cond"
  | none, .compl => .ok "__compl"
  | none, .help => .ok "__help"
  | none, .prompt => .ok "__prompt"
  | none, .log => .ok "__log"
  | none, _ => .error "Unknown tag"

/-- The purpose in `process_command` -/
def commandPurpose : String :=
  match tag with
  | .cond => "cond"
  | .compl => "completion"
  | .help => "help"
  | .prompt => "prompt"
  | .log => "log"
  | _ => "common"

/-- The attributes of `process_command` -/
def commandInfo : Except String IentryData :=
  (commandName node tag).map fun name =>
    let isCommand := tag = .filter ∨ tag = .command
    { IentryData.null with
      name := some name
      help := node.attr "help"
      container := "false"
      mode := node.attr "mode"
      purpose := commandPurpose tag
      min := node.attr "min"
      max := node.attr "max"
      ref := node.attr "ref"
      value := if isCommand then node.attr "value" else none
      restore := if isCommand then node.attr "restore" else some "false"
      transparent := "true"
      order := "false"
      filter := (node.attr "filter").or (if tag = .filter then some "true" else some "false") }

end Attributes

section Handlers

variable (node : KxmlNodeData) (tag parentTag : Ktag) (children : KxmlChildren)
  (parent : KxmlParent) (error : List String)

/-- The handlers of the elements that are ENTRYs. -/
def processEntryLike (info : Except String IentryData) (opened closed : KentryTree → KentryTree) :
    Option (Parsed KxmlParent) :=
  match info with
  | .error msg => xmlError parent error msg
  | .ok info => processInHierarchy conv tag parentTag info opened closed children parent error

/-- `process_entry` -/
def processEntry : Option (Parsed KxmlParent) :=
  processEntryLike conv tag parentTag children parent error (entryInfo node) id id

/-- `process_view` -/
def processView : Option (Parsed KxmlParent) :=
  processEntryLike conv tag parentTag children parent error (viewInfo node) id id

/-- `process_ptype` -/
def processPtype : Option (Parsed KxmlParent) :=
  processEntryLike conv tag parentTag children parent error (ptypeInfo node) id id

/-- `process_param` -/
def processParam : Option (Parsed KxmlParent) :=
  processEntryLike conv tag parentTag children parent error (paramInfo node tag) (addParamPtype node) id

/-- `process_command` -/
def processCommand : Option (Parsed KxmlParent) :=
  processEntryLike conv tag parentTag children parent error (commandInfo node tag) id addCommandPtype

/-- `process_plugin`. No element changes the PLUGIN that it is nested in. -/
def processPlugin : Option (Parsed KxmlParent) :=
  if parentTag ≠ .klish then
    xmlError parent error ("Tag \"" ++ parentTag.name ++ "\" can't contain PLUGIN tag")
  else
    match ipluginLoad ⟨node.attr "name", node.attr "id", node.attr "file", node.content⟩ error with
    | (none, error) => some ⟨false, parent, error⟩
    | (some plugin, error) =>
      match parent with
      | .scheme s =>
        match addSortedUnique (fun k => k.name) plugin s.plugins with
        | none => xmlError parent error ("Can't add PLUGIN \"" ++ plugin.name ++
            "\". Probably duplication")
        | some plugins => (children (.plugin plugin) error).map fun r =>
            ⟨r.ok, .scheme { s with plugins }, r.error⟩
      | _ => none

/-- The tags whose elements may have ACTIONs. -/
def Ktag.mayAct : Ktag → Bool
  | .entry | .command | .filter | .param | .cond | .compl | .help | .prompt | .log | .ptype => true
  | _ => false

def actionInfo : Iaction where
  sym := node.attr "sym"
  lock := node.attr "lock"
  interrupt := node.attr "interrupt"
  inp := node.attr "in"
  out := node.attr "out"
  execOn := node.attr "exec_on"
  updateRetcode := node.attr "update_retcode"
  permanent := node.attr "permanent"
  sync := node.attr "sync"
  script := node.content

/-- `process_action`. No element changes the ACTION that it is nested in. -/
def processAction : Option (Parsed KxmlParent) :=
  match iactionLoad conv (actionInfo node) error with
  | (none, error) => some ⟨false, parent, error⟩
  | (some action, error) =>
    if parentTag.mayAct then
      match parent with
      | .entry (.node k nested) =>
        match addLast action k.actions with
        | none => xmlError parent error ("Can't add ACTION #" ++ toString (k.actions.length + 1) ++
            " to ENTRY \"" ++ k.entry.name ++ "\". Probably duplication")
        | some actions => (children (.action action) error).map fun r =>
            ⟨r.ok, .entry (.node { k with actions } nested), r.error⟩
      | _ => none
    else xmlError parent error ("Tag \"" ++ parentTag.name ++ "\" can't contain ACTION tag")

/-- `process_hotkey` -/
def processHotkey : Option (Parsed KxmlParent) :=
  match node.attr "key", node.attr "cmd" with
  | none, _ => xmlError parent error "hotkey without \"key\" attribute"
  | some _, none => xmlError parent error "hotkey without \"cmd\" attribute"
  | some key, some cmd =>
    match ihotkeyLoad ⟨some key, some cmd⟩ error with
    | (none, error) => some ⟨false, parent, error⟩
    | (some hotkey, error) =>
      if parentTag = .entry ∨ parentTag = .view then
        match parent with
        | .entry (.node k nested) =>
          match addUnique Khotkey.key hotkey k.hotkeys with
          | none => xmlError parent error ("Can't add HOTKEY \"" ++ hotkey.key ++ "\" to ENTRY \"" ++
              k.entry.name ++ "\". Probably duplication")
          | some hotkeys => some ⟨true, .entry (.node { k with hotkeys } nested), error⟩
        | _ => none
      else xmlError parent error ("Tag \"" ++ parentTag.name ++ "\" can't contain HOTKEY tag")

/-- `process_node`, with the table of handlers `kxml_handlers`. -/
def processElement : Option (Parsed KxmlParent) :=
  -- Only elements are processed.
  if node.type ≠ .elm then some ⟨true, parent, error⟩
  else
    match tag with
    | .none => xmlError parent error ("Unknown tag \"" ++ Kscheme.printed node.name ++ "\"")
    | .action => processAction conv node parentTag children parent error
    | .param | .switch | .seq => processParam conv node tag parentTag children parent error
    | .command | .filter | .cond | .compl | .help | .prompt | .log =>
      processCommand conv node tag parentTag children parent error
    | .view => processView conv node tag parentTag children parent error
    | .ptype => processPtype conv node tag parentTag children parent error
    | .plugin => processPlugin node parentTag children parent error
    -- `process_klish`
    | .klish => children parent error
    | .entry => processEntry conv node tag parentTag children parent error
    | .hotkey => processHotkey node parentTag parent error

end Handlers

mutual

/-- `process_node`, with the tag of the parent node. -/
def processNode : KxmlNode → Ktag → KxmlParent → List String → Option (Parsed KxmlParent)
  | .node node children, parentTag, parent, error =>
    processElement conv node (kxmlNodeTag node) parentTag
      (processChildren children (kxmlNodeTag node)) parent error

/-- `process_children` -/
def processChildren : List KxmlNode → Ktag → KxmlParent → List String → Option (Parsed KxmlParent)
  | [], _, parent, error => some ⟨true, parent, error⟩
  | node :: nodes, tag, parent, error =>
    (processNode node tag parent error).bind fun r =>
      if r.ok then processChildren nodes tag r.obj r.error else some r

end

/-- The files as the loader sees them. -/
structure KxmlFiles where
  expandTilde : String → String
  isfile : String → Bool
  /-- The names in a directory in the order of `readdir`. -/
  readdir : String → Option (List String)
  /-- The root of the document in a file, if the XML engine can read it. -/
  docRead : String → Option KxmlNode

/-- `kxml_load_file` -/
def kxmlLoadFile (files : KxmlFiles) (s : KschemeTree) (filename : String) (error : List String) :
    Option (Parsed KschemeTree) :=
  match files.docRead filename with
  | none => some ⟨false, s, error⟩
  | some root =>
    (processNode conv root .none (.scheme s) error).bind fun r =>
      match r.obj with
      | .scheme s => some ⟨r.ok, s, if r.ok then r.error
          else r.error ++ ["XML: Illegal file " ++ filename]⟩
      | _ => none

/-- The name ends with its last dot and `xml`. -/
def hasXmlExtension (name : String) : Bool :=
  name.toList.contains '.' && name.toList.reverse.takeWhile (· ≠ '.') == "xml".toList.reverse

/-- The tokens between any of the separators. -/
def strtokAny (separators : List Char) (s : String) : List String :=
  ((s.toList.splitOnP separators.contains).filter fun token => !token.isEmpty).map String.ofList

def kxmlDefaultPath : String := "/etc/klish;~/.klish"

/-- The files of one part of the path, in the order of the loader. -/
def kxmlFilesAt (files : KxmlFiles) (fn : String) : List String :=
  let realpath := files.expandTilde fn
  if files.isfile realpath then [realpath]
  else (((files.readdir realpath).getD []).filter hasXmlExtension).map fun name =>
    realpath ++ "/" ++ name

/-- The loop over the files. An error does not end it. -/
def kxmlLoadFiles (files : KxmlFiles) : List String → Parsed KschemeTree → Option (Parsed KschemeTree)
  | [], r => some r
  | filename :: filenames, r =>
    (kxmlLoadFile conv files r.obj filename r.error).bind fun r' =>
      kxmlLoadFiles files filenames ⟨r.ok && r'.ok, r'.obj, r'.error⟩

/-- `kxml_load_scheme` -/
def kxmlLoadScheme (files : KxmlFiles) (s : KschemeTree) (xmlPath : Option String)
    (error : List String) : Option (Parsed KschemeTree) :=
  kxmlLoadFiles conv files
    ((strtokAny [':', ';'] (xmlPath.getD kxmlDefaultPath)).flatMap (kxmlFilesAt files)) ⟨true, s, error⟩

end Klish
