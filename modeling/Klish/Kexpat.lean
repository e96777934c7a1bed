import Klish.IschemeRoundTrip
import Klish.Lib.LinkedTrees
import Klish.XmlLoad

/-!
# The XML engine over expat

The parser calls a handler for each tag and for each piece of text, the handlers build the tree of
the document in memory. The text between two tags comes in pieces, as the parser has it in its
buffer, and each piece is a node of its own. The loader gets the same scheme from any pieces.
-/

namespace Klish

open LinkedTrees (Cell Open read siblings pushBack start current layout close first)
open TreeAddresses (forestSize Holds)

/-- `kxml_node_s` without the links in the tree. The attributes are nodes too, in memory of their
own. -/
structure KexpatData where
  type : KxmlNodeType
  name : Option String
  attributes : Option ℕ
  content : Option String

abbrev KexpatNode := Cell KexpatData

/-- `kxml_doc_s` with the nodes in memory: those of the tree, and those of attributes. -/
structure KexpatDoc where
  nodes : List KexpatNode
  attributes : List KexpatNode
  root : Option ℕ
  current : Option ℕ

/-- The calls of the parser. -/
inductive XmlEvent where
  | elementStart (el : String) (attr : List (String × String))
  | elementEnd
  | chardata (s : String)

def attrData (a : String × String) : KexpatData := ⟨.attr, some a.1, none, some a.2⟩

/-- `kexpat_add_attr` -/
def kexpatAddAttr (attributes : List KexpatNode) (first : Option ℕ) (a : String × String) :
    List KexpatNode × Option ℕ :=
  pushBack (attributes ++ [⟨attrData a, none, none, none⟩]) first attributes.length

/-- `kexpat_add_attrlist` of a new node -/
def kexpatAddAttrlist (attributes : List KexpatNode) (attr : List (String × String)) :
    List KexpatNode × Option ℕ :=
  attr.foldl (fun r a => kexpatAddAttr r.1 r.2 a) (attributes, none)

/-- A new node, the last in memory and in the list of its parent. -/
def addNode (nodes : List KexpatNode) (parent : Option ℕ) (data : KexpatData) : List KexpatNode :=
  let node := nodes.length
  let nodes := nodes ++ [⟨data, parent, none, none⟩]
  match parent with
  | none => nodes
  | some p =>
    match nodes[p]? with
    | none => nodes
    | some cell =>
      let (nodes, children) := pushBack nodes cell.children node
      nodes.modify p fun cell => { cell with children := children }

/-- `kexpat_make_node` -/
def kexpatMakeNode (doc : KexpatDoc) (parent : Option ℕ) (type : KxmlNodeType)
    (n v : Option String) (attr : List (String × String)) : KexpatDoc :=
  let (attributes, first) := kexpatAddAttrlist doc.attributes attr
  { doc with nodes := addNode doc.nodes parent ⟨type, n, first, v⟩, attributes := attributes }

/-- `kexpat_element_start`, with `kexpat_add_root` and `kexpat_add_child`. -/
def kexpatElementStart (doc : KexpatDoc) (el : String) (attr : List (String × String)) : KexpatDoc :=
  let node := doc.nodes.length
  let made := kexpatMakeNode doc doc.current .elm (some el) none attr
  match doc.current with
  | none =>
    let (nodes, root) := pushBack made.nodes made.root node
    { made with nodes := nodes, root := root, current := some node }
  | some _ => { made with current := some node }

/-- `kexpat_element_end` -/
def kexpatElementEnd (doc : KexpatDoc) : KexpatDoc :=
  match doc.current with
  | none => doc
  | some cur => { doc with current := doc.nodes[cur]?.bind fun cell => cell.parent }

/-- `kexpat_chardata_handler` -/
def kexpatChardataHandler (doc : KexpatDoc) (s : String) : KexpatDoc :=
  match doc.current with
  | none => doc
  | some cur => kexpatMakeNode doc (some cur) .text none (some s) []

def KexpatDoc.handle (doc : KexpatDoc) : XmlEvent → KexpatDoc
  | .elementStart el attr => kexpatElementStart doc el attr
  | .elementEnd => kexpatElementEnd doc
  | .chardata s => kexpatChardataHandler doc s

def KexpatDoc.empty : KexpatDoc := ⟨[], [], none, none⟩

/-- `kxml_doc_read` of a file that the parser makes the calls for, and that it accepts or not.
There are no calls when the file can't be read. -/
def kxmlDocRead (file : Option (List XmlEvent × Bool)) : Option KexpatDoc :=
  match file with
  | some (events, true) => some (events.foldl KexpatDoc.handle .empty)
  | some (_, false) => none
  | none => none

/-- `kxml_node_parent` -/
def kxmlNodeParent (doc : KexpatDoc) (node : ℕ) : Option ℕ :=
  doc.nodes[node]?.bind fun cell => cell.parent

/-- The nodes that `kxml_node_next_child` goes over: from the root, or those in a node. -/
def kxmlNodeChildren (doc : KexpatDoc) (parent : Option ℕ) : List ℕ :=
  siblings doc.nodes (doc.nodes.length + 1) (match parent with
    | none => doc.root
    | some p => doc.nodes[p]?.bind fun cell => cell.children)

/-- `kxml_node_attr` -/
def kxmlNodeAttr (attributes : List KexpatNode) (node : KexpatData) (attrname : String) :
    Option String :=
  ((read attributes (attributes.length + 1) node.attributes).find? fun n =>
    n.label.name == some attrname).bind fun n => n.label.content

/-- The step of `kxml_node_content` for one of the children, with `faux_str_cat`. -/
def catContent (content : Option String) (child : Rose KexpatData) : Option String :=
  match child.label.type, child.label.content with
  | .text, some s => some (content.getD "" ++ s)
  | _, _ => content

/-- `kxml_node_content` of a node with the children. -/
def kxmlNodeContent (children : List (Rose KexpatData)) : Option String :=
  children.foldl catContent none

mutual

/-- A node as the functions on nodes show it. -/
def kxmlNode (attributes : List KexpatNode) : Rose KexpatData → KxmlNode
  | .node a cs => .node ⟨a.type, a.name, kxmlNodeAttr attributes a, kxmlNodeContent cs⟩
      (kxmlNodes attributes cs)

def kxmlNodes (attributes : List KexpatNode) : List (Rose KexpatData) → List KxmlNode
  | [] => []
  | t :: ts => kxmlNode attributes t :: kxmlNodes attributes ts

end

/-- The root of a document and the nodes that `kxml_node_next_child` goes over from it. -/
def kxmlDocRoot (doc : KexpatDoc) : Option KxmlNode :=
  (kxmlNodes doc.attributes (read doc.nodes (doc.nodes.length + 1) doc.root)).head?

/-- The loader's files through the engine. -/
def kexpatFiles (files : KxmlFiles) (parse : String → Option (List XmlEvent × Bool)) : KxmlFiles :=
  { files with docRead := fun filename => (kxmlDocRead (parse filename)).bind kxmlDocRoot }

section Attributes

/-- The nodes of attributes, as trees with nothing in them. -/
def attrLeaves (attr : List (String × String)) : List (Rose KexpatData) :=
  attr.map fun a => .node (attrData a) []

@[simp] theorem forestSize_attrLeaves (attr : List (String × String)) :
    forestSize (attrLeaves attr) = attr.length := by
  induction attr with
  | nil => rfl
  | cons a attr ih =>
    rw [attrLeaves, List.map_cons, TreeAddresses.forestSize_cons, TreeAddresses.size_node,
      List.length_cons, Nat.add_comm]
    exact congrArg (· + 1) ih

/-- The list of the attributes, with its nodes from `base` on. -/
structure AttrsAt (attributes : List KexpatNode) (base : ℕ) (head : Option ℕ)
    (attr : List (String × String)) : Prop where
  first : head = first base none (attrLeaves attr)
  holds : Holds attributes base (LinkedTrees.forest none base none (attrLeaves attr))

variable {attributes : List KexpatNode} {base : ℕ} {head : Option ℕ} {attr : List (String × String)}

theorem AttrsAt.append (h : AttrsAt attributes base head attr) (more : List KexpatNode) :
    AttrsAt (attributes ++ more) base head attr := ⟨h.first, h.holds.append more⟩

theorem kexpatAddAttr_leaves (before : List KexpatNode) (attr : List (String × String))
    (a : String × String) :
    kexpatAddAttr (before ++ LinkedTrees.forest none before.length none (attrLeaves attr))
        (first before.length none (attrLeaves attr)) a =
      (before ++ LinkedTrees.forest none before.length none (attrLeaves (attr ++ [a])),
        first before.length none (attrLeaves (attr ++ [a]))) := by
  have hleaves : attrLeaves (attr ++ [a]) = attrLeaves attr ++ [.node (attrData a) []] :=
    List.map_append
  rw [kexpatAddAttr, LinkedTrees.pushBack_forest before _ none (attrLeaves attr) _
    (List.cons_ne_nil _ _), hleaves]
  simp [LinkedTrees.forest_append, LinkedTrees.forest, LinkedTrees.tree]

/-- The nodes of the attributes are the last in memory, in their order. -/
theorem kexpatAddAttrlist_eq (before : List KexpatNode) (attr : List (String × String)) :
    kexpatAddAttrlist before attr =
      (before ++ LinkedTrees.forest none before.length none (attrLeaves attr),
        first before.length none (attrLeaves attr)) := by
  have hfold : ∀ attr₀, attr.foldl (fun r a => kexpatAddAttr r.1 r.2 a)
      (before ++ LinkedTrees.forest none before.length none (attrLeaves attr₀),
        first before.length none (attrLeaves attr₀)) =
      (before ++ LinkedTrees.forest none before.length none (attrLeaves (attr₀ ++ attr)),
        first before.length none (attrLeaves (attr₀ ++ attr))) := by
    induction attr with
    | nil => simp
    | cons a attr ih =>
      intro attr₀
      rw [List.foldl_cons, kexpatAddAttr_leaves, ih, List.append_assoc, List.singleton_append]
  simpa [kexpatAddAttrlist, attrLeaves] using hfold []

theorem kexpatAddAttrlist_at (before : List KexpatNode) (attr : List (String × String)) :
    AttrsAt (kexpatAddAttrlist before attr).1 before.length (kexpatAddAttrlist before attr).2
      attr := by
  rw [kexpatAddAttrlist_eq]
  refine ⟨rfl, ?_⟩
  have hholds := TreeAddresses.holds_middle before
    (LinkedTrees.forest none before.length none (attrLeaves attr)) []
  rwa [List.append_nil] at hholds

/-- An attribute has the value that comes first with its name. -/
theorem AttrsAt.nodeAttr (h : AttrsAt attributes base head attr) {data : KexpatData}
    (hdata : data.attributes = head) (attrname : String) : kxmlNodeAttr attributes data attrname =
      (attr.find? fun a => a.1 == attrname).map fun a => a.2 := by
  have hlength := h.holds.length_le
  rw [LinkedTrees.length_forest] at hlength
  rw [kxmlNodeAttr, hdata, h.first, LinkedTrees.read_forest h.holds (by omega)]
  clear h hlength
  induction attr with
  | nil => rfl
  | cons a attr ih =>
    rw [attrLeaves, List.map_cons, List.find?_cons, List.find?_cons]
    have hname : ((Rose.node (attrData a) []).label.name == some attrname) = (a.1 == attrname) := by
      simp [attrData]
    rw [hname]
    cases a.1 == attrname
    · exact ih
    · rfl

end Attributes

section Memory

/-- The document with the open elements and the nodes in the innermost one. -/
def documentAt (attributes : List KexpatNode) (os : Open KexpatData)
    (ts : List (Rose KexpatData)) : KexpatDoc :=
  ⟨layout os ts, attributes, first 0 none (close os ts), current os⟩

variable (attributes : List KexpatNode) (os : Open KexpatData) (ts : List (Rose KexpatData))

theorem addNode_child (o : KexpatData × List (Rose KexpatData)) (data : KexpatData) :
    addNode (layout (o :: os) ts) (current (o :: os)) data = layout ((data, ts) :: o :: os) [] := by
  obtain ⟨a, before⟩ := o
  have hpush := LinkedTrees.pushBack_layout ((a, before) :: os) ts
    ⟨data, some (start os + forestSize before), none, none⟩
  simp only [addNode, current]
  rw [LinkedTrees.getElem?_layout]
  dsimp only
  rw [hpush, List.append_assoc, LinkedTrees.modify_spine, LinkedTrees.layout_open]
  simp [current]

/-- The element opens. -/
theorem kexpatElementStart_at (el : String) (attr : List (String × String)) :
    kexpatElementStart (documentAt attributes os ts) el attr =
      documentAt (kexpatAddAttrlist attributes attr).1
        ((⟨.elm, some el, (kexpatAddAttrlist attributes attr).2, none⟩, ts) :: os) [] := by
  cases os with
  | nil =>
    have hpush := LinkedTrees.pushBack_layout [] ts (⟨⟨.elm, some el,
      (kexpatAddAttrlist attributes attr).2, none⟩, none, none, none⟩ : KexpatNode)
    have hroot : first 0 none (close [] ts) = first (start ([] : Open KexpatData)) none ts := rfl
    simp only [kexpatElementStart, documentAt, current, kexpatMakeNode, addNode, hroot, hpush]
    rw [LinkedTrees.first_close, LinkedTrees.layout_open, LinkedTrees.length_layout]
    simp [LinkedTrees.spine, start, current]
  | cons o os =>
    obtain ⟨a, before⟩ := o
    have hchild := addNode_child os ts (a, before)
      ⟨.elm, some el, (kexpatAddAttrlist attributes attr).2, none⟩
    simp only [current] at hchild
    simp only [kexpatElementStart, documentAt, current, kexpatMakeNode, hchild,
      LinkedTrees.first_close, LinkedTrees.length_layout]

theorem kexpatElementEnd_at (o : KexpatData × List (Rose KexpatData)) :
    kexpatElementEnd (documentAt attributes (o :: os) ts) =
      documentAt attributes os (o.2 ++ [.node o.1 ts]) := by
  obtain ⟨a, before⟩ := o
  have hcell := LinkedTrees.getElem?_layout a before os ts []
  rw [List.append_nil] at hcell
  simp only [kexpatElementEnd, documentAt, LinkedTrees.current_cons, hcell, Option.bind_some]
  rw [LinkedTrees.layout_close, close]

/-- A piece of text. -/
def textNode (s : String) : Rose KexpatData := .node ⟨.text, none, none, some s⟩ []

theorem kexpatChardataHandler_at (o : KexpatData × List (Rose KexpatData)) (s : String) :
    kexpatChardataHandler (documentAt attributes (o :: os) ts) s =
      documentAt attributes (o :: os) (ts ++ [textNode s]) := by
  obtain ⟨a, before⟩ := o
  have hchild := addNode_child os ts (a, before) ⟨.text, none, none, some s⟩
  have hnone : kexpatAddAttrlist attributes [] = (attributes, none) := rfl
  simp only [current, LinkedTrees.layout_close] at hchild
  simp only [kexpatChardataHandler, documentAt, current, kexpatMakeNode, hnone, hchild,
    LinkedTrees.first_close, LinkedTrees.layout_close]
  rfl

theorem KexpatDoc.handle_at (event : XmlEvent) :
    ∃ attributes' os' ts', (documentAt attributes os ts).handle event =
      documentAt attributes' os' ts' := by
  cases event with
  | elementStart el attr => exact ⟨_, _, _, kexpatElementStart_at attributes os ts el attr⟩
  | elementEnd =>
    cases os with
    | nil => exact ⟨attributes, [], ts, rfl⟩
    | cons o os => exact ⟨_, _, _, kexpatElementEnd_at attributes os ts o⟩
  | chardata s =>
    cases os with
    | nil => exact ⟨attributes, [], ts, rfl⟩
    | cons o os => exact ⟨_, _, _, kexpatChardataHandler_at attributes os ts o s⟩

omit attributes os ts in
theorem documentAt_empty : documentAt [] [] [] = .empty := by
  simp [documentAt, KexpatDoc.empty, layout, LinkedTrees.spine, current, close]

omit attributes os ts in
/-- Whatever calls the parser makes, the nodes in memory are always those of some trees. -/
theorem kexpatDoc_at (events : List XmlEvent) (doc : KexpatDoc)
    (hdoc : ∃ attributes os ts, doc = documentAt attributes os ts) :
    ∃ attributes os ts, events.foldl KexpatDoc.handle doc = documentAt attributes os ts := by
  induction events generalizing doc with
  | nil => exact hdoc
  | cons event events ih =>
    obtain ⟨attributes, os, ts, rfl⟩ := hdoc
    exact ih _ (KexpatDoc.handle_at attributes os ts event)

theorem documentAt_nodes : (documentAt attributes os ts).nodes =
    LinkedTrees.forest none 0 none (close os ts) :=
  LinkedTrees.layout_eq_forest os ts

theorem documentAt_holds : Holds (documentAt attributes os ts).nodes 0
    (LinkedTrees.forest none 0 none (close os ts)) := by
  rw [documentAt_nodes]
  exact TreeAddresses.holds_self _

theorem read_documentAt :
    read (documentAt attributes os ts).nodes ((documentAt attributes os ts).nodes.length + 1)
      (documentAt attributes os ts).root = close os ts := by
  apply LinkedTrees.read_forest (documentAt_holds attributes os ts)
  rw [documentAt_nodes, LinkedTrees.length_forest]
  exact Nat.lt_succ_self _

omit attributes os ts in
/-- The parent of a node is the one that the node is nested in, or there is none. So the tag of the
parent is that of the element which the loader comes from. -/
theorem kxmlNodeParent_children (events : List XmlEvent) (parent : Option ℕ)
    (hparent : ∀ p ∈ parent, p < (events.foldl KexpatDoc.handle .empty).nodes.length) :
    ∀ node ∈ kxmlNodeChildren (events.foldl KexpatDoc.handle .empty) parent,
      kxmlNodeParent (events.foldl KexpatDoc.handle .empty) node = parent := by
  obtain ⟨attributes, os, ts, hdoc⟩ :=
    kexpatDoc_at events .empty ⟨[], [], [], documentAt_empty.symm⟩
  rw [hdoc] at hparent ⊢
  have hholds := documentAt_holds attributes os ts
  have hlength : (documentAt attributes os ts).nodes.length = forestSize (close os ts) := by
    rw [documentAt_nodes, LinkedTrees.length_forest]
  intro node hnode
  unfold kxmlNodeParent
  cases parent with
  | none =>
    have hle := TreeAddresses.length_le_forestSize (close os ts)
    have hroots : kxmlNodeChildren (documentAt attributes os ts) none =
        TreeAddresses.roots 0 (close os ts) := LinkedTrees.siblings_forest hholds (by omega)
    rw [hroots] at hnode
    obtain ⟨cell, hcell, hparent⟩ := LinkedTrees.roots_parent hholds node hnode
    rw [hcell, Option.bind_some, hparent]
  | some p =>
    have hp := hparent p rfl
    have hfuel : forestSize (close os ts) < (documentAt attributes os ts).nodes.length + 1 := by
      omega
    have hin : 0 ≤ p ∧ p < 0 + forestSize (close os ts) := by omega
    obtain ⟨cell, hcell, hnested⟩ := LinkedTrees.nested_parent hholds hin hfuel
    have hchildren : kxmlNodeChildren (documentAt attributes os ts) (some p) =
        siblings (documentAt attributes os ts).nodes
          ((documentAt attributes os ts).nodes.length + 1) cell.children := by
      rw [kxmlNodeChildren, hcell, Option.bind_some]
    rw [hchildren] at hnode
    obtain ⟨cell', hcell', hparent'⟩ := hnested node hnode
    rw [hcell', Option.bind_some, hparent']

end Memory

section Documents

/-- What is in an element. -/
inductive XmlItem where
  | element (name : String) (attr : List (String × String)) (content : List XmlItem)
  | text (s : String)

/-- The parser reports the items, each text in pieces. -/
inductive Reports : List XmlItem → List XmlEvent → Prop
  | nil : Reports [] []
  | element {name attr content items events events'} (hcontent : Reports content events)
      (hitems : Reports items events') :
      Reports (.element name attr content :: items)
        (.elementStart name attr :: events ++ .elementEnd :: events')
  | text {s items events} (pieces : List String) (hs : s ≠ "") (hpieces : String.join pieces = s)
      (hitems : Reports items events) :
      Reports (.text s :: items) (pieces.map .chardata ++ events)

/-- The content that the items give an element. -/
def catItem (content : Option String) : XmlItem → Option String
  | .element _ _ _ => content
  | .text s => some (content.getD "" ++ s)

mutual

/-- The node of an item when each text is one piece. -/
def XmlItem.node : XmlItem → KxmlNode
  | .element name attr content => .node ⟨.elm, some name,
      fun attrname => (attr.find? fun a => a.1 == attrname).map fun a => a.2,
      content.foldl catItem none⟩ (XmlItem.nodes content)
  | .text _ => .node ⟨.text, none, fun _ => none, none⟩ []

def XmlItem.nodes : List XmlItem → List KxmlNode
  | [] => []
  | item :: items => item.node :: XmlItem.nodes items

end

/-- The trees of the items in memory, with each text in pieces. -/
inductive InPieces (attributes : List KexpatNode) : List XmlItem → List (Rose KexpatData) → Prop
  | nil : InPieces attributes [] []
  | element {name attr content items cs ts base head} (hattr : AttrsAt attributes base head attr)
      (hcontent : InPieces attributes content cs) (hitems : InPieces attributes items ts) :
      InPieces attributes (.element name attr content :: items)
        (.node ⟨.elm, some name, head, none⟩ cs :: ts)
  | text {s items ts} (pieces : List String) (hs : s ≠ "") (hpieces : String.join pieces = s)
      (hitems : InPieces attributes items ts) :
      InPieces attributes (.text s :: items) (pieces.map textNode ++ ts)

variable {attributes : List KexpatNode} {items : List XmlItem} {us : List (Rose KexpatData)}

theorem InPieces.append (h : InPieces attributes items us) (more : List KexpatNode) :
    InPieces (attributes ++ more) items us := by
  induction h with
  | nil => exact .nil
  | element hattr _ _ ihcontent ihitems => exact .element (hattr.append more) ihcontent ihitems
  | text pieces hs hpieces _ ihitems => exact .text pieces hs hpieces ihitems

theorem chardata_run (attributes : List KexpatNode) (o : KexpatData × List (Rose KexpatData))
    (os : Open KexpatData) (ts : List (Rose KexpatData)) (pieces : List String) :
    (pieces.map XmlEvent.chardata).foldl KexpatDoc.handle (documentAt attributes (o :: os) ts) =
      documentAt attributes (o :: os) (ts ++ pieces.map textNode) := by
  induction pieces generalizing ts with
  | nil => simp
  | cons s pieces ih =>
    simp only [List.map_cons, List.foldl_cons, KexpatDoc.handle, kexpatChardataHandler_at]
    rw [ih, List.append_assoc]
    rfl

/-- The handlers add what the parser reports to the innermost open element. -/
theorem Reports.run {events : List XmlEvent} (h : Reports items events)
    (attributes : List KexpatNode) : ∃ more us, InPieces (attributes ++ more) items us ∧
      ∀ o os ts, events.foldl KexpatDoc.handle (documentAt attributes (o :: os) ts) =
        documentAt (attributes ++ more) (o :: os) (ts ++ us) := by
  induction h generalizing attributes with
  | nil => exact ⟨[], [], .nil, by simp⟩
  | @element name attr content items events events' _ _ ihcontent ihitems =>
    obtain ⟨made, hmade⟩ : ∃ made, (kexpatAddAttrlist attributes attr).1 = attributes ++ made := by
      rw [kexpatAddAttrlist_eq]
      exact ⟨_, rfl⟩
    have hattr := kexpatAddAttrlist_at attributes attr
    rw [hmade] at hattr
    obtain ⟨more, cs, hcs, hruncontent⟩ := ihcontent (attributes ++ made)
    obtain ⟨more', us, hus, hrunitems⟩ := ihitems (attributes ++ made ++ more)
    refine ⟨made ++ more ++ more', .node ⟨.elm, some name, (kexpatAddAttrlist attributes attr).2,
      none⟩ cs :: us, ?_, fun o os ts => ?_⟩
    · rw [← List.append_assoc, ← List.append_assoc]
      exact .element ((hattr.append more).append more') (hcs.append more') hus
    · rw [List.cons_append, List.foldl_cons, List.foldl_append, KexpatDoc.handle,
        kexpatElementStart_at, hmade, hruncontent, List.foldl_cons, KexpatDoc.handle,
        kexpatElementEnd_at, hrunitems]
      simp only [List.nil_append, List.append_assoc, List.singleton_append]
  | @text s items events pieces hs hpieces _ ihitems =>
    obtain ⟨more, us, hus, hrunitems⟩ := ihitems attributes
    refine ⟨more, _, .text pieces hs hpieces hus, fun o os ts => ?_⟩
    rw [List.foldl_append, chardata_run, hrunitems, List.append_assoc]

/-- The document of one element is read as a tree of the element. -/
theorem kxmlDocRead_tree {name : String} {attr : List (String × String)} {content : List XmlItem}
    {events : List XmlEvent} (h : Reports [.element name attr content] events) :
    ∃ attributes t, InPieces attributes [.element name attr content] [t] ∧
      (kxmlDocRead (some (events, true))).bind kxmlDocRoot = some (kxmlNode attributes t) := by
  cases h with
  | @element _ _ _ _ events events' hcontent hitems =>
    cases hitems
    have hattr := kexpatAddAttrlist_at [] attr
    obtain ⟨more, cs, hcs, hrun⟩ := hcontent.run (kexpatAddAttrlist [] attr).1
    refine ⟨_, _, .element (hattr.append more) hcs .nil, ?_⟩
    have hdoc : (XmlEvent.elementStart name attr :: events ++ [XmlEvent.elementEnd]).foldl
        KexpatDoc.handle .empty = documentAt ((kexpatAddAttrlist [] attr).1 ++ more) []
          [.node ⟨.elm, some name, (kexpatAddAttrlist [] attr).2, none⟩ cs] := by
      rw [← documentAt_empty]
      simp only [List.cons_append, List.foldl_cons, List.foldl_append, KexpatDoc.handle,
        kexpatElementStart_at, hrun, List.nil_append, kexpatElementEnd_at, List.foldl_nil]
    have hread := read_documentAt ((kexpatAddAttrlist [] attr).1 ++ more) []
      [.node ⟨.elm, some name, (kexpatAddAttrlist [] attr).2, none⟩ cs]
    rw [kxmlDocRead, hdoc, Option.bind_some, kxmlDocRoot, hread, close, kxmlNodes, List.head?_cons]
    rfl

theorem catContent_pieces (pieces : List String) (content : Option String) :
    ((pieces.map textNode).foldl catContent content).getD "" = content.getD "" ++ String.join pieces := by
  induction pieces generalizing content with
  | nil => simp
  | cons s pieces ih =>
    rw [List.map_cons, List.foldl_cons, ih]
    simp [catContent, textNode, String.append_assoc]

theorem catContent_isSome (pieces : List String) (content : Option String)
    (h : content.isSome ∨ pieces ≠ []) : ((pieces.map textNode).foldl catContent content).isSome := by
  induction pieces generalizing content with
  | nil => simpa using h
  | cons s pieces ih =>
    apply ih
    simp [catContent, textNode]

/-- The pieces make the same content as the text. -/
theorem InPieces.content (h : InPieces attributes items us) (content : Option String) :
    us.foldl catContent content = items.foldl catItem content := by
  induction h generalizing content with
  | nil => rfl
  | element _ _ _ _ ihitems =>
    rw [List.foldl_cons, List.foldl_cons, ihitems]
    rfl
  | @text s items us pieces hs hpieces _ ihitems =>
    have hne : pieces ≠ [] := by
      rintro rfl
      exact hs hpieces.symm
    have hpiece : (pieces.map textNode).foldl catContent content = some (content.getD "" ++ s) := by
      obtain ⟨t, ht⟩ := Option.isSome_iff_exists.mp (catContent_isSome pieces content (.inr hne))
      have htext := catContent_pieces pieces content
      rw [ht, hpieces] at htext
      rw [ht, ← htext, Option.getD_some]
    rw [List.foldl_append, hpiece, ihitems, List.foldl_cons]
    rfl

end Documents

section Loading

variable (conv : FauxConv)

theorem processChildren_text (attributes : List KexpatNode) (pieces : List String)
    (nodes : List (Rose KexpatData)) (tag : Ktag) (parent : KxmlParent) (error : List String) :
    processChildren conv (kxmlNodes attributes (pieces.map textNode ++ nodes)) tag parent error =
      processChildren conv (kxmlNodes attributes nodes) tag parent error := by
  induction pieces with
  | nil => rfl
  | cons s pieces ih =>
    rw [List.map_cons, List.cons_append, kxmlNodes, processChildren, ← ih]
    simp [textNode, kxmlNode, processNode, processElement]

theorem processNode_congr (a : KxmlNodeData) {cs cs' : List KxmlNode}
    (hchildren : processChildren conv cs = processChildren conv cs') :
    processNode conv (.node a cs) = processNode conv (.node a cs') := by
  funext tag parent error
  rw [processNode, processNode, hchildren]

variable {attributes : List KexpatNode} {items : List XmlItem} {us : List (Rose KexpatData)}

/-- What is shown of an element in memory are the attributes and the content of the item. -/
theorem kxmlNode_element {name : String} {attr : List (String × String)} {content : List XmlItem}
    {cs : List (Rose KexpatData)} {base : ℕ} {head : Option ℕ}
    (hattr : AttrsAt attributes base head attr) (hcontent : InPieces attributes content cs) :
    kxmlNode attributes (.node ⟨.elm, some name, head, none⟩ cs) = .node ⟨.elm, some name,
      fun attrname => (attr.find? fun a => a.1 == attrname).map fun a => a.2,
      content.foldl catItem none⟩ (kxmlNodes attributes cs) := by
  have hattrs : kxmlNodeAttr attributes ⟨.elm, some name, head, none⟩ = _ :=
    funext (hattr.nodeAttr rfl)
  rw [kxmlNode, hattrs, kxmlNodeContent, hcontent.content]

/-- The nested elements do the same, whatever the pieces are. -/
theorem InPieces.processChildren (h : InPieces attributes items us) :
    processChildren conv (kxmlNodes attributes us) = processChildren conv (XmlItem.nodes items) := by
  induction h with
  | nil => rfl
  | @element name attr content items cs us base head hattr hcontent _ ihcontent ihitems =>
    funext tag parent error
    have hnode := processNode_congr conv ⟨.elm, some name,
      fun attrname => (attr.find? fun a => a.1 == attrname).map fun a => a.2,
      content.foldl catItem none⟩ ihcontent
    rw [XmlItem.nodes, XmlItem.node, kxmlNodes, kxmlNode_element hattr hcontent,
      Klish.processChildren, Klish.processChildren, hnode, ihitems]
  | @text s items us pieces _ _ _ ihitems =>
    funext tag parent error
    rw [processChildren_text, ihitems, XmlItem.nodes, Klish.processChildren]
    simp [XmlItem.node, processNode, processElement]

/-- An element that is read does what the item does. -/
theorem InPieces.processNode {item : XmlItem} {t : Rose KexpatData}
    (h : InPieces attributes [item] [t]) (hitem : ∀ s, item ≠ .text s) :
    processNode conv (kxmlNode attributes t) = processNode conv item.node := by
  cases item with
  | text s => exact absurd rfl (hitem s)
  | element name attr content =>
    cases h with
    | element hattr hcontent hitems =>
      rw [kxmlNode_element hattr hcontent, XmlItem.node]
      exact processNode_congr conv _ (hcontent.processChildren conv)

/-- What the parser makes of a file with the document, or of one without. -/
inductive ReadsAs : Option (List XmlEvent × Bool) → Option XmlItem → Prop
  | unreadable : ReadsAs none none
  | rejected (events : List XmlEvent) : ReadsAs (some (events, false)) none
  | document {name attr content events} (h : Reports [.element name attr content] events) :
      ReadsAs (some (events, true)) (some (.element name attr content))

/-- The loader's files when each text is one piece. -/
def documentFiles (files : KxmlFiles) (documents : String → Option XmlItem) : KxmlFiles :=
  { files with docRead := fun filename => (documents filename).map XmlItem.node }

variable {files : KxmlFiles} {parse : String → Option (List XmlEvent × Bool)}
  {documents : String → Option XmlItem}

theorem kxmlLoadFile_kexpat (hparse : ∀ filename, ReadsAs (parse filename) (documents filename))
    (s : KschemeTree) (filename : String) (error : List String) :
    kxmlLoadFile conv (kexpatFiles files parse) s filename error =
      kxmlLoadFile conv (documentFiles files documents) s filename error := by
  have hfile := hparse filename
  have hread : (kexpatFiles files parse).docRead filename =
      (kxmlDocRead (parse filename)).bind kxmlDocRoot := rfl
  have hdocument : (documentFiles files documents).docRead filename =
      (documents filename).map XmlItem.node := rfl
  rw [kxmlLoadFile, kxmlLoadFile, hread, hdocument]
  generalize parse filename = events at hfile ⊢
  generalize documents filename = document at hfile ⊢
  cases hfile with
  | unreadable => rfl
  | rejected => rfl
  | document h =>
    obtain ⟨attributes, t, ht, hroot⟩ := kxmlDocRead_tree h
    rw [hroot, Option.map_some]
    dsimp only
    rw [ht.processNode conv nofun]

/-- Loading through the engine is loading the documents, however the parser cuts their texts. -/
theorem kxmlLoadScheme_kexpat (hparse : ∀ filename, ReadsAs (parse filename) (documents filename))
    (s : KschemeTree) (xmlPath : Option String) (error : List String) :
    kxmlLoadScheme conv (kexpatFiles files parse) s xmlPath error =
      kxmlLoadScheme conv (documentFiles files documents) s xmlPath error := by
  have hloads : ∀ filenames r, kxmlLoadFiles conv (kexpatFiles files parse) filenames r =
      kxmlLoadFiles conv (documentFiles files documents) filenames r := by
    intro filenames
    induction filenames with
    | nil => exact fun r => rfl
    | cons filename filenames ih =>
      intro r
      rw [kxmlLoadFiles, kxmlLoadFiles, kxmlLoadFile_kexpat conv hparse]
      simp only [ih]
  rw [kxmlLoadScheme, kxmlLoadScheme, hloads]
  rfl

/-- A command with a text that the parser cuts in two. -/
def cutDocument : XmlItem :=
  .element "KLISH" [] [.element "ENTRY" [("name", "main")] [.element "ACTION" [("sym", "script")]
    [.text "echo hi"]]]

def cutEvents : List XmlEvent :=
  [.elementStart "KLISH" [], .elementStart "ENTRY" [("name", "main")],
    .elementStart "ACTION" [("sym", "script")], .chardata "echo", .chardata " hi", .elementEnd,
    .elementEnd, .elementEnd]

def noFiles : KxmlFiles := ⟨id, fun _ => true, fun _ => none, fun _ => none⟩

theorem kxmlLoadScheme_kexpat_sample : (kxmlLoadScheme wordConv (kexpatFiles noFiles fun filename =>
    if filename = "a.xml" then some (cutEvents, true) else none) .new "a.xml" []).any (fun r => r.ok &&
      r.obj.entrys.any fun t => t.label.actions.any fun a => a.script == some "echo hi") = true := by
  have hparse : ∀ filename, ReadsAs (if filename = "a.xml" then some (cutEvents, true) else none)
      (if filename = "a.xml" then some cutDocument else none) := by
    intro filename
    split
    · exact .document (.element (.element (.element (.text ["echo", " hi"] (by decide) rfl .nil) .nil)
        .nil) .nil)
    · exact .unreadable
  rw [kxmlLoadScheme_kexpat wordConv hparse]
  decide +kernel

end Loading

end Klish
