import Klish.XmlLegal

/-!
# The objects that the elements get

An element gets the object of its parent element without its type. The tag of the parent tells the
type, but KLISH passes on the object that it has got itself. So the types are right as long as KLISH
is only at the root, and the root is no ENTRY.
-/

namespace Klish

/-- The tag of a node -/
def KxmlNode.tag (n : KxmlNode) : Ktag := kxmlNodeTag n.label

def KxmlNode.NoKlish : KxmlNode → Prop := Rose.All fun n => KxmlNode.tag n ≠ .klish

/-- The tags of the elements that are ENTRYs. -/
def Ktag.isEntry : Ktag → Bool
  | .none | .klish | .action | .plugin | .hotkey => false
  | _ => true

/-- The object is made by an element of the tag. -/
def Ktag.Gives (tag : Ktag) : KxmlParent → Prop
  | .scheme _ => tag = .klish
  | .entry _ => tag.isEntry
  | .action _ => tag = .action
  | .plugin _ => tag = .plugin

/-- Objects of one type. -/
abbrev KxmlParent.SameType : KxmlParent → KxmlParent → Prop :=
  KxmlParent.Rel (fun _ _ => True) fun _ _ => True

variable {conv : FauxConv} {node : KxmlNodeData} {tag parentTag : Ktag} {children : KxmlChildren}
  {parent : KxmlParent} {error : List String} {info : IentryData}

theorem sameType_kept : KeptBySteps conv (fun _ => True) (fun _ _ => True) fun _ _ => True := by
  constructor <;> intros <;> trivial

theorem KxmlNode.makes_any (n : KxmlNode) : n.Makes fun _ => True := n.makes fun _ _ _ => trivial

theorem Ktag.Gives.sameType {parent' : KxmlParent} (h : tag.Gives parent)
    (hsame : parent.SameType parent') : tag.Gives parent' := by
  cases parent <;> cases parent' <;> first | exact h | exact hsame.elim

theorem elementInfo_isSome (node : KxmlNodeData) (tag : Ktag) :
    (elementInfo node tag).isSome = tag.isEntry := by
  cases tag <;> rfl

/-- The nested elements are processed with any object that the element can make. -/
def Processes (tag : Ktag) (children : KxmlChildren) : Prop :=
  ∀ parent error, tag.Gives parent → ∃ r, children parent error = some r ∧ parent.SameType r.obj

theorem addEntry_place {list : List KentryTree} {i : ℕ} {list' : List KentryTree}
    (h : AddsEntry conv info list (some i) list') : ∃ t, list'[i]? = some t := by
  generalize hplace : some i = place at h
  cases h with
  | rejected => cases hplace
  | @parsed j k nested error hfind hj =>
    split at hplace
    · cases hplace
      obtain ⟨hlt, -⟩ := List.getElem?_eq_some_iff.mp hj
      exact ⟨_, List.getElem?_set_self hlt⟩
    · cases hplace
  | added error hload hnew =>
    cases hplace
    exact ⟨_, List.getElem?_concat_length⟩

theorem processIn_defined (hchildren : Processes tag children) (hentry : tag.isEntry)
    (opened closed : KentryTree → KentryTree) (list : List KentryTree) (error : List String) :
    ∃ r, processIn conv info opened closed children list error = some r := by
  have hadd := @addEntry_adds conv info list error
  unfold processIn
  cases hres : addEntry conv info list error with
  | mk place rest =>
    obtain ⟨list', error'⟩ := rest
    rw [hres] at hadd
    cases place with
    | none => exact ⟨_, rfl⟩
    | some i =>
      obtain ⟨t, ht⟩ := addEntry_place hadd
      obtain ⟨⟨ok, obj, error''⟩, hr, hsame⟩ := hchildren (.entry (opened t)) error' hentry
      dsimp only at ht ⊢
      rw [ht, Option.bind_some, hr, Option.bind_some]
      cases obj with
      | entry t' => exact ⟨_, rfl⟩
      | scheme s => exact hsame.elim
      | action a => exact hsame.elim
      | plugin k => exact hsame.elim

theorem processInHierarchy_defined (hchildren : Processes tag children) (hentry : tag.isEntry)
    (hparent : parentTag.Gives parent) (opened closed : KentryTree → KentryTree)
    (error : List String) : ∃ r, processInHierarchy conv tag parentTag info opened closed children parent
      error = some r := by
  have hin : ∀ list, ∃ r, processIn conv info opened closed children list error = some r :=
    fun list => processIn_defined hchildren hentry opened closed list error
  unfold processInHierarchy
  by_cases hrefused : parentTag = .action ∨ parentTag = .plugin
  · rw [if_pos hrefused]
    exact ⟨_, rfl⟩
  · rw [if_neg hrefused]
    by_cases htop : parentTag = .klish
    · subst htop
      rw [if_pos rfl]
      cases parent with
      | scheme s =>
        obtain ⟨r, hr⟩ := hin s.entrys
        exact ⟨_, congrArg (Option.map _) hr⟩
      | entry t => cases hparent
      | action a => cases hparent
      | plugin k => cases hparent
    · rw [if_neg htop]
      cases parent with
      | entry t =>
        obtain ⟨k, list⟩ := t
        obtain ⟨r, hr⟩ := hin list
        exact ⟨_, congrArg (Option.map _) hr⟩
      | scheme s => exact absurd hparent htop
      | action a => exact absurd (.inl hparent) hrefused
      | plugin k => exact absurd (.inr hparent) hrefused

theorem processPlugin_defined (hchildren : Processes .plugin children) (hparent : parentTag.Gives parent)
    (error : List String) : ∃ r, processPlugin node parentTag children parent error = some r := by
  unfold processPlugin
  by_cases htop : parentTag ≠ .klish
  · rw [if_pos htop]
    exact ⟨_, rfl⟩
  · obtain rfl := not_not.mp htop
    rw [if_neg htop]
    rcases ipluginLoad ⟨node.attr "name", node.attr "id", node.attr "file", node.content⟩ error with
      ⟨_ | plugin, error'⟩
    · exact ⟨_, rfl⟩
    · cases parent with
      | scheme s =>
        dsimp only
        cases addSortedUnique (fun k => k.name) plugin s.plugins with
        | none => exact ⟨_, rfl⟩
        | some plugins =>
          obtain ⟨r, hr, -⟩ := hchildren (.plugin plugin) error' rfl
          exact ⟨_, congrArg (Option.map _) hr⟩
      | entry t => cases hparent
      | action a => cases hparent
      | plugin k => cases hparent

/-- An ENTRY that may have ACTIONs is one. -/
theorem Ktag.Gives.entry (hparent : parentTag.Gives parent) (h : parentTag.isEntry) :
    ∃ k nested, parent = .entry (.node k nested) := by
  cases parent with
  | entry t =>
    obtain ⟨k, nested⟩ := t
    exact ⟨k, nested, rfl⟩
  | scheme s =>
    obtain rfl : parentTag = .klish := hparent
    cases h
  | action a =>
    obtain rfl : parentTag = .action := hparent
    cases h
  | plugin k =>
    obtain rfl : parentTag = .plugin := hparent
    cases h

theorem processAction_defined (hchildren : Processes .action children)
    (hparent : parentTag.Gives parent) (error : List String) :
    ∃ r, processAction conv node parentTag children parent error = some r := by
  unfold processAction
  rcases iactionLoad conv (actionInfo node) error with ⟨_ | action, error'⟩
  · exact ⟨_, rfl⟩
  · dsimp only
    by_cases hact : parentTag.mayAct
    · have hentry : parentTag.isEntry := by
        cases parentTag <;> first | rfl | cases hact
      obtain ⟨k, nested, rfl⟩ := hparent.entry hentry
      obtain ⟨r, hr, -⟩ := hchildren (.action action) error' rfl
      rw [if_pos hact]
      exact ⟨_, congrArg (Option.map _) hr⟩
    · rw [if_neg hact]
      exact ⟨_, rfl⟩

theorem processHotkey_defined (hparent : parentTag.Gives parent) (error : List String) :
    ∃ r, processHotkey node parentTag parent error = some r := by
  unfold processHotkey
  rcases node.attr "key" with _ | key
  · exact ⟨_, rfl⟩
  · rcases node.attr "cmd" with _ | cmd
    · exact ⟨_, rfl⟩
    · dsimp only
      rcases ihotkeyLoad ⟨some key, some cmd⟩ error with ⟨_ | hotkey, error'⟩
      · exact ⟨_, rfl⟩
      · dsimp only
        by_cases hview : parentTag = .entry ∨ parentTag = .view
        · have hentry : parentTag.isEntry := by
            rcases hview with rfl | rfl <;> rfl
          obtain ⟨k, nested, rfl⟩ := hparent.entry hentry
          rw [if_pos hview]
          dsimp only
          cases addUnique Khotkey.key hotkey k.hotkeys <;> exact ⟨_, rfl⟩
        · rw [if_neg hview]
          exact ⟨_, rfl⟩

theorem processElement_defined (hchildren : Processes tag children) (hklish : tag ≠ .klish)
    (hparent : parentTag.Gives parent) (error : List String) :
    ∃ r, processElement conv node tag parentTag children parent error = some r := by
  by_cases helm : node.type = .elm
  · cases hinfo : elementInfo node tag with
    | some info =>
      have hentry : tag.isEntry := by rw [← elementInfo_isSome node tag, hinfo]; rfl
      rw [processElement_entry helm hinfo]
      cases info with
      | error msg => exact ⟨_, rfl⟩
      | ok info => exact processInHierarchy_defined hchildren hentry hparent _ _ error
    | none =>
      unfold processElement
      rw [if_neg (not_not.mpr helm)]
      cases tag with
      | none => exact ⟨_, rfl⟩
      | action => exact processAction_defined hchildren hparent error
      | plugin => exact processPlugin_defined hchildren hparent error
      | klish => exact absurd rfl hklish
      | hotkey => exact processHotkey_defined hparent error
      | _ => cases hinfo
  · unfold processElement
    rw [if_pos helm]
    exact ⟨_, rfl⟩

theorem processChildren_defined {nodes : List KxmlNode} {tag : Ktag}
    (hnodes : ∀ n ∈ nodes, ∀ parent error, tag.Gives parent →
      ∃ r, processNode conv n tag parent error = some r) :
    Processes tag fun parent error => processChildren conv nodes tag parent error := by
  intro parent error hparent
  suffices h : ∃ r, processChildren conv nodes tag parent error = some r by
    obtain ⟨r, hr⟩ := h
    refine ⟨r, hr, processChildren_kept sameType_kept ?_ hr⟩
    exact fun n _ _ _ _ _ h => processNode_kept sameType_kept trivial n.makes_any h
  induction nodes generalizing parent error with
  | nil => exact ⟨_, rfl⟩
  | cons n nodes ih =>
    obtain ⟨r, hr⟩ := hnodes n List.mem_cons_self parent error hparent
    have hsame := processNode_kept sameType_kept trivial n.makes_any hr
    rw [processChildren, hr, Option.bind_some]
    split
    · exact ih (fun n hn => hnodes n (List.mem_cons_of_mem _ hn)) _ _ (hparent.sameType hsame)
    · exact ⟨_, rfl⟩

/-- Below an element that has made its object, no object is taken for one of another type. -/
theorem processNode_defined {n : KxmlNode} (h : n.NoKlish) (hparent : parentTag.Gives parent)
    (error : List String) : ∃ r, processNode conv n parentTag parent error = some r := by
  induction n using Rose.ind generalizing parentTag parent error with
  | hnode node nodes ih =>
    rw [processNode]
    refine processElement_defined ?_ h.root hparent error
    exact processChildren_defined fun n hn parent error hp => ih n hn (h.child hn) hp error

/-- The root is an ENTRY with its mandatory attributes. -/
def KxmlNode.RootEntry (root : KxmlNode) : Prop :=
  ∃ info, elementInfo root.label root.tag = some (.ok info)

theorem processRoot_none (h : elementInfo node tag = some (.ok info)) (helm : node.type = .elm)
    (s : KschemeTree) :
    processElement conv node tag .none children (.scheme s) error = none := by
  rw [processElement_entry helm h]
  rfl

theorem processRoot_defined (hroot : ¬∃ info, elementInfo node tag = some (.ok info))
    (hchildren : tag = .klish → ∀ parent error, tag.Gives parent → ∃ r, children parent error = some r)
    (s : KschemeTree) (error : List String) :
    ∃ r, processElement conv node tag .none children (.scheme s) error = some r := by
  by_cases helm : node.type = .elm
  · cases hinfo : elementInfo node tag with
    | some info =>
      cases info with
      | error msg =>
        rw [processElement_entry helm hinfo]
        exact ⟨_, rfl⟩
      | ok info => exact absurd ⟨info, hinfo⟩ hroot
    | none =>
      unfold processElement
      rw [if_neg (not_not.mpr helm)]
      cases tag with
      | none => exact ⟨_, rfl⟩
      | action =>
        dsimp only [processAction]
        rcases iactionLoad conv (actionInfo node) error with ⟨_ | action, error'⟩ <;> exact ⟨_, rfl⟩
      | plugin => exact ⟨_, rfl⟩
      | klish => exact hchildren rfl _ _ rfl
      | hotkey =>
        dsimp only [processHotkey]
        rcases node.attr "key" with _ | key
        · exact ⟨_, rfl⟩
        · rcases node.attr "cmd" with _ | cmd
          · exact ⟨_, rfl⟩
          · dsimp only
            rcases ihotkeyLoad ⟨some key, some cmd⟩ error with ⟨_ | hotkey, error'⟩ <;> exact ⟨_, rfl⟩
      | _ => cases hinfo
  · unfold processElement
    rw [if_pos helm]
    exact ⟨_, rfl⟩

theorem tag_elm (h : elementInfo node (kxmlNodeTag node) = some (.ok info)) : node.type = .elm := by
  by_contra hne
  rw [kxmlNodeTag, if_neg hne] at h
  cases h

/-- If KLISH is nowhere below the root, each object is taken for what it is, whatever else the
document has and whatever has been loaded before, unless the root is an ENTRY. -/
theorem kxmlLoadFile_defined_iff {files : KxmlFiles} {filename : String} {root : KxmlNode}
    (hread : files.docRead filename = some root) (hbelow : ∀ n ∈ root.children, KxmlNode.NoKlish n)
    (s : KschemeTree) (error : List String) :
    (∃ r, kxmlLoadFile conv files s filename error = some r) ↔ ¬root.RootEntry := by
  obtain ⟨node, nodes⟩ := root
  unfold kxmlLoadFile
  rw [hread]
  dsimp only
  constructor
  · rintro ⟨r, hr⟩ ⟨info, hinfo⟩
    have hnone : processNode conv (.node node nodes) .none (.scheme s) error = none := by
      rw [processNode]
      exact processRoot_none hinfo (tag_elm hinfo) s
    rw [hnone] at hr
    cases hr
  · intro hroot
    have hdefined : ∃ r, processNode conv (.node node nodes) .none (.scheme s) error = some r := by
      rw [processNode]
      refine processRoot_defined hroot ?_ s error
      intro _ parent error hparent
      have hnodes : Processes (kxmlNodeTag node) (processChildren conv nodes (kxmlNodeTag node)) :=
        processChildren_defined fun n hn parent error hp => processNode_defined (hbelow n hn) hp error
      obtain ⟨r, hr, -⟩ := hnodes parent error hparent
      exact ⟨r, hr⟩
    obtain ⟨⟨ok, obj, error'⟩, hr⟩ := hdefined
    have hsame := processNode_kept sameType_kept trivial (KxmlNode.makes_any _) hr
    rw [hr, Option.bind_some]
    cases obj with
    | scheme s' => exact ⟨_, rfl⟩
    | entry t => exact hsame.elim
    | action a => exact hsame.elim
    | plugin k => exact hsame.elim

/-- A file with the VIEW alone. -/
def viewFiles : KxmlFiles :=
  { showFiles with docRead fn := if fn = "view.xml" then some (xmlElement "VIEW" [("name", "main")]
      [xmlElement "COMMAND" [("name", "show")] []]) else none }

/-- A document in KLISH is loaded, and one whose root is a VIEW is taken for another object. -/
theorem kxmlLoadFile_defined_iff_sample :
    (∃ r, kxmlLoadFile wordConv showFiles .new "show.xml" [] = some r) ∧
    ¬ ∃ r, kxmlLoadFile wordConv viewFiles .new "view.xml" [] = some r := by
  have hnested : ∀ n ∈ showDoc.children, KxmlNode.NoKlish n := by
    repeat' first
      | exact .node (by decide) (List.forall_mem_nil _)
      | refine .node (by decide) (List.forall_mem_cons.mpr ⟨?_, ?_⟩)
      | refine List.forall_mem_cons.mpr ⟨?_, ?_⟩
      | exact List.forall_mem_nil _
  constructor
  · apply (kxmlLoadFile_defined_iff rfl hnested _ _).mpr
    rintro ⟨info, hinfo⟩
    cases hinfo
  · have hiff := @kxmlLoadFile_defined_iff wordConv viewFiles "view.xml" _ rfl
      (List.forall_mem_singleton.mpr (.node (by decide) (List.forall_mem_nil _))) .new []
    rw [hiff]
    exact not_not_intro ⟨_, rfl⟩

/-- A KLISH in a PLUGIN passes the PLUGIN on as if it was the scheme. -/
example : processNode wordConv (xmlElement "KLISH" [] [xmlElement "PLUGIN" [("name", "klish")]
    [xmlElement "KLISH" [] [xmlElement "VIEW" [("name", "main")] []]]]) .none (.scheme .new) [] = none := rfl

/-- Every file of the path is processed if none of them has such a document. -/
theorem kxmlLoadScheme_defined {files : KxmlFiles}
    (hfiles : ∀ filename, ∀ root ∈ files.docRead filename,
      ¬root.RootEntry ∧ ∀ n ∈ root.children, KxmlNode.NoKlish n)
    (s : KschemeTree) (path : Option String) (error : List String) :
    ∃ r, kxmlLoadScheme conv files s path error = some r := by
  have hlist : ∀ (filenames : List String) (p : Parsed KschemeTree),
      ∃ r, kxmlLoadFiles conv files filenames p = some r := by
    intro filenames
    induction filenames with
    | nil => exact fun p => ⟨p, rfl⟩
    | cons filename filenames ih =>
      intro p
      have hfile : ∃ r, kxmlLoadFile conv files p.obj filename p.error = some r := by
        cases hread : files.docRead filename with
        | none =>
          unfold kxmlLoadFile
          rw [hread]
          exact ⟨_, rfl⟩
        | some root =>
          obtain ⟨hroot, hbelow⟩ := hfiles filename root hread
          exact (kxmlLoadFile_defined_iff hread hbelow p.obj p.error).mpr hroot
      obtain ⟨r, hr⟩ := hfile
      rw [kxmlLoadFiles, hr, Option.bind_some]
      exact ih _
  exact hlist _ _

end Klish
