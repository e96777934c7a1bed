import Klish.Kexpat

/-!
# Releasing a document

A node is released after the nodes of its attributes and the nodes that are nested in it. The lists
of attributes of all nodes, one after another, are the attributes in memory, so none is released
twice.
-/

namespace Klish

open LinkedTrees (Open pushBack layout close first)
open TreeAddresses (forestSize Holds)

/-- Where a node is: in the tree, or in a list of attributes. -/
inductive KexpatAddress where
  | node (i : ℕ)
  | attr (i : ℕ)
  deriving DecidableEq

/-- The address of a node in the same list. -/
def KexpatAddress.sibling : KexpatAddress → ℕ → KexpatAddress
  | .node _ => .node
  | .attr _ => .attr

def KexpatDoc.cell (doc : KexpatDoc) : KexpatAddress → Option KexpatNode
  | .node i => doc.nodes[i]?
  | .attr i => doc.attributes[i]?

/-- A node in memory, unless it is freed already. -/
def accessNode (doc : KexpatDoc) (freed : List KexpatAddress) (node : KexpatAddress) :
    Option KexpatNode :=
  if node ∈ freed then none else doc.cell node

mutual

/-- `kexpat_free_node`. The freed nodes are listed, `none` stands for an access to one of them. -/
def kexpatFreeNode (doc : KexpatDoc) :
    ℕ → KexpatAddress → List KexpatAddress → Option (List KexpatAddress)
  | 0, _, _ => none
  | fuel + 1, cur, freed =>
    (accessNode doc freed cur).bind fun cell =>
      (kexpatFreeList doc fuel (cell.data.attributes.map .attr) freed).bind fun freed =>
        (accessNode doc freed cur).bind fun cell =>
          (kexpatFreeList doc fuel (cell.children.map .node) freed).bind fun freed =>
            (accessNode doc freed cur).map fun _ => freed ++ [cur]

/-- The loops of `kexpat_free_node` and `kxml_doc_release`. -/
def kexpatFreeList (doc : KexpatDoc) :
    ℕ → Option KexpatAddress → List KexpatAddress → Option (List KexpatAddress)
  | 0, _, _ => none
  | _ + 1, none, freed => some freed
  | fuel + 1, some node, freed =>
    (accessNode doc freed node).bind fun cell =>
      (kexpatFreeNode doc fuel node freed).bind fun freed =>
        kexpatFreeList doc fuel (cell.next.map node.sibling) freed

end

/-- `kxml_doc_release` -/
def kxmlDocRelease (doc : KexpatDoc) : Option (List KexpatAddress) :=
  kexpatFreeList doc (2 * (doc.nodes.length + doc.attributes.length) + 1) (doc.root.map .node) []

/-- The addresses of nodes in the tree and of attributes, from `base` and from `k` on. -/
def addressRange (base nodes k attrs : ℕ) : List KexpatAddress :=
  (List.range' base nodes).map .node ++ (List.range' k attrs).map .attr

theorem node_mem_addressRange {base nodes k attrs i : ℕ} :
    .node i ∈ addressRange base nodes k attrs ↔ base ≤ i ∧ i < base + nodes := by
  simp [addressRange, List.mem_range'_1]

theorem attr_mem_addressRange {base nodes k attrs i : ℕ} :
    .attr i ∈ addressRange base nodes k attrs ↔ k ≤ i ∧ i < k + attrs := by
  simp [addressRange, List.mem_range'_1]

/-- All nodes in memory. -/
def KexpatDoc.addresses (doc : KexpatDoc) : List KexpatAddress :=
  addressRange 0 doc.nodes.length 0 doc.attributes.length

/-- The attributes of the nodes are in memory one list after another, from `base` up to `stop`. -/
inductive AttrsFrom (attributes : List KexpatNode) : ℕ → List KexpatData → ℕ → Prop
  | nil {base : ℕ} : AttrsFrom attributes base [] base
  | cons {base stop : ℕ} {a : KexpatData} {datas : List KexpatData} {attr : List (String × String)}
      (hattr : AttrsAt attributes base a.attributes attr)
      (hrest : AttrsFrom attributes (base + attr.length) datas stop) :
      AttrsFrom attributes base (a :: datas) stop

section Lists

variable {attributes : List KexpatNode} {base middle stop : ℕ} {datas datas' : List KexpatData}

theorem AttrsFrom.le (h : AttrsFrom attributes base datas stop) : base ≤ stop := by
  induction h with
  | nil => exact Nat.le_refl _
  | cons _ _ ih => omega

theorem AttrsFrom.grow (h : AttrsFrom attributes base datas stop) (more : List KexpatNode) :
    AttrsFrom (attributes ++ more) base datas stop := by
  induction h with
  | nil => exact .nil
  | cons hattr _ ih => exact .cons (hattr.append more) ih

theorem AttrsFrom.append (h : AttrsFrom attributes base datas middle)
    (h' : AttrsFrom attributes middle datas' stop) :
    AttrsFrom attributes base (datas ++ datas') stop := by
  induction h with
  | nil => exact h'
  | cons hattr _ ih => exact .cons hattr (ih h')

theorem AttrsFrom.split (h : AttrsFrom attributes base (datas ++ datas') stop) :
    ∃ middle, AttrsFrom attributes base datas middle ∧ AttrsFrom attributes middle datas' stop := by
  induction datas generalizing base with
  | nil => exact ⟨base, .nil, h⟩
  | cons a datas ih =>
    cases h with
    | cons hattr hrest =>
      obtain ⟨middle, hfirst, hsecond⟩ := ih hrest
      exact ⟨middle, .cons hattr hfirst, hsecond⟩

end Lists

/-- Each attribute in memory is in the list of one node. -/
def KexpatDoc.OwnsAttrs (doc : KexpatDoc) : Prop :=
  AttrsFrom doc.attributes 0 (doc.nodes.map fun node => node.data) doc.attributes.length

theorem addNode_data (nodes : List KexpatNode) (parent : Option ℕ) (data : KexpatData) :
    (addNode nodes parent data).map (fun node => node.data) =
      nodes.map (fun node => node.data) ++ [data] := by
  have hmodify : ∀ (nodes : List KexpatNode) (p : ℕ) (children : Option ℕ),
      (nodes.modify p fun cell => { cell with children := children }).map (fun node => node.data) =
        nodes.map fun node => node.data := by
    intro nodes p children
    apply List.ext_getElem?
    intro i
    simp only [List.getElem?_map, List.getElem?_modify]
    split <;> cases nodes[i]? <;> rfl
  have hpush := fun head => LinkedTrees.pushBack_data
    (nodes ++ [(⟨data, parent, none, none⟩ : KexpatNode)]) head nodes.length
  unfold addNode
  cases parent with
  | none => simp
  | some p =>
    dsimp only
    split
    · simp
    · rw [hmodify, hpush]
      simp

/-- A new node brings its attributes with it. -/
theorem KexpatDoc.OwnsAttrs.makeNode {doc : KexpatDoc} (h : doc.OwnsAttrs) (parent : Option ℕ)
    (type : KxmlNodeType) (n v : Option String) (attr : List (String × String)) :
    (kexpatMakeNode doc parent type n v attr).OwnsAttrs := by
  have hattr := kexpatAddAttrlist_at doc.attributes attr
  have hgrown : ∃ more, (kexpatAddAttrlist doc.attributes attr).1 = doc.attributes ++ more ∧
      more.length = attr.length := by
    rw [kexpatAddAttrlist_eq]
    exact ⟨_, rfl, by rw [LinkedTrees.length_forest, forestSize_attrLeaves]⟩
  obtain ⟨more, hmore, hlength⟩ := hgrown
  unfold OwnsAttrs kexpatMakeNode
  dsimp only
  rw [addNode_data, hmore, List.length_append, hlength]
  rw [hmore] at hattr
  exact (h.grow more).append (.cons hattr .nil)

theorem KexpatDoc.OwnsAttrs.handle {doc : KexpatDoc} (h : doc.OwnsAttrs) (event : XmlEvent) :
    (doc.handle event).OwnsAttrs := by
  cases event with
  | elementStart el attr =>
    have hmade := fun current => h.makeNode current .elm (some el) none attr
    rw [KexpatDoc.handle, kexpatElementStart]
    cases doc.current with
    | none =>
      have hroot := hmade none
      unfold OwnsAttrs at hroot ⊢
      dsimp only
      rwa [LinkedTrees.pushBack_data]
    | some cur => exact hmade (some cur)
  | elementEnd =>
    rw [KexpatDoc.handle, kexpatElementEnd]
    cases doc.current <;> exact h
  | chardata s =>
    rw [KexpatDoc.handle, kexpatChardataHandler]
    cases doc.current with
    | none => exact h
    | some cur => exact h.makeNode (some cur) .text none (some s) []

theorem ownsAttrs_run (events : List XmlEvent) :
    (events.foldl KexpatDoc.handle .empty).OwnsAttrs := by
  have hrun : ∀ doc : KexpatDoc, doc.OwnsAttrs → (events.foldl KexpatDoc.handle doc).OwnsAttrs := by
    induction events with
    | nil => exact fun _ h => h
    | cons event events ih => exact fun doc h => ih _ (h.handle event)
  exact hrun .empty .nil

section Release

variable {doc : KexpatDoc} {freed : List KexpatAddress}

/-- The loop over the attributes of a node. -/
theorem kexpatFreeList_attrs {base fuel : ℕ} {head : Option ℕ} {attr : List (String × String)}
    (h : AttrsAt doc.attributes base head attr) (hfuel : 2 * attr.length < fuel)
    (hfreed : ∀ i, .attr i ∈ freed → i < base ∨ base + attr.length ≤ i) :
    kexpatFreeList doc fuel (head.map .attr) freed =
      some (freed ++ (List.range' base attr.length).map .attr) := by
  obtain ⟨hfirst, hholds⟩ := h
  subst hfirst
  induction attr generalizing base fuel freed with
  | nil =>
    obtain ⟨fuel, rfl⟩ : ∃ n, fuel = n + 1 := ⟨fuel - 1, by omega⟩
    simp [attrLeaves, kexpatFreeList]
  | cons a attr ih =>
    simp only [List.length_cons] at hfuel hfreed
    obtain ⟨fuel, rfl⟩ : ∃ n, fuel = n + 3 := ⟨fuel - 3, by omega⟩
    obtain ⟨hcell, -, hrest⟩ := LinkedTrees.holds_forest_cons.mp hholds
    have hnew : KexpatAddress.attr base ∉ freed := by
      intro hmem
      have hout := hfreed base hmem
      omega
    have hnode : kexpatFreeNode doc (fuel + 2) (.attr base) freed = some (freed ++ [.attr base]) := by
      simp [kexpatFreeNode, kexpatFreeList, accessNode, KexpatDoc.cell, hnew, hcell, attrData]
    have hmore : kexpatFreeList doc (fuel + 2)
        ((first (base + 1) none (attrLeaves attr)).map .attr) (freed ++ [.attr base]) =
          some (freed ++ [.attr base] ++ (List.range' (base + 1) attr.length).map .attr) := by
      refine ih (by omega) (fun i hi => ?_) hrest
      rcases List.mem_append.mp hi with hi | hi
      · have hout := hfreed i hi
        omega
      · cases List.mem_singleton.mp hi
        omega
    rw [attrLeaves, List.map_cons, LinkedTrees.first_cons, Option.map_some, kexpatFreeList,
      accessNode, if_neg hnew, KexpatDoc.cell, hcell, Option.bind_some, hnode, Option.bind_some]
    exact hmore.trans (by simp [List.range'_succ])

/-- The nodes and the attributes of a list of trees, from those of the first one and of the rest. -/
theorem addressRange_cons (base k nodes nodes' attrs attrs' attrs'' : ℕ)
    {order order' : List KexpatAddress}
    (horder : order.Perm (addressRange (base + 1) nodes (k + attrs) attrs'))
    (horder' : order'.Perm
      (addressRange (base + (nodes + 1)) nodes' (k + attrs + attrs') attrs'')) :
    ((List.range' k attrs).map KexpatAddress.attr ++ order ++ [KexpatAddress.node base] ++ order').Perm
      (addressRange base (nodes + 1 + nodes') k (attrs + attrs' + attrs'')) := by
  have hnodes : List.range' base (nodes + 1 + nodes') =
      base :: (List.range' (base + 1) nodes ++ List.range' (base + (nodes + 1)) nodes') := by
    rw [← List.range'_append_1, List.range'_succ, List.cons_append]
  have hattrs : List.range' k (attrs + attrs' + attrs'') = List.range' k attrs ++
      List.range' (k + attrs) attrs' ++ List.range' (k + attrs + attrs') attrs'' := by
    rw [← List.range'_append_1, ← List.range'_append_1, Nat.add_assoc]
  unfold addressRange at horder horder' ⊢
  rw [hnodes, hattrs, List.perm_iff_count]
  intro address
  have hcount := horder.count_eq address
  have hcount' := horder'.count_eq address
  simp only [List.map_cons, List.map_append, List.count_append, List.count_cons,
    List.count_nil] at hcount hcount' ⊢
  omega

/-- Nothing that is freed is in the ranges. -/
structure Outside (freed : List KexpatAddress) (base nodes k attrs : ℕ) : Prop where
  node : ∀ i, .node i ∈ freed → i < base ∨ base + nodes ≤ i
  attr : ∀ i, .attr i ∈ freed → i < k ∨ k + attrs ≤ i

section Outside

variable {base nodes k attrs base' nodes' k' attrs' : ℕ} {more : List KexpatAddress}

theorem Outside.mono (h : Outside freed base nodes k attrs)
    (hnodes : base ≤ base' ∧ base' + nodes' ≤ base + nodes)
    (hattrs : k ≤ k' ∧ k' + attrs' ≤ k + attrs) : Outside freed base' nodes' k' attrs' := by
  refine ⟨fun i hi => ?_, fun i hi => ?_⟩
  · have hout := h.node i hi
    omega
  · have hout := h.attr i hi
    omega

theorem Outside.append (h : Outside freed base nodes k attrs)
    (hmore : ∀ a ∈ more, a ∈ addressRange base' nodes' k' attrs')
    (hnodes : base' + nodes' ≤ base ∨ base + nodes ≤ base')
    (hattrs : k' + attrs' ≤ k ∨ k + attrs ≤ k') : Outside (freed ++ more) base nodes k attrs := by
  refine ⟨fun i hi => ?_, fun i hi => ?_⟩
  · rcases List.mem_append.mp hi with hi | hi
    · exact h.node i hi
    · have hin := node_mem_addressRange.mp (hmore _ hi)
      omega
  · rcases List.mem_append.mp hi with hi | hi
    · exact h.attr i hi
    · have hin := attr_mem_addressRange.mp (hmore _ hi)
      omega

theorem Outside.notMem (h : Outside freed base nodes k attrs) (hpos : 0 < nodes) :
    .node base ∉ freed := by
  intro hmem
  have hout := h.node base hmem
  omega

end Outside

/-- The loop over a list of nodes releases their trees and their attributes. -/
theorem kexpatFreeList_forest {base k stop : ℕ} {parent : Option ℕ} {ts : List (Rose KexpatData)}
    {fuel : ℕ} (h : Holds doc.nodes base (LinkedTrees.forest parent base none ts))
    (hattrs : AttrsFrom doc.attributes k
      ((LinkedTrees.forest parent base none ts).map fun node => node.data) stop)
    (hfuel : 2 * (forestSize ts + (stop - k)) < fuel)
    (hfreed : Outside freed base (forestSize ts) k (stop - k)) :
    ∃ order, kexpatFreeList doc fuel ((first base none ts).map .node) freed =
        some (freed ++ order) ∧
      order.Perm (addressRange base (forestSize ts) k (stop - k)) := by
  induction fuel using Nat.strongRecOn generalizing base k stop parent ts freed with
  | ind fuel ih =>
    obtain ⟨fuel, rfl⟩ : ∃ n, fuel = n + 1 := ⟨fuel - 1, by omega⟩
    cases ts with
    | nil =>
      cases hattrs
      exact ⟨[], by simp [kexpatFreeList], by simp [addressRange]⟩
    | cons t ts =>
      obtain ⟨a, cs⟩ := t
      obtain ⟨hcell, hcs, hts⟩ := LinkedTrees.holds_forest_cons.mp h
      simp only [TreeAddresses.forestSize_cons, TreeAddresses.size_node] at hfuel hfreed ⊢
      obtain ⟨fuel, rfl⟩ : ∃ n, fuel = n + 1 := ⟨fuel - 1, by omega⟩
      rw [LinkedTrees.forest, LinkedTrees.tree, List.cons_append, List.map_cons,
        List.map_append, TreeAddresses.size_node] at hattrs
      cases hattrs with
      | @cons _ _ _ _ attr hattr hrest =>
        obtain ⟨middle, hattrs, hattrs'⟩ := hrest.split
        have hle := hattrs.le
        have hle' := hattrs'.le
        -- The attributes of the node come first, then what is nested in it, then the node.
        obtain ⟨freed₁, hfreed₁⟩ : ∃ freed₁, freed₁ = freed ++ addressRange base 0 k attr.length :=
          ⟨_, rfl⟩
        have hown : kexpatFreeList doc fuel (a.attributes.map .attr) freed = some freed₁ := by
          rw [hfreed₁]
          refine kexpatFreeList_attrs hattr (by omega) fun i hi => ?_
          have hout := hfreed.attr i hi
          omega
        have hout₁ : Outside freed₁ base (forestSize cs + 1 + forestSize ts) (k + attr.length)
            (stop - (k + attr.length)) := by
          rw [hfreed₁]
          exact (hfreed.mono (by omega) (by omega)).append (fun _ ha => ha) (by omega) (by omega)
        obtain ⟨order, hnested, hperm⟩ :=
          ih fuel (by omega) hcs hattrs (by omega) (hout₁.mono (by omega) (by omega))
        have hout₂ : Outside (freed₁ ++ order) (base + (forestSize cs + 1)) (forestSize ts) middle
            (stop - middle) :=
          (hout₁.mono (by omega) (by omega)).append (fun _ ha => hperm.mem_iff.mp ha) (by omega)
            (by omega)
        have hself : ∀ a ∈ [KexpatAddress.node base], a ∈ addressRange base 1 middle 0 :=
          fun _ ha => ha
        obtain ⟨order', hrest, hperm'⟩ := ih (fuel + 1) (by omega) hts hattrs' (by omega)
          (hout₂.append hself (by omega) (by omega))
        have hout : Outside (freed₁ ++ order) base 1 middle 0 :=
          (hout₁.mono (by omega) (by omega)).append (fun _ ha => hperm.mem_iff.mp ha) (by omega)
            (by omega)
        have hnode : kexpatFreeNode doc (fuel + 1) (.node base) freed =
            some (freed₁ ++ order ++ [.node base]) := by
          have hnew := hfreed.notMem (by omega)
          have hnew₁ := hout₁.notMem (by omega)
          have hnew₂ := hout.notMem Nat.one_pos
          simp only [kexpatFreeNode, accessNode, if_neg hnew, if_neg hnew₁, if_neg hnew₂,
            KexpatDoc.cell, hcell, Option.bind_some, hown, hnested, Option.map_some]
        refine ⟨addressRange base 0 k attr.length ++ order ++ [.node base] ++ order', ?_, ?_⟩
        · rw [LinkedTrees.first_cons, Option.map_some, kexpatFreeList, accessNode,
            if_neg (hfreed.notMem (by omega)), KexpatDoc.cell, hcell, Option.bind_some, hnode,
            Option.bind_some]
          refine hrest.trans ?_
          simp only [hfreed₁, List.append_assoc]
        · have hstop : stop - k = attr.length + (middle - (k + attr.length)) + (stop - middle) := by
            omega
          have hmiddle : k + attr.length + (middle - (k + attr.length)) = middle := by omega
          rw [hstop]
          exact addressRange_cons base k _ _ _ _ _ hperm (by rwa [hmiddle])

/-- Whatever calls the parser has made, each node is freed once, and none is looked at after it. -/
theorem kxmlDocRelease_frees (events : List XmlEvent) :
    ∃ order, kxmlDocRelease (events.foldl KexpatDoc.handle .empty) = some order ∧
      order.Perm (events.foldl KexpatDoc.handle .empty).addresses := by
  have howns := ownsAttrs_run events
  obtain ⟨attributes, os, ts, hdoc⟩ :=
    kexpatDoc_at events .empty ⟨[], [], [], documentAt_empty.symm⟩
  rw [hdoc] at howns ⊢
  have hnodes := documentAt_nodes attributes os ts
  have hlength : (documentAt attributes os ts).nodes.length = forestSize (close os ts) := by
    rw [hnodes, LinkedTrees.length_forest]
  unfold KexpatDoc.OwnsAttrs at howns
  rw [hnodes] at howns
  have hfuel : 2 * (forestSize (close os ts) +
      ((documentAt attributes os ts).attributes.length - 0)) <
      2 * ((documentAt attributes os ts).nodes.length +
        (documentAt attributes os ts).attributes.length) + 1 := by
    omega
  obtain ⟨order, hfree, hperm⟩ :=
    kexpatFreeList_forest (documentAt_holds attributes os ts) howns hfuel
      ⟨fun _ hi => absurd hi List.not_mem_nil, fun _ hi => absurd hi List.not_mem_nil⟩
  refine ⟨order, hfree, ?_⟩
  rwa [KexpatDoc.addresses, hlength]

end Release

end Klish
