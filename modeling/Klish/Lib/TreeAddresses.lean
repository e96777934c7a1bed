import Klish.Lib.Forests
import Klish.Lib.Roses
import Mathlib.Data.List.Perm.Basic
import Mathlib.Data.List.Nodup
import Mathlib.Data.Option.Basic
import Mathlib.Tactic.Common

/-!
# Trees in preorder

The nodes of a list of trees get addresses in preorder, from `base` on. Each tree takes as many of
them as it has nodes.
-/

namespace Klish.TreeAddresses

universe u v

variable {α : Type u}

mutual

def size : Rose α → ℕ
  | .node _ cs => forestSize cs + 1

def forestSize : List (Rose α) → ℕ
  | [] => 0
  | t :: ts => size t + forestSize ts

end

/-- The addresses of the trees of a list. -/
def roots (base : ℕ) : List (Rose α) → List ℕ
  | [] => []
  | t :: ts => base :: roots (base + size t) ts

@[simp] theorem size_node (a : α) (cs : List (Rose α)) : size (.node a cs) = forestSize cs + 1 := by
  rw [size]

@[simp] theorem forestSize_nil : forestSize ([] : List (Rose α)) = 0 := by rw [forestSize]

@[simp] theorem forestSize_cons (t : Rose α) (ts : List (Rose α)) :
    forestSize (t :: ts) = size t + forestSize ts := by
  rw [forestSize]

@[simp] theorem forestSize_append (ts us : List (Rose α)) :
    forestSize (ts ++ us) = forestSize ts + forestSize us := by
  induction ts with
  | nil => simp
  | cons t ts ih => simp [ih, Nat.add_assoc]

theorem size_pos (t : Rose α) : 0 < size t := by
  cases t with
  | node a cs => simp

theorem length_le_forestSize (ts : List (Rose α)) : ts.length ≤ forestSize ts := by
  induction ts with
  | nil => simp
  | cons t ts ih =>
    have hpos := size_pos t
    simp only [List.length_cons, forestSize_cons]
    omega

theorem roots_getLast? (base : ℕ) (ts : List (Rose α)) (t : Rose α) :
    (roots base (ts ++ [t])).getLast? = some (base + forestSize ts) := by
  induction ts generalizing base with
  | nil => simp [roots]
  | cons u ts ih =>
    simp only [List.cons_append, roots, List.getLast?_cons, ih]
    simp [Nat.add_assoc]

section Memory

variable {β : Type v} {cells nodes nodes' : List β} {base : ℕ}

/-- The nodes are in memory from `base` on. -/
def Holds (cells : List β) (base : ℕ) (nodes : List β) : Prop :=
  ∀ i cell, nodes[i]? = some cell → cells[base + i]? = some cell

theorem holds_cons {cell : β} :
    Holds cells base (cell :: nodes) ↔ cells[base]? = some cell ∧ Holds cells (base + 1) nodes := by
  constructor
  · intro h
    refine ⟨h 0 cell rfl, fun i c hc => ?_⟩
    have hnext := h (i + 1) c (by simpa using hc)
    rwa [Nat.add_assoc, Nat.add_comm 1]
  · rintro ⟨hcell, h⟩ i c hc
    cases i with
    | zero => simpa [← hc] using hcell
    | succ i =>
      have hnext := h i c (by simpa using hc)
      rwa [Nat.add_assoc, Nat.add_comm 1] at hnext

theorem holds_append : Holds cells base (nodes ++ nodes') ↔
    Holds cells base nodes ∧ Holds cells (base + nodes.length) nodes' := by
  induction nodes generalizing base with
  | nil => simp [Holds]
  | cons cell nodes ih => simp [holds_cons, ih, and_assoc, Nat.add_assoc, Nat.add_comm 1]

theorem holds_middle (before nodes later : List (β)) :
    Holds (before ++ nodes ++ later) before.length nodes := by
  intro i cell h
  have hlt : i < nodes.length := (List.getElem?_eq_some_iff.mp h).1
  rw [List.append_assoc, List.getElem?_append_right (by omega), Nat.add_sub_cancel_left,
    List.getElem?_append_left hlt, h]

/-- What is in memory stays there while the memory grows. -/
theorem Holds.append (h : Holds cells base nodes) (more : List β) :
    Holds (cells ++ more) base nodes := by
  intro i cell hcell
  have hold := h i cell hcell
  rwa [List.getElem?_append_left (List.getElem?_eq_some_iff.mp hold).1]

theorem Holds.length_le (h : Holds cells base nodes) : nodes.length ≤ cells.length := by
  by_contra hlt
  have hget : nodes[cells.length]? = some nodes[cells.length] := List.getElem?_eq_getElem (by omega)
  have hlt' := (List.getElem?_eq_some_iff.mp (h _ _ hget)).1
  omega

theorem holds_self (cells : List β) : Holds cells 0 cells := by
  simpa using holds_middle [] cells []

end Memory

section Place

/-- A node at its address, with the addresses of its parent and of the nodes nested in it. -/
structure Placed (α : Type u) where
  address : ℕ
  label : α
  parent : Option ℕ
  nested : List ℕ

mutual

def placeTree (parent : Option ℕ) (base : ℕ) : Rose α → List (Placed α)
  | .node a cs => ⟨base, a, parent, roots (base + 1) cs⟩ :: place (some base) (base + 1) cs

def place (parent : Option ℕ) (base : ℕ) : List (Rose α) → List (Placed α)
  | [] => []
  | t :: ts => placeTree parent base t ++ place parent (base + size t) ts

end

mutual

theorem placeTree_address (parent : Option ℕ) (base : ℕ) (t : Rose α) :
    (placeTree parent base t).map Placed.address = List.range' base (size t) := by
  cases t with
  | node a cs => rw [placeTree, List.map_cons, place_address, size_node, List.range'_succ]

theorem place_address (parent : Option ℕ) (base : ℕ) (ts : List (Rose α)) :
    (place parent base ts).map Placed.address = List.range' base (forestSize ts) := by
  cases ts with
  | nil => simp [place]
  | cons t ts =>
    rw [place, List.map_append, placeTree_address, place_address, forestSize_cons,
      List.range'_append_1]

end

theorem mem_roots_ge {base b : ℕ} {ts : List (Rose α)} (h : b ∈ roots base ts) : base ≤ b := by
  induction ts generalizing base with
  | nil => cases h
  | cons t ts ih =>
    rcases List.mem_cons.mp h with rfl | h
    · exact Nat.le_refl _
    · exact Nat.le_trans (Nat.le_add_right _ _) (ih h)

mutual

theorem placeTree_lt (parent : Option ℕ) (base : ℕ) (t : Rose α) : ∀ p ∈ placeTree parent base t, ∀ b ∈ p.nested, p.address < b := by
  cases t with
  | node a cs =>
    rw [placeTree]
    exact List.forall_mem_cons.mpr ⟨fun b hb => mem_roots_ge hb, place_lt _ _ cs⟩

/-- The nested nodes come after the one that they are nested in. -/
theorem place_lt (parent : Option ℕ) (base : ℕ) (ts : List (Rose α)) : ∀ p ∈ place parent base ts, ∀ b ∈ p.nested, p.address < b := by
  cases ts with
  | nil => simp [place]
  | cons t ts =>
    rw [place]
    exact List.forall_mem_append.mpr ⟨placeTree_lt _ _ t, place_lt _ _ ts⟩

end

mutual

theorem placeTree_perm (parent : Option ℕ) (base : ℕ) (t : Rose α) :
    (base :: (placeTree parent base t).flatMap Placed.nested).Perm (List.range' base (size t)) := by
  cases t with
  | node a cs =>
    rw [placeTree, List.flatMap_cons, size_node, List.range'_succ]
    exact (place_perm _ _ cs).cons base

/-- Each node is a root, or is nested in one node. -/
theorem place_perm (parent : Option ℕ) (base : ℕ) (ts : List (Rose α)) :
    (roots base ts ++ (place parent base ts).flatMap Placed.nested).Perm
      (List.range' base (forestSize ts)) := by
  cases ts with
  | nil => simp [roots, place]
  | cons t ts =>
    rw [roots, place, List.flatMap_append, forestSize_cons, ← List.range'_append_1]
    have hswap : (base :: roots (base + size t) ts ++ ((placeTree parent base t).flatMap Placed.nested ++
        (place parent (base + size t) ts).flatMap Placed.nested)).Perm
        ((base :: (placeTree parent base t).flatMap Placed.nested) ++
          (roots (base + size t) ts ++ (place parent (base + size t) ts).flatMap Placed.nested)) := by
      rw [List.cons_append, List.cons_append, ← List.append_assoc, ← List.append_assoc]
      exact (List.perm_append_comm.append_right _).cons base
    exact hswap.trans ((placeTree_perm _ _ t).append (place_perm _ _ ts))

end

mutual

theorem placeTree_parent (parent : Option ℕ) (base : ℕ) (t : Rose α) : ∀ p ∈ placeTree parent base t,
    (p.address = base ∧ p.parent = parent) ∨
      ∃ q ∈ placeTree parent base t, p.parent = some q.address ∧ p.address ∈ q.nested := by
  cases t with
  | node a cs =>
    rw [placeTree]
    refine List.forall_mem_cons.mpr ⟨.inl ⟨rfl, rfl⟩, fun p hp => .inr ?_⟩
    rcases place_parent _ _ cs p hp with ⟨hroot, hparent⟩ | ⟨q, hq, hparent, hnested⟩
    · exact ⟨_, List.mem_cons_self, hparent, hroot⟩
    · exact ⟨q, List.mem_cons_of_mem _ hq, hparent, hnested⟩

/-- A node that is no root has the node that it is nested in as its parent. -/
theorem place_parent (parent : Option ℕ) (base : ℕ) (ts : List (Rose α)) : ∀ p ∈ place parent base ts,
    (p.address ∈ roots base ts ∧ p.parent = parent) ∨
      ∃ q ∈ place parent base ts, p.parent = some q.address ∧ p.address ∈ q.nested := by
  cases ts with
  | nil => simp [place]
  | cons t ts =>
    rw [place, roots]
    refine List.forall_mem_append.mpr ⟨fun p hp => ?_, fun p hp => ?_⟩
    · rcases placeTree_parent _ _ t p hp with ⟨haddress, hparent⟩ | ⟨q, hq, hparent, hnested⟩
      · exact .inl ⟨haddress ▸ List.mem_cons_self, hparent⟩
      · exact .inr ⟨q, List.mem_append_left _ hq, hparent, hnested⟩
    · rcases place_parent _ _ ts p hp with ⟨hroot, hparent⟩ | ⟨q, hq, hparent, hnested⟩
      · exact .inl ⟨List.mem_cons_of_mem _ hroot, hparent⟩
      · exact .inr ⟨q, List.mem_append_right _ hq, hparent, hnested⟩

end

mutual

theorem placeTree_all {P : α → Prop} (parent : Option ℕ) (base : ℕ) (t : Rose α)
    (h : Rose.All (fun t => P t.label) t) : ∀ row ∈ placeTree parent base t, P row.label := by
  cases t with
  | node a cs =>
    rw [placeTree]
    exact List.forall_mem_cons.mpr ⟨h.root, place_all _ _ cs fun c hc => h.child hc⟩

theorem place_all {P : α → Prop} (parent : Option ℕ) (base : ℕ) (ts : List (Rose α))
    (h : ∀ t ∈ ts, Rose.All (fun t => P t.label) t) : ∀ row ∈ place parent base ts, P row.label := by
  cases ts with
  | nil => simp [place]
  | cons t ts =>
    obtain ⟨ht, hts⟩ := List.forall_mem_cons.mp h
    rw [place]
    exact List.forall_mem_append.mpr ⟨placeTree_all _ _ t ht, place_all _ _ ts hts⟩

end

/-- What is nested in the node at an address. -/
def nestedAt (rows : List (Placed α)) (a : ℕ) : List ℕ := (rows.map Placed.nested).getD a []

theorem place_getElem? (ts : List (Rose α)) {i : ℕ} {p : Placed α}
    (h : (place none 0 ts)[i]? = some p) : p.address = i := by
  have haddress : ((place none 0 ts).map Placed.address)[i]? = some p.address := by
    rw [List.getElem?_map, h, Option.map_some]
  rw [place_address, List.getElem?_eq_some_iff] at haddress
  obtain ⟨hlt, hi⟩ := haddress
  simpa using hi.symm

/-- The nodes of the trees are a forest. -/
theorem forest_place (ts : List (Rose α)) :
    Forests.Forest (roots 0 ts) (nestedAt (place none 0 ts)) := by
  apply Forests.Forest.of_table
  · rw [← List.flatMap_def]
    exact (place_perm none 0 ts).nodup_iff.mpr List.nodup_range'
  · intro a ha b hb
    rw [List.length_map] at ha
    rw [List.getD_eq_getElem?_getD, List.getElem?_map, List.getElem?_eq_getElem ha] at hb
    have hmem : (place none 0 ts)[a] ∈ place none 0 ts := List.getElem_mem ha
    have haddress : (place none 0 ts)[a].address = a := place_getElem? ts (List.getElem?_eq_getElem ha)
    have hlt := place_lt none 0 ts _ hmem b hb
    rwa [haddress] at hlt

theorem holds_placeTree {rows : List (Placed α)} {a : ℕ} {parent : Option ℕ} {l : α}
    {cs : List (Rose α)} (h : Holds rows a (placeTree parent a (.node l cs))) :
    rows[a]? = some ⟨a, l, parent, roots (a + 1) cs⟩ ∧
      Holds rows (a + 1) (place (some a) (a + 1) cs) := by
  rw [placeTree] at h
  exact holds_cons.mp h

theorem holds_place_cons {rows : List (Placed α)} {parent : Option ℕ} {base : ℕ} {t : Rose α}
    {ts : List (Rose α)} (h : Holds rows base (place parent base (t :: ts))) :
    Holds rows base (placeTree parent base t) ∧
      Holds rows (base + size t) (place parent (base + size t) ts) := by
  have hlength : (placeTree parent base t).length = size t := by
    simpa using congrArg List.length (placeTree_address parent base t)
  rw [place] at h
  obtain ⟨ht, hts⟩ := holds_append.mp h
  rw [hlength] at hts
  exact ⟨ht, hts⟩

theorem forall₂_roots {rows : List (Placed α)} {R : ℕ → Rose α → Prop} {parent : Option ℕ}
    {base : ℕ} {ts : List (Rose α)}
    (hR : ∀ t ∈ ts, ∀ a parent, Holds rows a (placeTree parent a t) → R a t)
    (h : Holds rows base (place parent base ts)) : List.Forall₂ R (roots base ts) ts := by
  induction ts generalizing base with
  | nil => exact .nil
  | cons t ts ih =>
    obtain ⟨ht, hts⟩ := holds_place_cons h
    exact .cons (hR t List.mem_cons_self _ _ ht) (ih (fun c hc => hR c (List.mem_cons_of_mem _ hc)) hts)

end Place

end Klish.TreeAddresses
