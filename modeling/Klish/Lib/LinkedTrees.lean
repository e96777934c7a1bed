import Klish.Lib.TreeAddresses

/-!
# Trees in memory

A node has the addresses of its parent, of the first node nested in it and of the node after it in
the list that it is in. Addresses are given in the order of a document: a tree has its nodes in
preorder, one after another. While a tree grows its last branch is open: a new node goes to the end
of the list that is nested in the innermost open one.
-/

namespace Klish.LinkedTrees

open TreeAddresses

universe u

structure Cell (α : Type u) where
  data : α
  parent : Option ℕ
  children : Option ℕ
  next : Option ℕ

variable {α : Type u}

section Layout

/-- Where a list that is at `base` begins, with what comes after it. -/
def first (base : ℕ) (after : Option ℕ) : List (Rose α) → Option ℕ
  | [] => after
  | _ :: _ => some base

mutual

/-- The nodes of a tree, the first of them at `base`. -/
def tree (parent : Option ℕ) (base : ℕ) (next : Option ℕ) : Rose α → List (Cell α)
  | .node a cs => ⟨a, parent, first (base + 1) none cs, next⟩ :: forest (some base) (base + 1) none cs

/-- The nodes of a list of trees that `after` comes after. -/
def forest (parent : Option ℕ) (base : ℕ) (after : Option ℕ) : List (Rose α) → List (Cell α)
  | [] => []
  | t :: ts => tree parent base (first (base + size t) after ts) t ++
      forest parent (base + size t) after ts

end

@[simp] theorem first_nil (base : ℕ) (after : Option ℕ) :
    first base after ([] : List (Rose α)) = after := rfl

@[simp] theorem first_cons (base : ℕ) (after : Option ℕ) (t : Rose α) (ts : List (Rose α)) :
    first base after (t :: ts) = some base := rfl

theorem first_after (base : ℕ) (ts : List (Rose α)) :
    first base (some (base + forestSize ts)) ts = some base := by
  cases ts <;> simp

@[simp] theorem first_append (base : ℕ) (after : Option ℕ) (ts us : List (Rose α)) :
    first base after (ts ++ us) = first base (first (base + forestSize ts) after us) ts := by
  cases ts <;> simp

@[simp] theorem forest_nil (parent : Option ℕ) (base : ℕ) (after : Option ℕ) :
    forest parent base after ([] : List (Rose α)) = [] := by
  rw [forest]

mutual

theorem length_tree (parent : Option ℕ) (base : ℕ) (next : Option ℕ) (t : Rose α) :
    (tree parent base next t).length = size t := by
  cases t with
  | node a cs => simp [tree, length_forest]

theorem length_forest (parent : Option ℕ) (base : ℕ) (after : Option ℕ) (ts : List (Rose α)) :
    (forest parent base after ts).length = forestSize ts := by
  cases ts with
  | nil => simp
  | cons t ts => simp [forest, length_tree, length_forest]

end

attribute [simp] length_tree length_forest

theorem forest_append (parent : Option ℕ) (base : ℕ) (after : Option ℕ) (ts us : List (Rose α)) :
    forest parent base after (ts ++ us) =
      forest parent base (first (base + forestSize ts) after us) ts ++
        forest parent (base + forestSize ts) after us := by
  induction ts generalizing base with
  | nil => simp
  | cons t ts ih => simp [forest, ih, Nat.add_assoc]

end Layout

section Reading

variable {cells : List (Cell α)} {base : ℕ} {parent after : Option ℕ}

theorem holds_forest_cons {a : α} {cs ts : List (Rose α)} :
    Holds cells base (forest parent base after (.node a cs :: ts)) ↔
      cells[base]? = some ⟨a, parent, first (base + 1) none cs,
        first (base + (forestSize cs + 1)) after ts⟩ ∧
      Holds cells (base + 1) (forest (some base) (base + 1) none cs) ∧
      Holds cells (base + (forestSize cs + 1)) (forest parent (base + (forestSize cs + 1)) after ts) := by
  have haddress : base + 1 + forestSize cs = base + (forestSize cs + 1) := by omega
  simp [forest, tree, holds_append, holds_cons, haddress]

/-- The addresses of a list, from the first one. -/
def siblings (cells : List (Cell α)) : ℕ → Option ℕ → List ℕ
  | 0, _ => []
  | _ + 1, none => []
  | fuel + 1, some a =>
    match cells[a]? with
    | none => []
    | some cell => a :: siblings cells fuel cell.next

/-- The trees of a list, from the first one. -/
def read (cells : List (Cell α)) : ℕ → Option ℕ → List (Rose α)
  | 0, _ => []
  | _ + 1, none => []
  | fuel + 1, some a =>
    match cells[a]? with
    | none => []
    | some cell => .node cell.data (read cells fuel cell.children) :: read cells fuel cell.next

@[simp] theorem siblings_none (fuel : ℕ) : siblings cells fuel none = [] := by
  cases fuel <;> rfl

@[simp] theorem read_none (fuel : ℕ) : read cells fuel none = [] := by
  cases fuel <;> rfl

theorem siblings_forest {ts : List (Rose α)} {fuel : ℕ}
    (h : Holds cells base (forest parent base none ts)) (hfuel : ts.length < fuel) :
    siblings cells fuel (first base none ts) = roots base ts := by
  induction ts generalizing base fuel with
  | nil => simp [roots]
  | cons t ts ih =>
    obtain ⟨a, cs⟩ := t
    obtain ⟨hcell, -, hts⟩ := holds_forest_cons.mp h
    obtain ⟨fuel, rfl⟩ : ∃ n, fuel = n + 1 := ⟨fuel - 1, by omega⟩
    have hlt : ts.length < fuel := by simpa using hfuel
    rw [first, siblings, hcell, roots, size_node, ← ih hts hlt]

/-- What is in memory is read back. -/
theorem read_forest {ts : List (Rose α)} {fuel : ℕ}
    (h : Holds cells base (forest parent base none ts)) (hfuel : forestSize ts < fuel) :
    read cells fuel (first base none ts) = ts := by
  induction fuel generalizing base parent ts with
  | zero => omega
  | succ fuel ih =>
    cases ts with
    | nil => simp
    | cons t ts =>
      obtain ⟨a, cs⟩ := t
      obtain ⟨hcell, hcs, hts⟩ := holds_forest_cons.mp h
      simp only [forestSize_cons, size_node] at hfuel
      have hnested : read cells fuel (first (base + 1) none cs) = cs := ih hcs (by omega)
      have hrest : read cells fuel (first (base + (forestSize cs + 1)) none ts) = ts :=
        ih hts (by omega)
      rw [first, read, hcell]
      dsimp only
      rw [hnested, hrest]

/-- The nodes of a list have the same parent. -/
theorem roots_parent {ts : List (Rose α)} (h : Holds cells base (forest parent base after ts)) :
    ∀ r ∈ roots base ts, ∃ cell, cells[r]? = some cell ∧ cell.parent = parent := by
  induction ts generalizing base with
  | nil => nofun
  | cons t ts ih =>
    obtain ⟨a, cs⟩ := t
    obtain ⟨hcell, -, hts⟩ := holds_forest_cons.mp h
    intro r hr
    rcases List.mem_cons.mp hr with rfl | hr
    · exact ⟨_, hcell, rfl⟩
    · rw [size_node] at hr
      exact ih hts r hr

/-- The parent of a nested node is the node that it is nested in. -/
theorem nested_parent {ts : List (Rose α)} (h : Holds cells base (forest parent base after ts))
    {p : ℕ} (hp : base ≤ p ∧ p < base + forestSize ts) {fuel : ℕ}
    (hfuel : forestSize ts < fuel) :
    ∃ cell, cells[p]? = some cell ∧ ∀ r ∈ siblings cells fuel cell.children,
      ∃ nested, cells[r]? = some nested ∧ nested.parent = some p := by
  induction hn : forestSize ts using Nat.strongRecOn generalizing base parent after ts with
  | ind n ih =>
    subst hn
    cases ts with
    | nil => simp at hp; omega
    | cons t ts =>
      obtain ⟨a, cs⟩ := t
      obtain ⟨hcell, hcs, hts⟩ := holds_forest_cons.mp h
      simp only [forestSize_cons, size_node] at hp hfuel ih
      have hlength := length_le_forestSize cs
      -- It is the first node, or nested in it, or is after it.
      by_cases hfirst : p = base
      · subst hfirst
        refine ⟨_, hcell, ?_⟩
        dsimp only
        rw [siblings_forest hcs (by omega)]
        exact roots_parent hcs
      by_cases hin : p < base + 1 + forestSize cs
      · exact ih (forestSize cs) (by omega) hcs (by omega) (by omega) rfl
      · exact ih (forestSize ts) (by omega) hts (by omega) (by omega) rfl

end Reading

section Growing

/-- The last node of a list gets a node after it, or the node begins the list. -/
def pushBack (cells : List (Cell α)) (head : Option ℕ) (node : ℕ) : List (Cell α) × Option ℕ :=
  match (siblings cells cells.length head).getLast? with
  | none => (cells, some node)
  | some prev => (cells.modify prev fun cell => { cell with next := some node }, head)

/-- Only the links of the nodes change. -/
theorem pushBack_data (cells : List (Cell α)) (head : Option ℕ) (node : ℕ) :
    (pushBack cells head node).1.map Cell.data = cells.map Cell.data := by
  unfold pushBack
  split
  · rfl
  · apply List.ext_getElem?
    intro i
    simp only [List.getElem?_map, List.getElem?_modify]
    split <;> cases cells[i]? <;> rfl

theorem modify_middle {β : Type u} (f : β → β) (before later : List β) (b : β) :
    (before ++ b :: later).modify before.length f = before ++ f b :: later := by
  induction before with
  | nil => simp
  | cons a before ih => simp [ih]

/-- A list gets linked to the node that comes after it. -/
theorem pushBack_forest (before later : List (Cell α)) (parent : Option ℕ) (ts : List (Rose α))
    (node : ℕ) (hlater : later ≠ []) :
    pushBack (before ++ forest parent before.length none ts ++ later) (first before.length none ts) node =
      (before ++ forest parent before.length (some node) ts ++ later,
        first before.length (some node) ts) := by
  rw [pushBack]
  rcases List.eq_nil_or_concat' ts with rfl | ⟨ts, ⟨a, cs⟩, rfl⟩
  · simp
  · have hfuel : (ts ++ [Rose.node a cs]).length <
        (before ++ forest parent before.length none (ts ++ [Rose.node a cs]) ++ later).length := by
      have hpos := List.length_pos_iff.mpr hlater
      have hle := length_le_forestSize (ts ++ [Rose.node a cs])
      simp only [List.length_append, length_forest] at hle ⊢
      omega
    rw [siblings_forest (holds_middle _ _ _) hfuel, roots_getLast?]
    have hmiddle := modify_middle (fun cell => { cell with next := some node })
      (before ++ forest parent before.length (some (before.length + forestSize ts)) ts)
      (forest (some (before.length + forestSize ts)) (before.length + forestSize ts + 1) none cs ++ later)
      ⟨a, parent, first (before.length + forestSize ts + 1) none cs, none⟩
    simp only [List.length_append, length_forest] at hmiddle
    simp only [List.append_assoc] at hmiddle
    simp [forest_append, forest, tree, hmiddle]

/-- The open nodes, the innermost one first, with the trees before each in its list. -/
abbrev Open (α : Type u) := List (α × List (Rose α))

/-- Where the list in the innermost open node begins. -/
def start : Open α → ℕ
  | [] => 0
  | (_, before) :: os => start os + forestSize before + 1

/-- The innermost open node. -/
def current : Open α → Option ℕ
  | [] => none
  | (_, before) :: os => some (start os + forestSize before)

/-- The nodes before the list in the innermost open node, which begins at `head`. -/
def spine : Open α → Option ℕ → List (Cell α)
  | [], _ => []
  | (a, before) :: os, head => spine os (some (start os)) ++
      forest (current os) (start os) (some (start os + forestSize before)) before ++
      [⟨a, current os, head, none⟩]

/-- The nodes in memory, with the list in the innermost open node. -/
def layout (os : Open α) (ts : List (Rose α)) : List (Cell α) :=
  spine os (first (start os) none ts) ++ forest (current os) (start os) none ts

/-- All the trees. -/
def close : Open α → List (Rose α) → List (Rose α)
  | [], ts => ts
  | (a, before) :: os, ts => close os (before ++ [.node a ts])

@[simp] theorem current_cons (a : α) (before : List (Rose α)) (os : Open α) :
    current ((a, before) :: os) = some (start os + forestSize before) := rfl

theorem length_spine (os : Open α) (head : Option ℕ) : (spine os head).length = start os := by
  induction os generalizing head with
  | nil => rfl
  | cons o os ih =>
    obtain ⟨a, before⟩ := o
    simp [spine, start, ih, Nat.add_assoc]

theorem first_close (o : α × List (Rose α)) (os : Open α) (ts : List (Rose α)) :
    first 0 none (close (o :: os) ts) = some 0 := by
  induction os generalizing o ts with
  | nil =>
    obtain ⟨a, before⟩ := o
    cases before <;> simp [close]
  | cons o' os ih =>
    obtain ⟨a, before⟩ := o
    exact ih o' _

/-- Closing a node leaves the memory as it is. -/
theorem layout_close (a : α) (before : List (Rose α)) (os : Open α) (ts : List (Rose α)) :
    layout ((a, before) :: os) ts = layout os (before ++ [.node a ts]) := by
  simp [layout, spine, start, current, forest_append, forest, tree, first_after]

/-- The nodes in memory are those of all the trees. -/
theorem layout_eq_forest (os : Open α) (ts : List (Rose α)) :
    layout os ts = forest none 0 none (close os ts) := by
  induction os generalizing ts with
  | nil => simp [layout, spine, current, start, close]
  | cons o os ih =>
    obtain ⟨a, before⟩ := o
    rw [layout_close, ih, close]

theorem length_layout (os : Open α) (ts : List (Rose α)) :
    (layout os ts).length = start os + forestSize ts := by
  simp [layout, length_spine]

/-- A new node opens when the list is linked to it. -/
theorem layout_open (a : α) (os : Open α) (ts : List (Rose α)) :
    layout ((a, ts) :: os) [] = spine os (some (start os)) ++
      forest (current os) (start os) (some (start os + forestSize ts)) ts ++ [⟨a, current os, none, none⟩] := by
  simp [layout, spine]

theorem pushBack_layout (os : Open α) (ts : List (Rose α)) (cell : Cell α) :
    pushBack (layout os ts ++ [cell]) (first (start os) none ts) (layout os ts).length =
      (spine os (first (start os) none ts) ++
        forest (current os) (start os) (some (start os + forestSize ts)) ts ++ [cell], some (start os)) := by
  have hpush := pushBack_forest (spine os (first (start os) none ts)) [cell] (current os) ts
    (layout os ts).length (List.cons_ne_nil _ _)
  rw [length_spine, length_layout, first_after] at hpush
  rw [length_layout]
  exact hpush

theorem getElem?_layout (a : α) (before : List (Rose α)) (os : Open α) (ts : List (Rose α))
    (later : List (Cell α)) : (layout ((a, before) :: os) ts ++ later)[start os + forestSize before]? =
      some ⟨a, current os, first (start ((a, before) :: os)) none ts, none⟩ := by
  have hlength : (spine os (some (start os)) ++
      forest (current os) (start os) (some (start os + forestSize before)) before).length =
        start os + forestSize before := by
    simp [length_spine]
  simp only [layout, spine, List.append_assoc (_ ++ _)]
  rw [List.getElem?_append_right (by omega), hlength]
  simp

theorem modify_spine (a : α) (before : List (Rose α)) (os : Open α) (head head' : Option ℕ)
    (later : List (Cell α)) :
    (spine ((a, before) :: os) head ++ later).modify (start os + forestSize before)
      (fun cell => { cell with children := head' }) = spine ((a, before) :: os) head' ++ later := by
  have hmiddle := modify_middle (fun cell => { cell with children := head' })
    (spine os (some (start os)) ++
      forest (current os) (start os) (some (start os + forestSize before)) before) later
    ⟨a, current os, head, none⟩
  simp only [List.length_append, length_spine, length_forest] at hmiddle
  simpa [spine] using hmiddle

end Growing

end Klish.LinkedTrees
