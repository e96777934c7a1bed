import Mathlib.Data.List.Basic

/-!
# Trees with ordered children

A node has a label and a list of children. What holds of a node once it holds of all its children
holds of every tree.
-/

namespace Klish

universe u

inductive Rose (α : Type u) where
  | node (label : α) (children : List (Rose α))

namespace Rose

variable {α : Type u}

def label : Rose α → α
  | node a _ => a

def children : Rose α → List (Rose α)
  | node _ cs => cs

@[simp] theorem label_node (a : α) (cs : List (Rose α)) : (node a cs).label = a := rfl

@[simp] theorem children_node (a : α) (cs : List (Rose α)) : (node a cs).children = cs := rfl

theorem sizeOf_child {a : α} {cs : List (Rose α)} {c : Rose α} (h : c ∈ cs) :
    sizeOf c < sizeOf (node a cs) := by
  have hlt := List.sizeOf_lt_of_mem h
  rw [node.sizeOf_spec]
  omega

@[elab_as_elim] theorem ind {motive : Rose α → Prop}
    (hnode : ∀ a cs, (∀ c ∈ cs, motive c) → motive (node a cs)) (t : Rose α) : motive t := by
  match t with
  | node a cs => exact hnode a cs fun c hc => ind hnode c
termination_by sizeOf t
decreasing_by exact sizeOf_child hc

/-- The property holds of the tree and of every tree below it. -/
inductive All (P : Rose α → Prop) : Rose α → Prop
  | node {a : α} {cs : List (Rose α)} (here : P (node a cs)) (below : ∀ c ∈ cs, All P c) :
      All P (node a cs)

variable {P Q : Rose α → Prop}

theorem All.root {t : Rose α} (h : All P t) : P t := by
  cases h with
  | node here _ => exact here

theorem All.child {t c : Rose α} (h : All P t) (hc : c ∈ t.children) : All P c := by
  cases h with
  | node _ below => exact below c hc

end Rose

end Klish
