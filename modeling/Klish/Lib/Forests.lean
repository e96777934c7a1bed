import Mathlib.Data.List.Nodup
import Mathlib.Data.List.Perm.Lattice
import Mathlib.Logic.Relation
import Mathlib.Order.Basic

/-!
# Forests

Each node of a forest has one parent, and all branches end. A walk takes the nodes in preorder
from a work list, but some nodes stop it: it does not go below them.
-/

namespace Klish.Forests

open Relation

variable {α : Type*} {roots : List α} {next : α → List α} {stop : α → Bool} {a b c : α}

structure Forest (roots : List α) (next : α → List α) : Prop where
  grounded : ∀ a ∈ roots, Acc (fun b a => b ∈ next a) a
  parent : ∀ {a b c}, c ∈ next a → c ∈ next b → a = b
  root : ∀ {a b}, b ∈ roots → b ∉ next a
  nodup : ∀ a, (next a).Nodup
  nodupRoots : roots.Nodup

/-- The nodes that can be reached from the roots. -/
inductive Reached (roots : List α) (next : α → List α) : α → Prop
  | root {a : α} (h : a ∈ roots) : Reached roots next a
  | child {a b : α} (h : Reached roots next a) (hb : b ∈ next a) : Reached roots next b

theorem Reached.mono {roots' : List α} (h : Reached roots next a) (hsub : roots ⊆ roots') :
    Reached roots' next a := by
  induction h with
  | root hroot => exact .root (hsub hroot)
  | child _ hb ih => exact .child ih hb

/-- A node is in the tree of one of the roots. -/
theorem Reached.tree (h : Reached roots next a) : ∃ r ∈ roots, Reached [r] next a := by
  induction h with
  | @root a hroot => exact ⟨a, hroot, .root List.mem_cons_self⟩
  | child _ hb ih =>
    obtain ⟨r, hr, hreached⟩ := ih
    exact ⟨r, hr, .child hreached hb⟩

/-- The trees of two roots have no node in common. -/
theorem Forest.tree_unique (F : Forest roots next) {r r' : α} (hr : r ∈ roots) (hr' : r' ∈ roots)
    (ha : Reached [r] next a) (ha' : Reached [r'] next a) : r = r' := by
  induction ha with
  | @root a hroot =>
    obtain rfl := List.mem_singleton.mp hroot
    cases ha' with
    | root hroot' => exact List.mem_singleton.mp hroot'
    | child _ ha => exact absurd ha (F.root hr)
  | @child a b _ hb ih =>
    cases ha' with
    | root hroot' =>
      obtain rfl := List.mem_singleton.mp hroot'
      exact absurd hb (F.root hr')
    | @child c _ hc hb' =>
      obtain rfl := F.parent hb hb'
      exact ih hc

theorem Forest.perm {roots' : List α} (F : Forest roots next) (h : roots'.Perm roots) :
    Forest roots' next where
  grounded a ha := F.grounded a (h.mem_iff.mp ha)
  parent := F.parent
  root hb := F.root (h.mem_iff.mp hb)
  nodup := F.nodup
  nodupRoots := h.nodup_iff.mpr F.nodupRoots

/-- The nodes are numbers and a table lists what is nested in each, always numbers that are greater. -/
theorem Forest.of_table {roots : List ℕ} {table : List (List ℕ)}
    (hnodup : (roots ++ table.flatten).Nodup)
    (hlt : ∀ a < table.length, ∀ b ∈ table.getD a [], a < b) :
    Forest roots fun a => table.getD a [] := by
  obtain ⟨hroots, hflat, hdisjoint⟩ := List.nodup_append'.mp hnodup
  obtain ⟨hlists, hpairs⟩ := List.nodup_flatten.mp hflat
  have hmem : ∀ {a b}, b ∈ table.getD a [] → ∃ h : a < table.length, b ∈ table[a] := by
    intro a b hb
    by_cases h : a < table.length
    · exact ⟨h, by simpa [List.getD_eq_getElem?_getD, h] using hb⟩
    · simp [List.getD_eq_getElem?_getD, h] at hb
  constructor
  · intro a _
    have hsub : Subrelation (fun b a => b ∈ table.getD a [])
        (measure fun a => table.length - a).rel := by
      intro b a hb
      obtain ⟨h, -⟩ := hmem hb
      have hgreater := hlt a h b hb
      show table.length - b < table.length - a
      omega
    exact (hsub.wf (measure fun a => table.length - a).wf).apply a
  · intro a b c ha hb
    obtain ⟨hlta, ha⟩ := hmem ha
    obtain ⟨hltb, hb⟩ := hmem hb
    rcases Nat.lt_trichotomy a b with hab | rfl | hab
    · exact absurd hb (List.pairwise_iff_getElem.mp hpairs a b hlta hltb hab ha)
    · rfl
    · exact absurd ha (List.pairwise_iff_getElem.mp hpairs b a hltb hlta hab hb)
  · intro a b hroot hb
    obtain ⟨hlt, hb⟩ := hmem hb
    exact hdisjoint hroot (List.mem_flatten.mpr ⟨_, List.getElem_mem hlt, hb⟩)
  · intro a
    by_cases h : a < table.length
    · have hget : table.getD a [] = table[a] := by simp [List.getD_eq_getElem?_getD, h]
      rw [hget]
      exact hlists _ (List.getElem_mem h)
    · have hget : table.getD a [] = [] := by simp [List.getD_eq_getElem?_getD, h]
      rw [hget]
      exact List.nodup_nil
  · exact hroots

/-- Where the walk goes on from a node. -/
def spread (stop : α → Bool) (next : α → List α) (a : α) : List α :=
  if stop a then [] else next a

theorem mem_spread : b ∈ spread stop next a ↔ stop a = false ∧ b ∈ next a := by
  cases h : stop a <;> simp [spread, h]

/-- The node is strictly below a node that stops the walk. -/
def Under (stop : α → Bool) (next : α → List α) (b : α) : Prop :=
  ∃ a, stop a = true ∧ TransGen (fun a b => b ∈ next a) a b

theorem Under.child (h : Under stop next a) (hb : b ∈ next a) : Under stop next b := by
  obtain ⟨k, hstop, hpath⟩ := h
  exact ⟨k, hstop, hpath.tail hb⟩

section Walk

variable (F : Forest roots next)
include F

/-- The parent of a node that is under a stop is the stop, or is under it. -/
theorem Forest.stop_or_under (h : Under stop next b) (hb : b ∈ next a) :
    stop a = true ∨ Under stop next a := by
  obtain ⟨k, hstop, hpath⟩ := h
  obtain ⟨c, hkc, hcb⟩ := TransGen.tail'_iff.mp hpath
  obtain rfl : c = a := F.parent hcb hb
  rcases reflTransGen_iff_eq_or_transGen.mp hkc with rfl | hkc
  · exact .inl hstop
  · exact .inr ⟨k, hstop, hkc⟩

theorem Forest.not_under_root (hb : b ∈ roots) : ¬ Under stop next b := by
  rintro ⟨k, -, hpath⟩
  obtain ⟨c, -, hcb⟩ := TransGen.tail'_iff.mp hpath
  exact F.root hb hcb

theorem Forest.not_under (h : Reached roots (spread stop next) b) : ¬ Under stop next b := by
  induction h with
  | root hroot => exact F.not_under_root hroot
  | child _ hb ih =>
    intro hunder
    obtain ⟨hgo, hb⟩ := mem_spread.mp hb
    rcases F.stop_or_under hunder hb with hstop | hunder
    · rw [hstop] at hgo
      cases hgo
    · exact ih hunder

/-- The walk comes to the nodes that are not under a stop. -/
theorem Forest.reached_iff (h : Reached roots next b) :
    Reached roots (spread stop next) b ↔ ¬ Under stop next b := by
  refine ⟨F.not_under, ?_⟩
  induction h with
  | root hroot => exact fun _ => .root hroot
  | @child a b _ hb ih =>
    intro hnot
    have ha : Reached roots (spread stop next) a := ih fun hunder => hnot (hunder.child hb)
    apply ha.child
    rw [mem_spread]
    refine ⟨?_, hb⟩
    by_contra hstop
    exact hnot ⟨a, by simpa using hstop, .single hb⟩

/-- From a stop down to a node with no other stop on the way. -/
def Below (stop : α → Bool) (next : α → List α) : α → α → Prop :=
  ReflTransGen fun a b => b ∈ next a ∧ stop b = false

omit F in
theorem Below.under (h : Below stop next a b) (hstop : stop a = true) (hgo : stop b = false) :
    Under stop next b := by
  have hpath : ReflTransGen (fun a b => b ∈ next a) a b := ReflTransGen.mono (fun _ _ hab => hab.1) _ _ h
  rcases reflTransGen_iff_eq_or_transGen.mp hpath with rfl | hpath
  · rw [hstop] at hgo
    cases hgo
  · exact ⟨a, hstop, hpath⟩

omit F in
/-- Only the stop and the nodes that do not stop the walk count for what is below a stop. -/
theorem Below.congr {next' : α → List α} (hnext : ∀ c, c = a ∨ stop c = false → next c = next' c)
    (h : Below stop next a b) : Below stop next' a b := by
  induction h with
  | refl => exact .refl
  | @tail c d hac hcd ih =>
    apply ih.tail
    have hc : c = a ∨ stop c = false := by
      rcases hac.cases_tail with rfl | ⟨_, _, -, hgo⟩
      · exact .inl rfl
      · exact .inr hgo
    rw [← hnext c hc]
    exact hcd

/-- A node under a stop has, on the way from the roots, either a single stop that the walk comes
to, or one that is itself under a stop. -/
theorem Forest.below_or_twice (h : Reached roots next b) (hunder : Under stop next b)
    (hgo : stop b = false) :
    (∃ a, Reached roots (spread stop next) a ∧ stop a = true ∧ Below stop next a b) ∨
      ∃ a, stop a = true ∧ Under stop next a ∧ TransGen (fun a b => b ∈ next a) a b := by
  induction h with
  | root hroot => exact absurd hunder (F.not_under_root hroot)
  | @child a b ha hb ih =>
    cases hstop : stop a with
    | true =>
      by_cases hunder' : Under stop next a
      · exact .inr ⟨a, hstop, hunder', .single hb⟩
      · exact .inl ⟨a, (F.reached_iff ha).mpr hunder', hstop, .single ⟨hb, hgo⟩⟩
    | false =>
      have hunder' : Under stop next a := by
        rcases F.stop_or_under hunder hb with hstop' | hunder'
        · rw [hstop] at hstop'
          cases hstop'
        · exact hunder'
      rcases ih hunder' hstop with ⟨k, hk, hstop, hka⟩ | ⟨k, hstop, hk, hka⟩
      · exact .inl ⟨k, hk, hstop, hka.tail ⟨hb, hgo⟩⟩
      · exact .inr ⟨k, hstop, hk, hka.tail hb⟩

/-- It does not have both. -/
theorem Forest.not_below_and_twice {k : α} (ha : Reached roots (spread stop next) a)
    (hab : Below stop next a b) (hstop : stop k = true) (hk : Under stop next k)
    (hkb : TransGen (fun a b => b ∈ next a) k b) : False := by
  induction hab with
  | refl => exact F.not_under ha ⟨k, hstop, hkb⟩
  | @tail c b hac hcb ih =>
    obtain ⟨d, hkd, hdb⟩ := TransGen.tail'_iff.mp hkb
    obtain rfl : d = c := F.parent hdb hcb.1
    rcases reflTransGen_iff_eq_or_transGen.mp hkd with rfl | hkd
    · rcases hac.cases_tail with rfl | ⟨_, _, -, hgo⟩
      · exact F.not_under ha hk
      · rw [hstop] at hgo
        cases hgo
    · exact ih hkd

end Walk

/-- The state of a walk: the nodes still to come and those it has been to. -/
structure Preorder (roots : List α) (next : α → List α) (work done : List α) : Prop where
  nodup : (done ++ work).Nodup
  closed : ∀ a ∈ done, ∀ b ∈ next a, b ∈ done ++ work
  begun : ∀ a ∈ roots, a ∈ done ++ work
  origin : ∀ a ∈ done ++ work, a ∈ roots ∨ ∃ d ∈ done, a ∈ next d

theorem Preorder.start (h : roots.Nodup) : Preorder roots next roots [] where
  nodup := h
  closed _ ha := nomatch ha
  begun _ ha := ha
  origin _ ha := .inl ha

/-- The node that the walk takes from its list is new to it. -/
theorem Preorder.fresh {work done : List α} (h : Preorder roots next (a :: work) done) :
    a ∉ done := by
  intro ha
  exact (List.nodup_append.mp h.nodup).2.2 a ha a List.mem_cons_self rfl

theorem Preorder.step (F : Forest roots next) {work done : List α}
    (h : Preorder roots (spread stop next) (a :: work) done) :
    Preorder roots (spread stop next) (spread stop next a ++ work) (done ++ [a]) := by
  have hmem : ∀ b, b ∈ done ++ [a] ++ (spread stop next a ++ work) ↔
      b ∈ done ++ a :: work ∨ b ∈ spread stop next a := by
    intro b
    simp only [List.mem_append, List.mem_cons, List.not_mem_nil, or_false]
    tauto
  have hnew : ∀ b ∈ spread stop next a, b ∉ done ++ a :: work := by
    intro b hb hold
    have hnext := (mem_spread.mp hb).2
    rcases h.origin b hold with hroot | ⟨d, hd, hbd⟩
    · exact F.root hroot hnext
    · obtain rfl : d = a := F.parent (mem_spread.mp hbd).2 hnext
      exact h.fresh hd
  refine ⟨?_, fun d hd b hb => ?_, fun b hb => (hmem b).mpr (.inl (h.begun b hb)), fun b hb => ?_⟩
  · have hspread : (spread stop next a).Nodup := by
      unfold spread
      split
      · exact List.nodup_nil
      · exact F.nodup a
    have hall : (spread stop next a ++ (done ++ a :: work)).Nodup := by
      rw [List.nodup_append]
      refine ⟨hspread, h.nodup, ?_⟩
      rintro b hb _ hold rfl
      exact hnew b hb hold
    have hsplit : done ++ [a] ++ (spread stop next a ++ work) =
        done ++ a :: (spread stop next a ++ work) := by simp
    rw [hsplit]
    apply hall.perm
    apply List.perm_append_comm.trans
    rw [List.append_assoc, List.cons_append]
    exact (List.perm_append_comm.cons a).append_left done
  · rcases List.mem_append.mp hd with hd | hd
    · exact (hmem b).mpr (.inl (h.closed d hd b hb))
    · obtain rfl := List.mem_singleton.mp hd
      exact (hmem b).mpr (.inr hb)
  · rcases (hmem b).mp hb with hold | hb
    · rcases h.origin b hold with hroot | ⟨d, hd, hbd⟩
      · exact .inl hroot
      · exact .inr ⟨d, List.mem_append_left _ hd, hbd⟩
    · exact .inr ⟨a, List.mem_append_right _ (List.mem_singleton_self a), hb⟩

/-- The walk has been to no other nodes than those that can be reached. -/
theorem Preorder.reached {work done : List α} (h : Preorder roots next work done)
    (hdone : ∀ a ∈ done, Reached roots next a) (ha : a ∈ work) : Reached roots next a := by
  rcases h.origin a (List.mem_append_right _ ha) with hroot | ⟨d, hd, had⟩
  · exact .root hroot
  · exact (hdone d hd).child had

/-- The walk has not been in the tree of a root that is still to come. -/
theorem Preorder.tree_fresh (F : Forest roots next) {work done : List α}
    (h : Preorder roots (spread stop next) work done) (hwork : a ∈ work)
    (hb : Reached [a] next b) : b ∉ done := by
  induction hb with
  | root hroot =>
    rw [List.mem_singleton.mp hroot]
    intro hdone
    exact (List.nodup_append.mp h.nodup).2.2 a hdone a hwork rfl
  | @child b c _ hc ih =>
    intro hdone
    rcases h.origin c (List.mem_append_left _ hdone) with hroot | ⟨d, hd, hcd⟩
    · exact F.root hroot hc
    · obtain rfl : d = b := F.parent (mem_spread.mp hcd).2 hc
      exact ih hd

/-- When its list is empty the walk has been to all nodes that can be reached. -/
theorem Preorder.complete {done : List α} (h : Preorder roots next [] done)
    (ha : Reached roots next a) : a ∈ done := by
  induction ha with
  | root hroot => simpa using h.begun _ hroot
  | child _ hb ih => simpa using h.closed _ ih _ hb

end Klish.Forests
