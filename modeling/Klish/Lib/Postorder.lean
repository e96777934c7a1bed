import Klish.Lib.Forests

/-!
# Bottom-up walks

A walk takes each node after those that are next to it. In a forest it comes to each node of a tree
once.
-/

namespace Klish.Forests

open Relation

variable {α : Type*} {roots : List α} {next : α → List α} {stop : α → Bool} {a b c : α}

section Walk

def postorderEach (walk : α → Option (List α)) : List α → Option (List α)
  | [] => some []
  | a :: as => (walk a).bind fun l => (postorderEach walk as).map (l ++ ·)

/-- The nodes of a tree, each after those below it. -/
def postorder (next : α → List α) : ℕ → α → Option (List α)
  | 0, _ => none
  | fuel + 1, a => (postorderEach (postorder next fuel) (next a)).map (· ++ [a])

theorem postorderEach_mono {walk walk' : α → Option (List α)} {as l : List α}
    (h : postorderEach walk as = some l) (hwalk : ∀ a l, walk a = some l → walk' a = some l) :
    postorderEach walk' as = some l := by
  induction as generalizing l with
  | nil => exact h
  | cons a as ih =>
    obtain ⟨l₁, h₁, h⟩ := Option.bind_eq_some_iff.mp h
    obtain ⟨l₂, h₂, rfl⟩ := Option.map_eq_some_iff.mp h
    rw [postorderEach, hwalk a l₁ h₁, Option.bind_some, ih h₂]
    rfl

/-- More fuel gives the same nodes. -/
theorem postorder_mono {fuel fuel' : ℕ} {l : List α} (h : postorder next fuel a = some l)
    (hle : fuel ≤ fuel') : postorder next fuel' a = some l := by
  induction fuel generalizing fuel' a l with
  | zero => cases h
  | succ fuel ih =>
    obtain ⟨fuel', rfl⟩ : ∃ n, fuel' = n + 1 := ⟨fuel' - 1, by omega⟩
    obtain ⟨l', h', rfl⟩ := Option.map_eq_some_iff.mp h
    rw [postorder, postorderEach_mono h' fun b l hb => ih hb (by omega)]
    rfl

theorem postorderEach_returns {as : List α} (h : ∀ a ∈ as, ∃ fuel l, postorder next fuel a = some l) :
    ∃ fuel l, postorderEach (postorder next fuel) as = some l := by
  induction as with
  | nil => exact ⟨0, [], rfl⟩
  | cons a as ih =>
    obtain ⟨n, l, hl⟩ := h a List.mem_cons_self
    obtain ⟨n', l', hl'⟩ := ih fun b hb => h b (List.mem_cons_of_mem a hb)
    refine ⟨max n n', l ++ l', ?_⟩
    have hrest : postorderEach (postorder next (max n n')) as = some l' :=
      postorderEach_mono hl' fun b l hb => postorder_mono hb (Nat.le_max_right n n')
    rw [postorderEach, postorder_mono hl (Nat.le_max_left n n'), Option.bind_some, hrest]
    rfl

/-- The walk comes to an end where all branches do. -/
theorem postorder_returns (h : Acc (fun b a => b ∈ next a) a) :
    ∃ fuel l, postorder next fuel a = some l := by
  induction h with
  | intro a _ ih =>
    obtain ⟨n, l, hl⟩ := postorderEach_returns ih
    refine ⟨n + 1, l ++ [a], ?_⟩
    rw [postorder, hl]
    rfl

end Walk

section Nodes

theorem reached_nil : ¬ Reached [] next b := by
  intro h
  induction h with
  | root hroot => exact List.not_mem_nil hroot
  | child _ _ ih => exact ih

theorem reached_cons {as : List α} :
    Reached (a :: as) next b ↔ Reached [a] next b ∨ Reached as next b := by
  constructor
  · intro h
    induction h with
    | root hroot =>
      rcases List.mem_cons.mp hroot with rfl | hroot
      · exact .inl (.root List.mem_cons_self)
      · exact .inr (.root hroot)
    | child _ hb ih => exact ih.imp (fun h => h.child hb) fun h => h.child hb
  · rintro (h | h)
    · exact h.mono (List.cons_subset_cons a (List.nil_subset as))
    · exact h.mono (List.subset_cons_self a as)

theorem reached_singleton : Reached [a] next b ↔ b = a ∨ Reached (next a) next b := by
  constructor
  · intro h
    induction h with
    | root hroot => exact .inl (List.mem_singleton.mp hroot)
    | child _ hb ih =>
      rcases ih with rfl | ih
      · exact .inr (.root hb)
      · exact .inr (ih.child hb)
  · rintro (rfl | h)
    · exact .root List.mem_cons_self
    · induction h with
      | root hroot => exact (Reached.root List.mem_cons_self).child hroot
      | child _ hb ih => exact ih.child hb

theorem mem_postorderEach {walk : α → Option (List α)} {as l : List α}
    (hwalk : ∀ a ∈ as, ∀ l, walk a = some l → (b ∈ l ↔ Reached [a] next b))
    (h : postorderEach walk as = some l) : b ∈ l ↔ Reached as next b := by
  induction as generalizing l with
  | nil =>
    cases h
    exact iff_of_false List.not_mem_nil reached_nil
  | cons a as ih =>
    obtain ⟨l₁, h₁, h⟩ := Option.bind_eq_some_iff.mp h
    obtain ⟨l₂, h₂, rfl⟩ := Option.map_eq_some_iff.mp h
    rw [List.mem_append, reached_cons, hwalk a List.mem_cons_self l₁ h₁,
      ih (fun b hb => hwalk b (List.mem_cons_of_mem a hb)) h₂]

/-- The walk comes to the nodes of the tree. -/
theorem mem_postorder {fuel : ℕ} {l : List α} (h : postorder next fuel a = some l) :
    b ∈ l ↔ Reached [a] next b := by
  induction fuel generalizing a l with
  | zero => cases h
  | succ fuel ih =>
    obtain ⟨l', h', rfl⟩ := Option.map_eq_some_iff.mp h
    rw [List.mem_append, List.mem_singleton, reached_singleton,
      mem_postorderEach (fun _ _ _ => ih) h', or_comm]

end Nodes

section Once

/-- Of two nodes above a third one, one is above the other. -/
theorem Forest.above (F : Forest roots next) (ha : Reached [a] next b) (hc : Reached [c] next b) :
    Reached [a] next c ∨ Reached [c] next a := by
  induction ha with
  | root hroot =>
    obtain rfl := List.mem_singleton.mp hroot
    exact .inr hc
  | @child d b had hb ih =>
    rcases hc with hroot | ⟨hc, hb'⟩
    · obtain rfl := List.mem_singleton.mp hroot
      exact .inl (had.child hb)
    · obtain rfl := F.parent hb hb'
      exact ih hc

/-- The trees of the nodes have nothing in common. -/
structure Apart (next : α → List α) (as : List α) : Prop where
  nodup : as.Nodup
  eq : ∀ a ∈ as, ∀ b ∈ as, Reached [a] next b → a = b

theorem Apart.tail {as : List α} (h : Apart next (a :: as)) : Apart next as where
  nodup := (List.nodup_cons.mp h.nodup).2
  eq b hb c hc := h.eq b (List.mem_cons_of_mem a hb) c (List.mem_cons_of_mem a hc)

theorem Apart.disjoint (F : Forest roots next) {as : List α} (h : Apart next as) (ha : a ∈ as)
    (hc : c ∈ as) (hab : Reached [a] next b) (hcb : Reached [c] next b) : a = c := by
  rcases F.above hab hcb with hac | hca
  · exact h.eq a ha c hc hac
  · exact (h.eq c hc a ha hca).symm

theorem Forest.apart (F : Forest roots next) : Apart next roots where
  nodup := F.nodupRoots
  eq a _ b hb h := by
    rcases h with hroot | ⟨_, hnext⟩
    · exact (List.mem_singleton.mp hroot).symm
    · exact absurd hnext (F.root hb)

/-- No node is below itself. -/
theorem not_below_self (h : Acc (fun b a => b ∈ next a) a) : ¬ Reached (next a) next a := by
  induction h with
  | intro a _ ih =>
    intro hcycle
    obtain ⟨b, hb, hba⟩ := hcycle.tree
    apply ih b hb
    rcases reached_singleton.mp hba with rfl | hba
    · exact hcycle
    · exact hba.child hb

theorem Forest.apart_nested (F : Forest roots next) (h : Acc (fun b a => b ∈ next a) a) :
    Apart next (next a) where
  nodup := F.nodup a
  eq b hb c hc hbc := by
    rcases hbc with hroot | ⟨hbd, hcd⟩
    · exact (List.mem_singleton.mp hroot).symm
    · obtain rfl := F.parent hc hcd
      have hcycle : Reached (next a) next a := hbd.mono (List.cons_subset.mpr ⟨hb, List.nil_subset _⟩)
      exact absurd hcycle (not_below_self h)

theorem postorderEach_nodup (F : Forest roots next) {walk : α → Option (List α)} {as l : List α}
    (hmem : ∀ a l b, walk a = some l → (b ∈ l ↔ Reached [a] next b))
    (hnodup : ∀ a ∈ as, ∀ l, walk a = some l → l.Nodup)
    (hapart : Apart next as) (h : postorderEach walk as = some l) : l.Nodup := by
  induction as generalizing l with
  | nil =>
    cases h
    exact List.nodup_nil
  | cons a as ih =>
    obtain ⟨l₁, h₁, h⟩ := Option.bind_eq_some_iff.mp h
    obtain ⟨l₂, h₂, rfl⟩ := Option.map_eq_some_iff.mp h
    have hrest : l₂.Nodup := ih (fun b hb => hnodup b (List.mem_cons_of_mem a hb)) hapart.tail h₂
    refine List.nodup_append'.mpr ⟨hnodup a List.mem_cons_self l₁ h₁, hrest, fun b hb hb₂ => ?_⟩
    rw [hmem a l₁ b h₁] at hb
    rw [mem_postorderEach (fun c _ l => hmem c l b) h₂] at hb₂
    obtain ⟨c, hc, hcb⟩ := hb₂.tree
    obtain rfl : a = c :=
      hapart.disjoint F List.mem_cons_self (List.mem_cons_of_mem a hc) hb hcb
    exact (List.nodup_cons.mp hapart.nodup).1 hc

/-- It comes to no node twice. -/
theorem postorder_nodup (F : Forest roots next) (hacc : Acc (fun b a => b ∈ next a) a)
    {fuel : ℕ} {l : List α} (h : postorder next fuel a = some l) : l.Nodup := by
  induction hacc generalizing fuel l with
  | intro a hacc ih =>
    cases fuel with
    | zero => cases h
    | succ fuel =>
      obtain ⟨l', h', rfl⟩ := Option.map_eq_some_iff.mp h
      have hacc' : Acc (fun b a => b ∈ next a) a := Acc.intro a hacc
      have hbelow : l'.Nodup := postorderEach_nodup F (fun _ _ _ => mem_postorder)
        (fun b hb _ => ih b hb) (F.apart_nested hacc') h'
      refine List.nodup_append'.mpr ⟨hbelow, List.nodup_singleton a, fun b hb hba => ?_⟩
      obtain rfl := List.mem_singleton.mp hba
      rw [mem_postorderEach (fun _ _ _ => mem_postorder) h'] at hb
      exact not_below_self hacc' hb

/-- The walk over the trees of nodes that are apart comes to each node once. -/
theorem Forest.postorder (F : Forest roots next) {as : List α} (hapart : Apart next as)
    (hacc : ∀ a ∈ as, Acc (fun b a => b ∈ next a) a) :
    (∃ fuel l, postorderEach (postorder next fuel) as = some l) ∧
      ∀ fuel l, postorderEach (postorder next fuel) as = some l →
        l.Nodup ∧ ∀ b, b ∈ l ↔ Reached as next b := by
  refine ⟨postorderEach_returns fun a ha => postorder_returns (hacc a ha), fun fuel l h => ⟨?_, ?_⟩⟩
  · exact postorderEach_nodup F (fun _ _ _ => mem_postorder)
      (fun a ha _ => postorder_nodup F (hacc a ha)) hapart h
  · exact fun b => mem_postorderEach (fun _ _ _ => mem_postorder) h

end Once

section Stops

variable {stop' : α → Bool}

theorem Reached.of_spread (h : Reached roots (spread stop next) b) : Reached roots next b := by
  induction h with
  | root hroot => exact .root hroot
  | child _ hb ih => exact ih.child (mem_spread.mp hb).2

/-- Some of the stops let the walk through. It comes to the trees below these too. -/
theorem reached_through (hless : ∀ a, stop a = false → stop' a = false)
    (hopen : ∀ a, stop a = true → stop' a = false → Reached roots (spread stop next) a) :
    Reached roots (spread stop' next) b ↔ Reached roots (spread stop next) b ∨
      ∃ a, stop a = true ∧ stop' a = false ∧ Reached (next a) (spread stop next) b := by
  have hmore : ∀ {as c}, Reached as (spread stop next) c → Reached as (spread stop' next) c := by
    intro as c h
    induction h with
    | root hroot => exact .root hroot
    | child _ hb ih =>
      obtain ⟨hgo, hb⟩ := mem_spread.mp hb
      exact ih.child (mem_spread.mpr ⟨hless _ hgo, hb⟩)
  constructor
  · intro h
    induction h with
    | root hroot => exact .inl (.root hroot)
    | @child a b _ hb ih =>
      obtain ⟨hgo', hb⟩ := mem_spread.mp hb
      cases hstop : stop a with
      | true => exact .inr ⟨a, hstop, hgo', .root hb⟩
      | false =>
        have hb' : b ∈ spread stop next a := mem_spread.mpr ⟨hstop, hb⟩
        rcases ih with ih | ⟨c, hstop, hgo, ih⟩
        · exact .inl (ih.child hb')
        · exact .inr ⟨c, hstop, hgo, ih.child hb'⟩
  · rintro (h | ⟨a, hstop, hgo, h⟩)
    · exact hmore h
    · have ha := hmore (hopen a hstop hgo)
      have hbelow := hmore h
      clear h
      induction hbelow with
      | root hroot => exact ha.child (mem_spread.mpr ⟨hgo, hroot⟩)
      | child _ hb ih => exact ih.child hb

theorem acc_spread (h : Acc (fun b a => b ∈ next a) a) :
    Acc (fun b a => b ∈ spread stop next a) a :=
  Subrelation.accessible (fun hb => (mem_spread.mp hb).2) h

theorem Forest.acc (F : Forest roots next) (h : Reached roots next a) :
    Acc (fun b a => b ∈ next a) a := by
  induction h with
  | root hroot => exact F.grounded _ hroot
  | child _ hb ih => exact ih.inv hb

/-- Where some nodes stop the walk, what it comes to is a forest too. -/
theorem Forest.spread (F : Forest roots next) : Forest roots (spread stop next) where
  grounded a ha := acc_spread (F.grounded a ha)
  parent ha hb := F.parent (mem_spread.mp ha).2 (mem_spread.mp hb).2
  root hb hc := F.root hb (mem_spread.mp hc).2
  nodup a := by
    unfold Forests.spread
    split
    · exact List.nodup_nil
    · exact F.nodup a
  nodupRoots := F.nodupRoots

/-- What is in the trees below a node, from one stop to the next ones. -/
theorem Forest.apart_below (F : Forest roots next) (h : Acc (fun b a => b ∈ next a) a) :
    Apart (Forests.spread stop next) (next a) where
  nodup := F.nodup a
  eq b hb c hc hbc := (F.apart_nested h).eq b hb c hc hbc.of_spread

theorem under_of_reached (ha : stop a = true) (h : Reached (next a) (Forests.spread stop next) b) :
    Under stop next b := by
  induction h with
  | root hroot => exact ⟨a, ha, .single hroot⟩
  | child _ hb ih => exact ih.child (mem_spread.mp hb).2

/-- A node is below one stop at most. -/
theorem Forest.below_unique (F : Forest roots next) (ha : stop a = true) (hc : stop c = true)
    (hab : Reached (next a) (Forests.spread stop next) b)
    (hcb : Reached (next c) (Forests.spread stop next) b) : a = c := by
  have hup : ∀ {k l d e}, stop l = true → d ∈ next k → e ∈ next l →
      Reached [d] (Forests.spread stop next) e → k = l := by
    intro k l d e hl hd he hde
    rcases hde with hroot | ⟨_, he'⟩
    · obtain rfl := List.mem_singleton.mp hroot
      exact F.parent hd he
    · obtain ⟨hgo, he'⟩ := mem_spread.mp he'
      obtain rfl := F.parent he he'
      rw [hl] at hgo
      cases hgo
  obtain ⟨d, hd, hdb⟩ := hab.tree
  obtain ⟨e, he, heb⟩ := hcb.tree
  rcases F.spread.above hdb heb with hde | hed
  · exact hup hc hd he hde
  · exact (hup ha he hd hed).symm

end Stops

end Klish.Forests
