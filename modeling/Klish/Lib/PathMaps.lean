import Klish.Lib.Roses
import Mathlib.Data.List.Basic

/-!
# Maps from paths

A path is a list of keys. A map has a value at some of the paths, and it may be changed at a path
and below it. Trees whose nodes have keys are such maps: the first node of a key is found.
-/

namespace Klish

universe u v

/-- A change that keeps what is listed of an element keeps the list. -/
theorem map_set_eq {α : Type u} {β : Type v} {f : α → β} {list : List α} {i : ℕ} {a a' : α} (hi : list[i]? = some a)
    (h : f a' = f a) : (list.set i a').map f = list.map f := by
  apply List.ext_getElem?
  intro j
  rw [List.getElem?_map, List.getElem?_map, List.getElem?_set]
  split
  case isTrue hij =>
    subst hij
    obtain ⟨hlt, -⟩ := List.getElem?_eq_some_iff.mp hi
    rw [if_pos hlt, hi, Option.map_some, Option.map_some, h]
  case isFalse => rfl

abbrev PathMap (β : Type u) (γ : Type v) := List β → Option γ

namespace PathMap

variable {β : Type u} {γ : Type v}

/-- What is below a key. -/
def sub (m : PathMap β γ) (b : β) : PathMap β γ := fun p => m (b :: p)

/-- The value at the root is replaced. -/
def putRoot (m : PathMap β γ) (v : Option γ) : PathMap β γ
  | [] => v
  | b :: p => m (b :: p)

@[simp] theorem sub_putRoot (m : PathMap β γ) (v : Option γ) (b : β) :
    (m.putRoot v).sub b = m.sub b := rfl

variable [DecidableEq β]

/-- What is below a key is replaced. -/
def put (m : PathMap β γ) (b : β) (m' : PathMap β γ) : PathMap β γ
  | [] => m []
  | c :: p => if c = b then m' p else m (c :: p)

@[simp] theorem sub_put (m m' : PathMap β γ) (b : β) : (m.put b m').sub b = m' := by
  funext p
  simp [sub, put]

@[simp] theorem put_sub (m : PathMap β γ) (b : β) : m.put b (m.sub b) = m := by
  funext p
  cases p with
  | nil => rfl
  | cons c p =>
    rw [put, sub]
    split
    case isTrue h => rw [h]
    case isFalse => rfl

@[simp] theorem put_put (m m' m'' : PathMap β γ) (b : β) : (m.put b m').put b m'' = m.put b m'' := by
  funext p
  cases p with
  | nil => rfl
  | cons c p =>
    rw [put, put]
    split
    case isTrue h => rw [put, if_pos h]
    case isFalse h => rw [put, if_neg h]

theorem put_putRoot (m m' : PathMap β γ) (b : β) (v : Option γ) :
    (m.putRoot v).put b m' = (m.put b m').putRoot v := by
  funext p
  cases p <;> rfl

/-- What is at a path and below it is changed. -/
def changeAt : List β → (PathMap β γ → PathMap β γ) → PathMap β γ → PathMap β γ
  | [], f, m => f m
  | b :: p, f, m => m.put b (changeAt p f (m.sub b))

/-- What a change does to the value at its own path, if all else that it changes is below one of the
hidden keys. -/
structure Local (hidden : β → Prop) (f : PathMap β γ → PathMap β γ) (own : Option γ → Option γ) :
    Prop where
  root : ∀ m, f m [] = own (m [])
  other : ∀ m b p, ¬hidden b → f m (b :: p) = m (b :: p)

theorem changeAt_local {hidden : β → Prop} {f : PathMap β γ → PathMap β γ} {own : Option γ → Option γ}
    (h : Local hidden f own) (p : List β) (m : PathMap β γ) {q : List β} (hq : ∀ b ∈ q, ¬hidden b) :
    changeAt p f m q = if p = q then own (m q) else m q := by
  induction p generalizing m q with
  | nil =>
    cases q with
    | nil => exact h.root m
    | cons b q => exact h.other m b q (hq b List.mem_cons_self)
  | cons b p ih =>
    cases q with
    | nil => rfl
    | cons c q =>
      rw [changeAt, put]
      by_cases hcb : c = b
      · subst hcb
        rw [if_pos rfl, ih _ fun b hb => hq b (List.mem_cons_of_mem c hb)]
        simp [sub]
      · have hne : b :: p ≠ c :: q := fun heq => hcb (List.cons.inj heq).1.symm
        rw [if_neg hcb, if_neg hne]

section Run

variable {ω : Type v} (apply : ω → PathMap β γ → PathMap β γ)

/-- The changes are made one after the other, each at its path. -/
def run (changes : List (List β × ω)) (m : PathMap β γ) : PathMap β γ :=
  changes.foldl (fun m change => changeAt change.1 (apply change.2) m) m

/-- The same changes below a key. -/
def below (b : β) (changes : List (List β × ω)) : List (List β × ω) :=
  changes.map fun change => (b :: change.1, change.2)

variable {apply}

@[simp] theorem run_nil (m : PathMap β γ) : run apply [] m = m := rfl

theorem run_cons (change : List β × ω) (changes : List (List β × ω)) (m : PathMap β γ) :
    run apply (change :: changes) m = run apply changes (changeAt change.1 (apply change.2) m) := rfl

theorem run_append (changes changes' : List (List β × ω)) (m : PathMap β γ) :
    run apply (changes ++ changes') m = run apply changes' (run apply changes m) :=
  List.foldl_append ..

theorem run_below (b : β) (changes : List (List β × ω)) (m : PathMap β γ) :
    run apply (below b changes) m = m.put b (run apply changes (m.sub b)) := by
  induction changes generalizing m with
  | nil => exact (put_sub m b).symm
  | cons change changes ih =>
    have hfirst : run apply (below b (change :: changes)) m =
        run apply (below b changes) (m.put b (changeAt change.1 (apply change.2) (m.sub b))) := rfl
    rw [hfirst, ih, sub_put, put_put, run_cons]

/-- What is at a path is made by the changes of that path alone, in their order. -/
theorem run_local {hidden : β → Prop} {own : ω → Option γ → Option γ}
    (h : ∀ o, Local hidden (apply o) (own o)) (changes : List (List β × ω)) (m : PathMap β γ)
    {q : List β} (hq : ∀ b ∈ q, ¬hidden b) :
    run apply changes m q =
      (changes.filter fun change => change.1 = q).foldl (fun v change => own change.2 v) (m q) := by
  induction changes generalizing m with
  | nil => rfl
  | cons change changes ih =>
    rw [run_cons, ih, changeAt_local (h change.2) change.1 m hq, List.filter_cons]
    by_cases hpath : change.1 = q
    · simp [hpath]
    · simp [hpath]

end Run

end PathMap

namespace Rose

variable {α : Type u} {β : Type v} (key : α → β)

section Growth

/-- The trees of the first list are still there, in their order and with their keys, and so are the
ones below them. The labels may have changed as the relation tells. -/
inductive Grows (R : α → α → Prop) : List (Rose α) → List (Rose α) → Prop
  | added (news : List (Rose α)) : Grows R [] news
  | kept {a a' : α} {ts ts' rest rest' : List (Rose α)} (hkey : key a' = key a) (hlabel : R a a')
      (hbelow : Grows R ts ts') (hrest : Grows R rest rest') :
      Grows R (.node a ts :: rest) (.node a' ts' :: rest')

variable {key} {R : α → α → Prop} {ts us vs : List (Rose α)} {t t' u : Rose α} {i : ℕ}

theorem Grows.refl (hrefl : ∀ a, R a a) (ts : List (Rose α)) : Grows key R ts ts := by
  have hlist : ∀ ts : List (Rose α), (∀ t ∈ ts, Grows key R t.children t.children) →
      Grows key R ts ts := by
    intro ts
    induction ts with
    | nil => exact fun _ => .added []
    | cons t ts ih =>
      intro h
      obtain ⟨a, cs⟩ := t
      exact .kept rfl (hrefl a) (h _ List.mem_cons_self) (ih fun t ht => h t (List.mem_cons_of_mem _ ht))
  have hchildren : ∀ t : Rose α, Grows key R t.children t.children := by
    intro t
    induction t using Rose.ind with
    | hnode a cs ih => exact hlist cs ih
  exact hlist ts fun t _ => hchildren t

theorem Grows.trans (htrans : ∀ a b c, R a b → R b c → R a c) (h : Grows key R ts us)
    (h' : Grows key R us vs) : Grows key R ts vs := by
  induction h generalizing vs with
  | added news => exact .added _
  | kept hkey hlabel _ _ ihbelow ihrest =>
    cases h' with
    | kept hkey' hlabel' hbelow' hrest' =>
      exact .kept (hkey'.trans hkey) (htrans _ _ _ hlabel hlabel') (ihbelow hbelow') (ihrest hrest')

theorem Grows.append (h : Grows key R ts us) (news : List (Rose α)) : Grows key R ts (us ++ news) := by
  induction h with
  | added _ => exact .added _
  | kept hkey hlabel hbelow _ _ ihrest => exact .kept hkey hlabel hbelow ihrest

/-- One tree of a list grows. -/
theorem Grows.set (hrefl : ∀ a, R a a) (hi : ts[i]? = some t) (h : Grows key R [t] [t']) :
    Grows key R ts (ts.set i t') := by
  induction ts generalizing i with
  | nil => cases hi
  | cons u ts ih =>
    cases i with
    | zero =>
      obtain rfl : u = t := Option.some.inj hi
      cases h with
      | kept hkey hlabel hbelow _ => exact .kept hkey hlabel hbelow (.refl hrefl ts)
    | succ i =>
      obtain ⟨a, cs⟩ := u
      exact .kept rfl (hrefl a) (.refl hrefl cs) (ih hi)

theorem Grows.keys (h : Grows key R ts us) :
    (ts.map fun t => key t.label) <+: us.map fun t => key t.label := by
  induction h with
  | added news => exact List.nil_prefix
  | kept hkey _ _ _ _ ihrest =>
    rw [List.map_cons, List.map_cons, label_node, label_node, hkey]
    exact (List.prefix_cons_inj _).mpr ihrest

theorem Grows.children (h : Grows key R [t] [u]) : R t.label u.label ∧ Grows key R t.children u.children := by
  cases h with
  | kept _ hlabel hbelow _ => exact ⟨hlabel, hbelow⟩

end Growth

section Unique

/-- No key comes twice in the list, and in no list of children below it. -/
inductive Unique : List (Rose α) → Prop
  | nil : Unique []
  | cons {a : α} {cs ts : List (Rose α)} (hkey : key a ∉ ts.map fun t => key t.label)
      (hbelow : Unique cs) (hrest : Unique ts) : Unique (.node a cs :: ts)

variable {key} {ts : List (Rose α)} {t t' : Rose α} {i : ℕ}

theorem Unique.tree (h : Unique key ts) (ht : t ∈ ts) : Unique key [t] := by
  induction h with
  | nil => cases ht
  | cons _ hbelow _ _ ihrest =>
    rcases List.mem_cons.mp ht with rfl | ht
    · exact .cons List.not_mem_nil hbelow .nil
    · exact ihrest ht

theorem Unique.nodup (h : Unique key ts) : (ts.map fun t => key t.label).Nodup := by
  induction h with
  | nil => exact List.nodup_nil
  | cons hfirst _ _ _ ihrest => exact List.nodup_cons.mpr ⟨hfirst, ihrest⟩

theorem Unique.children (h : Unique key [t]) : Unique key t.children := by
  cases h with
  | cons _ hbelow _ => exact hbelow

theorem Unique.snoc (h : Unique key ts) (ht : Unique key [t])
    (hkey : key t.label ∉ ts.map fun t => key t.label) : Unique key (ts ++ [t]) := by
  induction h with
  | nil => exact ht
  | cons hfirst hbelow _ _ ihrest =>
    rw [List.map_cons, List.mem_cons, not_or] at hkey
    rw [List.cons_append]
    refine .cons ?_ hbelow (ihrest hkey.2)
    rw [List.map_append, List.mem_append, not_or, List.map_singleton, List.mem_singleton]
    exact ⟨hfirst, fun heq => hkey.1 heq.symm⟩

/-- One tree of a list is replaced by one of the same key. -/
theorem Unique.set (h : Unique key ts) (hi : ts[i]? = some t) (hkey : key t'.label = key t.label)
    (ht : Unique key [t']) : Unique key (ts.set i t') := by
  induction h generalizing i with
  | nil => cases hi
  | @cons a cs ts hfirst hbelow hrest _ ihrest =>
    cases i with
    | zero =>
      obtain rfl : Rose.node a cs = t := Option.some.inj hi
      cases ht with
      | cons _ hbelow' _ =>
        refine .cons ?_ hbelow' hrest
        rw [label_node] at hkey
        rwa [hkey]
    | succ i =>
      have hkeys : (ts.set i t').map (fun t => key t.label) = ts.map fun t => key t.label :=
        map_set_eq hi hkey
      exact .cons (hkeys ▸ hfirst) hbelow (ihrest hi)

end Unique

variable [DecidableEq β]

/-- The first tree of a list whose root has the key. -/
def findKey (ts : List (Rose α)) (b : β) : Option (Rose α) := ts.find? fun t => key t.label = b

/-- The tree at a path. -/
def treeAt : List β → Rose α → Option (Rose α)
  | [], t => some t
  | b :: p, t => (findKey key t.children b).bind (treeAt p)

/-- A tree as a map. -/
def labels (t : Rose α) : PathMap β α := fun p => (treeAt key p t).map label

/-- The tree of a list at a path. There is nothing at the root. -/
def forestAt : List β → List (Rose α) → Option (Rose α)
  | [], _ => none
  | b :: p, ts => (findKey key ts b).bind (treeAt key p)

/-- A list of trees as a map. -/
def forestLabels (ts : List (Rose α)) : PathMap β α := fun p => (forestAt key p ts).map label

variable {key} {ts : List (Rose α)} {t t' : Rose α} {b : β} {i : ℕ}

theorem forestLabels_cons (ts : List (Rose α)) (b : β) (p : List β) :
    forestLabels key ts (b :: p) = (findKey key ts b).bind fun t => labels key t p := Option.map_bind

theorem labels_node (a : α) (ts : List (Rose α)) :
    labels key (.node a ts) = (forestLabels key ts).putRoot (some a) := by
  funext p
  cases p <;> rfl

theorem forestLabels_sub (h : findKey key ts b = some t) : (forestLabels key ts).sub b = labels key t := by
  funext p
  rw [PathMap.sub, forestLabels_cons, h, Option.bind_some]

theorem forestLabels_sub_none (h : findKey key ts b = none) :
    (forestLabels key ts).sub b = fun _ => none := by
  funext p
  rw [PathMap.sub, forestLabels_cons, h, Option.bind_none]

/-- The first place of a key in a list of trees. -/
def Place (key : α → β) (ts : List (Rose α)) (b : β) (i : ℕ) : Prop :=
  ts.findIdx? (fun t => key t.label = b) = some i

theorem Place.cons {t : Rose α} :
    Place key (t :: ts) b i ↔ (key t.label = b ∧ i = 0) ∨ (key t.label ≠ b ∧ ∃ j, i = j + 1 ∧ Place key ts b j) := by
  rw [Place, List.findIdx?_cons]
  by_cases h : key t.label = b
  · simp [h, eq_comm]
  · have hmap : Option.map (· + 1) (ts.findIdx? fun t => key t.label = b) = some i ↔
        ∃ j, ts.findIdx? (fun t => key t.label = b) = some j ∧ j + 1 = i := Option.map_eq_some_iff
    simp [h, Place, hmap, and_comm, eq_comm (a := i)]

theorem Place.get (h : Place key ts b i) : ∃ t, ts[i]? = some t ∧ key t.label = b := by
  induction ts generalizing i with
  | nil => cases h
  | cons t ts ih =>
    rcases Place.cons.mp h with ⟨hkey, rfl⟩ | ⟨_, j, rfl, hj⟩
    · exact ⟨t, rfl, hkey⟩
    · exact ih hj

theorem Place.findKey (h : Place key ts b i) (hi : ts[i]? = some t) : findKey key ts b = some t := by
  induction ts generalizing i with
  | nil => cases h
  | cons u ts ih =>
    rcases Place.cons.mp h with ⟨hkey, rfl⟩ | ⟨hkey, j, rfl, hj⟩
    · obtain rfl : u = t := Option.some.inj hi
      simp [Rose.findKey, hkey]
    · rw [Rose.findKey, List.find?_cons_of_neg (by simpa using hkey)]
      exact ih hj hi

/-- The tree at the first place of its key is replaced. -/
theorem Place.set (h : Place key ts b i) (hkey : key t'.label = b) :
    Place key (ts.set i t') b i ∧
      ∀ c, Rose.findKey key (ts.set i t') c = if c = b then some t' else Rose.findKey key ts c := by
  induction ts generalizing i with
  | nil => cases h
  | cons u ts ih =>
    rcases Place.cons.mp h with ⟨hu, rfl⟩ | ⟨hu, j, rfl, hj⟩
    · refine ⟨Place.cons.mpr (.inl ⟨hkey, rfl⟩), ?_⟩
      intro c
      by_cases hc : c = b
      · subst hc
        simp [Rose.findKey, hkey]
      · have hne : b ≠ c := fun heq => hc heq.symm
        simp [Rose.findKey, hkey, hu, hc, hne]
    · obtain ⟨hplace, hfind⟩ := ih hj
      refine ⟨Place.cons.mpr (.inr ⟨hu, j, rfl, hplace⟩), ?_⟩
      intro c
      have hc := hfind c
      rw [List.set_cons_succ]
      by_cases huc : key u.label = c
      · have hne : c ≠ b := fun heq => hu (huc.trans heq)
        simp [Rose.findKey, huc, hne]
      · have hskip : ∀ us : List (Rose α), Rose.findKey key (u :: us) c = Rose.findKey key us c :=
          fun us => List.find?_cons_of_neg (by simpa using huc)
        rw [hskip, hskip, hc]

theorem forestLabels_set (h : Place key ts b i) (hkey : key t'.label = b) :
    forestLabels key (ts.set i t') = (forestLabels key ts).put b (labels key t') := by
  funext p
  cases p with
  | nil => rfl
  | cons c p =>
    rw [forestLabels_cons, (h.set hkey).2, PathMap.put, forestLabels_cons]
    split <;> rfl

/-- A tree with a new key is added. -/
theorem findKey_snoc (h : b ∉ ts.map fun t => key t.label) (hkey : key t.label = b) :
    Place key (ts ++ [t]) b ts.length ∧
      ∀ c, findKey key (ts ++ [t]) c = if c = b then some t else findKey key ts c := by
  induction ts with
  | nil =>
    refine ⟨Place.cons.mpr (.inl ⟨hkey, rfl⟩), ?_⟩
    intro c
    by_cases hc : c = b
    · subst hc
      simp [findKey, hkey]
    · have hne : b ≠ c := fun heq => hc heq.symm
      simp [findKey, hkey, hc, hne]
  | cons u ts ih =>
    have hu : key u.label ≠ b := fun heq => h (heq ▸ List.mem_cons_self)
    obtain ⟨hplace, hfind⟩ := ih fun hmem => h (List.mem_cons_of_mem _ hmem)
    refine ⟨Place.cons.mpr (.inr ⟨hu, _, rfl, hplace⟩), ?_⟩
    intro c
    by_cases huc : key u.label = c
    · have hne : c ≠ b := fun heq => hu (huc.trans heq)
      simp [findKey, huc, hne]
    · have hskip : ∀ us : List (Rose α), findKey key (u :: us) c = findKey key us c :=
        fun us => List.find?_cons_of_neg (by simpa using huc)
      rw [List.cons_append, hskip, hskip, hfind c]

theorem forestLabels_snoc (h : b ∉ ts.map fun t => key t.label) (hkey : key t.label = b) :
    forestLabels key (ts ++ [t]) = (forestLabels key ts).put b (labels key t) := by
  funext p
  cases p with
  | nil => rfl
  | cons c p =>
    rw [forestLabels_cons, (findKey_snoc h hkey).2, PathMap.put, forestLabels_cons]
    split <;> rfl

/-- A tree of the list is the one that its key finds. -/
theorem Unique.findKey (h : Unique key ts) (ht : t ∈ ts) : findKey key ts (key t.label) = some t := by
  induction h with
  | nil => cases ht
  | @cons a cs ts hfirst _ _ _ ihrest =>
    rcases List.mem_cons.mp ht with rfl | ht
    · simp [Rose.findKey]
    · have hne : key a ≠ key t.label := fun heq =>
        hfirst (heq ▸ List.mem_map_of_mem (f := fun t => key t.label) ht)
      rw [Rose.findKey, List.find?_cons_of_neg (by simp [hne])]
      exact ihrest ht

theorem findKey_eq_none : findKey key ts b = none ↔ b ∉ ts.map fun t => key t.label := by
  simp [findKey]

section Growth

variable {R : α → α → Prop} {us : List (Rose α)} {u : Rose α}

theorem Grows.findKey (h : Grows key R ts us) (hfind : findKey key ts b = some t) :
    ∃ u, findKey key us b = some u ∧ Grows key R [t] [u] := by
  induction h with
  | added news => cases hfind
  | @kept a a' cs cs' rest rest' hkey hlabel hbelow _ _ ihrest =>
    by_cases hb : key a = b
    · obtain rfl : Rose.node a cs = t := by simpa [Rose.findKey, hb] using hfind
      exact ⟨.node a' cs', by simp [Rose.findKey, hkey, hb], .kept hkey hlabel hbelow (.added [])⟩
    · have hskip : ∀ (a : α) (cs us : List (Rose α)), key a ≠ b →
          Rose.findKey key (.node a cs :: us) b = Rose.findKey key us b :=
        fun a cs us hne => List.find?_cons_of_neg (by simp [hne])
      rw [hskip a cs _ hb] at hfind
      rw [hskip a' cs' _ (by rwa [hkey])]
      exact ihrest hfind

/-- What was at a path has grown. -/
theorem Grows.treeAt {p : List β} (h : Grows key R [t] [u]) (hat : treeAt key p t = some t') :
    ∃ u', treeAt key p u = some u' ∧ Grows key R [t'] [u'] := by
  induction p generalizing t u with
  | nil =>
    cases hat
    exact ⟨u, rfl, h⟩
  | cons b p ih =>
    obtain ⟨c, hc, hat⟩ := Option.bind_eq_some_iff.mp hat
    obtain ⟨d, hd, hgrows⟩ := h.children.2.findKey hc
    obtain ⟨u', hu', hgrows'⟩ := ih hgrows hat
    exact ⟨u', by rw [Rose.treeAt, hd, Option.bind_some, hu'], hgrows'⟩

theorem Grows.forestAt {p : List β} (h : Grows key R ts us) (hat : forestAt key p ts = some t) :
    ∃ u, forestAt key p us = some u ∧ Grows key R [t] [u] := by
  cases p with
  | nil => cases hat
  | cons b p =>
    obtain ⟨c, hc, hat⟩ := Option.bind_eq_some_iff.mp hat
    obtain ⟨d, hd, hgrows⟩ := h.findKey hc
    obtain ⟨u', hu', hgrows'⟩ := hgrows.treeAt hat
    exact ⟨u', by rw [Rose.forestAt, hd, Option.bind_some, hu'], hgrows'⟩

end Growth

end Rose

end Klish
