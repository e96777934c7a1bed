import Mathlib.Data.List.Basic

/-!
# The pieces between separators

A list is cut at the elements that are separators. An empty piece shows where a separator is: at the
front, at the end or behind another one.
-/

namespace Klish.Pieces

variable {α β : Type*} {p q : α → Bool} {l : List α}

/-- There is a first piece. -/
theorem exists_cons (p : α → Bool) (l : List α) : ∃ first rest, l.splitOnP p = first :: rest :=
  List.exists_cons_of_ne_nil (List.splitOnP_ne_nil p l)

theorem splitOnP_sep {x : α} (hx : p x = true) (l : List α) :
    (x :: l).splitOnP p = [] :: l.splitOnP p := by
  rw [List.splitOnP_cons_eq_if_modifyHead, if_pos hx]

theorem splitOnP_word {x : α} (hx : p x = false) {first : List α} {rest : List (List α)}
    (hl : l.splitOnP p = first :: rest) : (x :: l).splitOnP p = (x :: first) :: rest := by
  rw [List.splitOnP_cons_eq_if_modifyHead, if_neg (by simp [hx]), hl]
  rfl

theorem splitOnP_congr (h : ∀ x ∈ l, p x = q x) : l.splitOnP p = l.splitOnP q := by
  induction l with
  | nil => rfl
  | cons x l ih =>
    rw [List.forall_mem_cons] at h
    rw [List.splitOnP_cons_eq_if_modifyHead, List.splitOnP_cons_eq_if_modifyHead, h.1, ih h.2]

theorem splitOnP_map (f : β → α) (l : List β) :
    (l.map f).splitOnP p = (l.splitOnP fun x => p (f x)).map (List.map f) := by
  induction l with
  | nil => rfl
  | cons x l ih =>
    obtain ⟨first, rest, hl⟩ := exists_cons (fun x => p (f x)) l
    rw [hl] at ih
    cases hx : p (f x) with
    | true =>
      have hpieces : (x :: l).splitOnP (fun x => p (f x)) = [] :: first :: rest := by
        rw [splitOnP_sep (p := fun x => p (f x)) hx, hl]
      rw [List.map_cons, splitOnP_sep hx, ih, hpieces]
      rfl
    | false =>
      rw [List.map_cons, splitOnP_word hx ih, splitOnP_word (p := fun x => p (f x)) hx hl]
      rfl

/-- Each separator begins one more piece. -/
theorem length_splitOnP (p : α → Bool) (l : List α) :
    (l.splitOnP p).length = l.countP p + 1 := by
  induction l with
  | nil => rfl
  | cons x l ih =>
    cases hx : p x with
    | true => rw [splitOnP_sep hx, List.length_cons, ih, List.countP_cons_of_pos hx]
    | false =>
      obtain ⟨first, rest, hl⟩ := exists_cons p l
      rw [splitOnP_word hx hl, List.countP_cons_of_neg (by simp [hx]), ← ih, hl]
      rfl

/-- Two parts of the pieces are the pieces before and behind a separator. -/
theorem exists_sep {a b : List (List α)} (h : l.splitOnP p = a ++ b) (ha : a ≠ []) (hb : b ≠ []) :
    ∃ xs sep ys, l = xs ++ sep :: ys ∧ p sep = true ∧ xs.splitOnP p = a ∧ ys.splitOnP p = b := by
  induction l generalizing a with
  | nil =>
    have hlen := congrArg List.length h
    rw [List.splitOnP_nil, List.length_append, List.length_singleton] at hlen
    have hapos := List.length_pos_of_ne_nil ha
    have hbpos := List.length_pos_of_ne_nil hb
    omega
  | cons x l ih =>
    obtain ⟨piece, a, rfl⟩ := List.exists_cons_of_ne_nil ha
    cases hx : p x with
    | true =>
      rw [splitOnP_sep hx, List.cons_append] at h
      obtain ⟨rfl, hrest⟩ := List.cons.inj h
      by_cases hnil : a = []
      · subst hnil
        exact ⟨[], x, l, rfl, hx, rfl, hrest⟩
      · obtain ⟨xs, sep, ys, rfl, hsep, hxs, hys⟩ := ih hrest hnil
        exact ⟨x :: xs, sep, ys, rfl, hsep, by rw [splitOnP_sep hx, hxs], hys⟩
    | false =>
      obtain ⟨first, rest, hl⟩ := exists_cons p l
      rw [splitOnP_word hx hl, List.cons_append] at h
      obtain ⟨rfl, rfl⟩ := List.cons.inj h
      obtain ⟨xs, sep, ys, rfl, hsep, hxs, hys⟩ :=
        ih (a := first :: a) hl (List.cons_ne_nil _ _)
      exact ⟨x :: xs, sep, ys, rfl, hsep, splitOnP_word hx hxs, hys⟩

/-- The last piece is empty where there is nothing behind the last separator. -/
theorem getLast_splitOnP (p : α → Bool) (l : List α) :
    (l.splitOnP p).getLast? = some [] ↔ ∀ last, l.getLast? = some last → p last = true := by
  induction l with
  | nil => simp
  | cons x l ih =>
    obtain ⟨first, rest, hl⟩ := exists_cons p l
    cases hx : p x with
    | true =>
      rw [splitOnP_sep hx, hl, List.getLast?_cons_cons, ← hl, ih]
      cases l with
      | nil => simp [hx]
      | cons y l => rw [List.getLast?_cons_cons]
    | false =>
      rw [splitOnP_word hx hl]
      cases l with
      | nil =>
        obtain ⟨rfl, rfl⟩ := List.cons.inj hl
        simp [hx]
      | cons y l =>
        rw [List.getLast?_cons_cons, ← ih, hl]
        cases rest with
        | nil =>
          have hfirst : first ≠ [] := by
            rintro rfl
            have hlen := length_splitOnP p (y :: l)
            rw [hl, List.length_singleton] at hlen
            have hy : p y = false := by
              by_contra hy
              rw [List.countP_cons_of_pos (by simpa using hy)] at hlen
              omega
            obtain ⟨first', rest', hl'⟩ := exists_cons p l
            rw [splitOnP_word hy hl'] at hl
            cases hl
          simp [hfirst]
        | cons second rest => rw [List.getLast?_cons_cons, List.getLast?_cons_cons]

/-- A piece that is not the last one is empty where a separator is at the front or behind another
one. -/
theorem nil_mem_dropLast_iff (p : α → Bool) (l : List α) :
    [] ∈ (l.splitOnP p).dropLast ↔ ∃ before sep after, l = before ++ sep :: after ∧
      p sep = true ∧ ∀ last, before.getLast? = some last → p last = true := by
  constructor
  · intro hmem
    obtain ⟨a, b, hab⟩ := List.append_of_mem hmem
    have hpieces : l.splitOnP p =
        (a ++ [[]]) ++ (b ++ [(l.splitOnP p).getLast (List.splitOnP_ne_nil p l)]) := by
      have hdrop := List.dropLast_append_getLast (List.splitOnP_ne_nil p l)
      rw [hab] at hdrop
      simpa using hdrop.symm
    obtain ⟨before, sep, after, rfl, hsep, hbefore, -⟩ := exists_sep hpieces (by simp) (by simp)
    refine ⟨before, sep, after, rfl, hsep, ?_⟩
    rw [← getLast_splitOnP, hbefore, List.getLast?_concat]
  · rintro ⟨before, sep, after, rfl, hsep, hlast⟩
    rw [← getLast_splitOnP] at hlast
    rw [List.splitOnP_append_cons before after hsep,
      List.dropLast_append_of_ne_nil (List.splitOnP_ne_nil p after)]
    exact List.mem_append_left _ (List.mem_of_getLast? hlast)

/-- More separators leave the empty pieces that are not the last one. -/
theorem nil_mem_dropLast_mono (hpq : ∀ x, p x = true → q x = true)
    (h : [] ∈ (l.splitOnP p).dropLast) : [] ∈ (l.splitOnP q).dropLast := by
  rw [nil_mem_dropLast_iff] at h ⊢
  obtain ⟨before, sep, after, hl, hsep, hlast⟩ := h
  exact ⟨before, sep, after, hl, hpq sep hsep, fun last h => hpq last (hlast last h)⟩

/-- Where the separators are more there are more pieces. -/
theorem length_lt_of_mem {x : α} (hpq : ∀ x, p x = true → q x = true) (hx : x ∈ l)
    (hp : p x = false) (hq : q x = true) : (l.splitOnP p).length < (l.splitOnP q).length := by
  obtain ⟨a, b, rfl⟩ := List.append_of_mem hx
  have ha : a.countP p ≤ a.countP q := List.countP_mono_left fun x _ => hpq x
  have hb : b.countP p ≤ b.countP q := List.countP_mono_left fun x _ => hpq x
  rw [length_splitOnP, length_splitOnP, List.countP_append, List.countP_append,
    List.countP_cons_of_neg (by simp [hp]), List.countP_cons_of_pos hq]
  omega

end Klish.Pieces
