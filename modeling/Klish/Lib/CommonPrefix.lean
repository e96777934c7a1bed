import Mathlib.Data.List.Basic

/-!
# The longest common prefix

The longest common prefix of some lists is the prefix of all of them that every other one is a
prefix of.
-/

namespace Klish

variable {α : Type*} {l l' common same rest rest' : List α} {lists : List (List α)}

/-- The prefixes of the list are the common prefixes of all the lists. -/
def IsCommonPrefix (common : List α) (lists : List (List α)) : Prop :=
  ∀ text, text <+: common ↔ ∀ l ∈ lists, text <+: l

namespace IsCommonPrefix

theorem prefix_of_mem (h : IsCommonPrefix common lists) (hl : l ∈ lists) : common <+: l :=
  (h common).mp (List.prefix_refl common) l hl

theorem singleton (l : List α) : IsCommonPrefix l [l] := by
  intro text
  simp

/-- Two lists that are equal up to some place and differ after it. -/
theorem of_differ (hdiffer : ∀ x, rest.head? = some x → rest'.head? ≠ some x) :
    IsCommonPrefix same [same ++ rest, same ++ rest'] := by
  intro text
  simp only [List.mem_cons, List.not_mem_nil, or_false, forall_eq_or_imp, forall_eq]
  constructor
  · intro h
    exact ⟨List.IsPrefix.trans h (List.prefix_append _ _),
      List.IsPrefix.trans h (List.prefix_append _ _)⟩
  · rintro ⟨h, h'⟩
    rcases List.prefix_or_prefix_of_prefix h (List.prefix_append same rest) with hle | ⟨more, rfl⟩
    · exact hle
    · rw [List.prefix_append_right_inj] at h h'
      cases more with
      | nil => simp
      | cons x more =>
        obtain ⟨tail, rfl⟩ := h
        obtain ⟨tail', rfl⟩ := h'
        exact absurd rfl (hdiffer x rfl)

/-- One more list: what is common to it and to one of the others decides, if it is shorter. -/
theorem concat (h : IsCommonPrefix common lists) (hsame : IsCommonPrefix same [l, l'])
    (hl : l ∈ lists) {short : List α}
    (hshort : short = same ∧ same <+: common ∨ short = common ∧ common <+: same) :
    IsCommonPrefix short (lists ++ [l']) := by
  intro text
  have hboth : text <+: short ↔ text <+: common ∧ text <+: same := by
    rcases hshort with ⟨rfl, hle⟩ | ⟨rfl, hle⟩
    · exact ⟨fun ht => ⟨List.IsPrefix.trans ht hle, ht⟩, fun ht => ht.2⟩
    · exact ⟨fun ht => ⟨ht, List.IsPrefix.trans ht hle⟩, fun ht => ht.1⟩
  rw [hboth, h text, hsame text]
  simp only [List.mem_append, List.mem_cons, List.not_mem_nil, or_false, forall_eq_or_imp, forall_eq]
  constructor
  · rintro ⟨hall, -, hlast⟩ m (hm | rfl)
    · exact hall m hm
    · exact hlast
  · intro hall
    exact ⟨fun m hm => hall m (.inl hm), hall l (.inl hl), hall l' (.inr rfl)⟩

end IsCommonPrefix

end Klish
