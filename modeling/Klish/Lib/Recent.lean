import Mathlib.Data.List.Dedup
import Mathlib.Data.List.DropRight

/-!
# The values used last

A bounded list of distinct values, ordered by their latest use, is kept up to date by one step for
each use.
-/

namespace Klish

section Recent

variable {α : Type*} [DecidableEq α] (n : ℕ) (xs kept : List α) (x : α)

/-- The last `n` distinct values in the order of their latest use. -/
def recent : List α := xs.dedup.rtake n

/-- The value goes to the end, and no more than `n` values stay. -/
def touch : List α := (kept.erase x ++ [x]).rtake n

@[simp] theorem recent_nil : recent n ([] : List α) = [] := by
  simp [recent]

theorem length_rtake {β : Type*} (l : List β) : (l.rtake n).length = min n l.length := by
  rw [List.rtake, List.length_drop]
  omega

theorem rtake_append {β : Type*} {n : ℕ} (before : List β) {l : List β} (h : n ≤ l.length) :
    (before ++ l).rtake n = l.rtake n := by
  have hlen : (before ++ l).length - n = before.length + (l.length - n) := by
    rw [List.length_append]
    omega
  rw [List.rtake, List.rtake, hlen, List.drop_append]
  simp

theorem rtake_eq_self {β : Type*} {n : ℕ} {l : List β} (h : l.length ≤ n) : l.rtake n = l := by
  rw [List.rtake, Nat.sub_eq_zero_of_le h, List.drop_zero]

theorem recent_length_le : (recent n xs).length ≤ n := by
  rw [recent, length_rtake]
  omega

/-- The last use of a value is the only one that counts. -/
theorem dedup_concat : (xs ++ [x]).dedup = xs.dedup.erase x ++ [x] := by
  induction xs with
  | nil => rfl
  | cons a xs ih =>
    rw [List.cons_append]
    by_cases hmem : a ∈ xs
    · rw [List.dedup_cons_of_mem hmem, List.dedup_cons_of_mem (List.mem_append_left _ hmem), ih]
    · rw [List.dedup_cons_of_notMem hmem]
      by_cases hax : a = x
      · have hnot : x ∉ xs.dedup := fun h => hmem (hax ▸ List.mem_dedup.mp h)
        rw [List.dedup_cons_of_mem (by simp [hax]), ih, hax, List.erase_cons_head,
          List.erase_of_not_mem hnot]
      · rw [List.dedup_cons_of_notMem (by simp [hmem, hax]), ih,
          List.erase_cons_tail (by simp [hax]), List.cons_append]

/-- What is not among the last values makes no difference when one of them is taken out. -/
theorem rtake_erase {l : List α} (hnodup : l.Nodup) :
    ((l.rtake (n + 1)).erase x).rtake n = (l.erase x).rtake n := by
  by_cases hlen : l.length ≤ n + 1
  · rw [rtake_eq_self hlen]
  · have hsplit : l = l.take (l.length - (n + 1)) ++ l.rtake (n + 1) :=
      (List.take_append_drop _ l).symm
    have hlast : (l.rtake (n + 1)).length = n + 1 := by
      rw [length_rtake]
      omega
    generalize l.take (l.length - (n + 1)) = before at hsplit
    generalize l.rtake (n + 1) = last at hsplit hlast ⊢
    subst hsplit
    by_cases hmem : x ∈ before
    · have hnot : x ∉ last := fun h => (List.disjoint_of_nodup_append hnodup) hmem h
      rw [List.erase_append_left _ hmem, List.erase_of_not_mem hnot,
        rtake_append _ (by omega : n ≤ last.length)]
    · have hle : n ≤ (last.erase x).length := by
        have hge := List.le_length_erase (a := x) (l := last)
        omega
      rw [List.erase_append_right _ hmem, rtake_append _ hle]

/-- One more use of a value. -/
theorem recent_concat {n : ℕ} (hn : 0 < n) : recent n (xs ++ [x]) = touch n (recent n xs) x := by
  obtain ⟨m, rfl⟩ : ∃ m, n = m + 1 := ⟨n - 1, by omega⟩
  rw [recent, touch, recent, dedup_concat, List.rtake_concat_succ, List.rtake_concat_succ,
    rtake_erase _ _ (List.nodup_dedup xs)]

/-- A list that was short enough loses one value at most. -/
theorem touch_eq {kept : List α} (h : kept.length ≤ n) : touch n kept x =
    if n < (kept.erase x ++ [x]).length then (kept.erase x ++ [x]).tail
    else kept.erase x ++ [x] := by
  have herase : (kept.erase x).length ≤ kept.length := List.length_erase_le
  unfold touch
  split
  · rename_i hlong
    have hone : (kept.erase x ++ [x]).length - n = 1 := by
      rw [List.length_append, List.length_singleton] at hlong ⊢
      omega
    rw [List.rtake, hone, List.drop_one]
  · exact rtake_eq_self (by omega)

/-- The value that is taken out may be a part of what the list has. -/
theorem map_eraseP {β : Type*} (f : β → α) (l : List β) :
    (l.eraseP fun b => f b = x).map f = (l.map f).erase x := by
  rw [List.erase_eq_eraseP', List.eraseP_map]
  refine congrArg (fun p => (l.eraseP p).map f) ?_
  funext b
  exact (Bool.beq_eq_decide_eq _ _).symm

end Recent

end Klish
