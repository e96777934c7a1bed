import Mathlib.Data.List.Basic

/-!
# Buffers of a fixed size

Bytes or other cells are copied to a place of a buffer. There is no result when the place is not
inside the buffer.
-/

namespace Klish.Buffer

variable {β : Type*}

/-- The cells from a place on are overwritten. -/
def write (buf : List β) (off : ℕ) (data : List β) : Option (List β) :=
  if off + data.length ≤ buf.length then
    some (buf.take off ++ data ++ buf.drop (off + data.length))
  else none

/-- Cells of the buffer are copied to another place, which may overlap. -/
def move (buf : List β) (dst src n : ℕ) : Option (List β) :=
  if src + n ≤ buf.length then write buf dst ((buf.drop src).take n) else none

/-- A buffer of another size with the same cells. Nothing is known of the new ones. -/
def resize (junk : ℕ → β) (buf : List β) (n : ℕ) : List β :=
  buf.take n ++ (List.range (n - buf.length)).map junk

@[simp] theorem length_resize (junk : ℕ → β) (buf : List β) (n : ℕ) :
    (resize junk buf n).length = n := by
  rw [resize, List.length_append, List.length_take, List.length_map, List.length_range]
  omega

/-- What fits into the new buffer stays in it. -/
theorem resize_append (junk : ℕ → β) (kept rest : List β) {n : ℕ} (h : kept.length ≤ n) :
    ∃ rest', resize junk (kept ++ rest) n = kept ++ rest' := by
  refine ⟨rest.take (n - kept.length) ++ (List.range (n - (kept ++ rest).length)).map junk, ?_⟩
  rw [resize, List.take_append, List.take_of_length_le h, List.append_assoc]

/-- What fits is written, and the buffer keeps its size. -/
theorem exists_write {buf data : List β} {off : ℕ} (h : off + data.length ≤ buf.length) :
    ∃ buf', write buf off data = some buf' ∧ buf'.length = buf.length := by
  refine ⟨_, if_pos h, ?_⟩
  simp only [List.length_append, List.length_take, List.length_drop]
  omega

/-- Cells are overwritten by as many others. -/
theorem write_append (before after : List β) {old data : List β}
    (h : old.length = data.length) :
    write (before ++ old ++ after) before.length data = some (before ++ data ++ after) := by
  have hfits : before.length + data.length ≤ (before ++ old ++ after).length := by
    simp only [List.length_append]
    omega
  have hdrop : (before ++ old ++ after).drop (before.length + data.length) = after := by
    rw [← h, ← List.length_append, List.drop_left]
  have htake : (before ++ old ++ after).take before.length = before := by
    rw [List.append_assoc, List.take_left]
  rw [write, if_pos hfits, hdrop, htake]

/-- One cell is overwritten. -/
theorem write_one (before after : List β) (old x : β) :
    write (before ++ old :: after) before.length [x] = some (before ++ x :: after) := by
  have hold : [old].length = [x].length := rfl
  have h := write_append before after hold
  rwa [List.append_assoc, List.append_assoc, List.singleton_append, List.singleton_append] at h

/-- Cells are overwritten by cells of the buffer. -/
theorem move_append (before after src tail : List β) {old data : List β} {n m : ℕ}
    (hbuf : before ++ old ++ after = src ++ data ++ tail) (hn : n = src.length)
    (hm : m = data.length) (h : old.length = data.length) :
    move (before ++ old ++ after) before.length n m = some (before ++ data ++ after) := by
  have hfits : n + m ≤ (before ++ old ++ after).length := by
    rw [hbuf]
    simp only [List.length_append]
    omega
  have hdata : ((before ++ old ++ after).drop n).take m = data := by
    rw [hbuf, hn, hm, List.append_assoc, List.drop_left, List.take_left]
  rw [move, if_pos hfits, hdata, write_append before after h]

/-- The first cells, some more, and one after them. -/
theorem exists_split {l : List β} {n m : ℕ} (h : n + m < l.length) : ∃ first second x rest,
    l = first ++ second ++ x :: rest ∧ first.length = n ∧ second.length = m := by
  have hdrop : l.drop (n + m) ≠ [] := by
    intro hnil
    have hle := List.drop_eq_nil_iff.mp hnil
    omega
  obtain ⟨x, rest, hrest⟩ := List.exists_cons_of_ne_nil hdrop
  refine ⟨l.take n, (l.drop n).take m, x, rest, ?_, ?_, ?_⟩
  · rw [← hrest, ← List.drop_drop, List.append_assoc, List.take_append_drop,
      List.take_append_drop]
  · rw [List.length_take]
    omega
  · rw [List.length_take, List.length_drop]
    omega

end Klish.Buffer
