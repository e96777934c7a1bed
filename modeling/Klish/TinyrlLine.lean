import Klish.Tinyrl

/-!
# What the operations do with the text of the line

The buffer holds a text of two parts, and the cursor stands between them. Each operation is
described by the parts that there are after it.
-/

namespace Klish

namespace Line

/-- The text before and after the cursor. -/
structure Holds (line : Line) (before after : Bytes) : Prop where
  str : ∃ rest, line.str = before ++ after ++ 0 :: rest
  size : line.size = line.str.length
  len : line.len = before.length + after.length
  pos : line.pos = before.length
  noNul : 0 ∉ before ++ after

variable {junk : ℕ → UInt8} {line : Line} {before after : Bytes}

theorem new_holds : new.Holds [] [] :=
  ⟨⟨List.replicate 79 0, rfl⟩, rfl, rfl, rfl, List.not_mem_nil⟩

theorem Holds.len_lt (h : line.Holds before after) : line.len < line.size := by
  obtain ⟨rest, hstr⟩ := h.str
  have hlen := congrArg List.length hstr
  simp only [List.length_append, List.length_cons] at hlen
  rw [h.size, h.len]
  omega

/-- The cursor moves. -/
theorem Holds.move (h : line.Holds before after) {before' after' : Bytes}
    (hsplit : before' ++ after' = before ++ after) :
    Holds { line with pos := before'.length } before' after' := by
  obtain ⟨rest, hstr⟩ := h.str
  have hlen := congrArg List.length hsplit
  rw [List.length_append, List.length_append] at hlen
  exact ⟨⟨rest, hsplit ▸ hstr⟩, h.size, h.len.trans hlen.symm, rfl, hsplit ▸ h.noNul⟩

/-- The string at a place of the text is the rest of the text. -/
theorem Holds.cstrAt_eq (h : line.Holds before after) {first last : Bytes}
    (hsplit : first ++ last = before ++ after) : cstrAt line.str first.length = last := by
  obtain ⟨rest, hstr⟩ := h.str
  have hlast : ∀ b ∈ last, b ≠ 0 := fun b hb hzero =>
    h.noNul (hsplit ▸ List.mem_append_right _ (hzero ▸ hb))
  rw [cstrAt, hstr, ← hsplit, List.append_assoc, List.drop_left, List.takeWhile_append_of_pos]
  · simp
  · intro b hb
    simpa using hlast b hb

/-- There is room for a text after the buffer has been extended, and the text stays. -/
theorem Holds.extend (h : line.Holds before after) (junk : ℕ → UInt8) (n : ℕ) :
    (line.extend junk n).Holds before after ∧ n ≤ (line.extend junk n).str.length := by
  have hlt := h.len_lt
  have hsize := h.size
  unfold Line.extend
  split
  · exact ⟨h, by omega⟩
  · rename_i hshort
    have hroom : n ≤ (n / 80 + if n % 80 > 0 then 1 else 0) * 80 := by
      split <;> omega
    dsimp only
    generalize (n / 80 + if n % 80 > 0 then 1 else 0) * 80 = newSize at hroom ⊢
    obtain ⟨rest, hstr⟩ := h.str
    have hkept : (before ++ after ++ [0]).length ≤ newSize := by
      have hlen := h.len
      simp only [List.length_append, List.length_singleton]
      omega
    obtain ⟨rest', hresize⟩ := Buffer.resize_append junk (before ++ after ++ [0]) rest hkept
    rw [List.append_assoc, List.singleton_append, ← hstr] at hresize
    refine ⟨⟨⟨rest', ?_⟩, ?_, h.len, h.pos, h.noNul⟩, ?_⟩
    · dsimp only
      rw [hresize, List.append_assoc, List.singleton_append]
    · exact (Buffer.length_resize _ _ _).symm
    · rw [Buffer.length_resize]
      exact hroom

/-- A text is inserted at the cursor. -/
theorem Holds.insert (h : line.Holds before after) (junk : ℕ → UInt8) {text : Bytes}
    (htext : 0 ∉ text) :
    ∃ line', line.insert junk text = some line' ∧ line'.Holds (before ++ text) after := by
  unfold Line.insert
  split
  · rename_i hnil
    refine ⟨line, rfl, ?_⟩
    rw [List.eq_nil_of_length_eq_zero hnil, List.append_nil]
    exact h
  · obtain ⟨hext, hroom⟩ := h.extend junk (line.len + text.length + 1)
    dsimp only
    have hlen := h.len
    generalize line.extend junk (line.len + text.length + 1) = line' at hext hroom ⊢
    obtain ⟨rest, hstr⟩ := hext.str
    have hfits : text.length + after.length < (after ++ 0 :: rest).length := by
      have hbuf := congrArg List.length hstr
      simp only [List.length_append, List.length_cons] at hbuf ⊢
      omega
    obtain ⟨gap, mid, x, rest', hsplit, hgap, hmid⟩ := Buffer.exists_split hfits
    have hbuf : line'.str = before ++ gap ++ mid ++ x :: rest' := by
      rw [hstr, List.append_assoc, hsplit]
      simp only [List.append_assoc]
    -- The text after the cursor is moved out of the way.
    have hmoved : (if line'.pos < line'.len then
        Buffer.move line'.str (line'.pos + text.length) line'.pos (line'.len - line'.pos)
        else some line'.str) = some (before ++ gap ++ after ++ x :: rest') := by
      have hdst : line'.pos + text.length = (before ++ gap).length := by
        rw [List.length_append, hgap, hext.pos]
      split
      · rw [hbuf, hdst]
        refine Buffer.move_append (before ++ gap) (x :: rest') before (0 :: rest) ?_ hext.pos ?_
          hmid
        · rw [← hbuf, hstr]
        · rw [hext.len, hext.pos]
          omega
      · rename_i hend
        have hnil : after = [] := by
          refine List.eq_nil_of_length_eq_zero ?_
          have hlen := hext.len
          have hpos := hext.pos
          omega
        have hmidNil : mid = [] := List.eq_nil_of_length_eq_zero (by rw [hmid, hnil]; rfl)
        rw [hbuf, hmidNil, hnil]
    have hwrite : Buffer.write (before ++ gap ++ after ++ x :: rest') line'.pos text =
        some (before ++ text ++ after ++ x :: rest') := by
      have hw := Buffer.write_append before (after ++ x :: rest') hgap
      rw [hext.pos]
      simpa only [List.append_assoc] using hw
    have hnul : Buffer.write (before ++ text ++ after ++ x :: rest') (line'.len + text.length) [0] =
        some (before ++ text ++ after ++ 0 :: rest') := by
      have hoff : line'.len + text.length = (before ++ text ++ after).length := by
        rw [hext.len]
        simp only [List.length_append]
        omega
      rw [hoff, Buffer.write_one]
    simp only [Option.bind_eq_bind, hmoved, hwrite, hnul, Option.bind_some]
    refine ⟨_, rfl, ⟨rest', rfl⟩, ?_, ?_, ?_, ?_⟩
    · dsimp only
      rw [hext.size, hbuf]
      simp only [List.length_append, List.length_cons, hgap, hmid]
    · dsimp only
      rw [hext.len, List.length_append]
      omega
    · dsimp only
      rw [hext.pos, List.length_append]
    · have hnoNul := hext.noNul
      simp only [List.mem_append, not_or] at hnoNul ⊢
      exact ⟨⟨hnoNul.1, htext⟩, hnoNul.2⟩

/-- The text from some place on loses its first bytes, and the cursor goes there. -/
theorem Holds.delete (h : line.Holds before after) (first : Bytes) {last : Bytes}
    (hsplit : first ++ last = before ++ after) (hlast : last ≠ []) (n : ℕ) :
    ∃ line', line.delete first.length n = some line' ∧ line'.Holds first (last.drop n) := by
  obtain ⟨rest, hstr⟩ := h.str
  rw [← hsplit] at hstr
  have hlen : line.len = first.length + last.length := by
    have hboth := congrArg List.length hsplit
    rw [List.length_append, List.length_append] at hboth
    rw [h.len, hboth]
  have hpos : 0 < last.length := List.length_pos_iff.mpr hlast
  have hnoNul : 0 ∉ first ++ last.drop n := by
    have hnone := h.noNul
    rw [← hsplit] at hnone
    simp only [List.mem_append, not_or] at hnone ⊢
    exact ⟨hnone.1, fun hmem => hnone.2 (List.mem_of_mem_drop hmem)⟩
  have hsize : ∀ {str : Bytes}, str.length = line.str.length → line.size = str.length :=
    fun heq => h.size.trans heq.symm
  unfold Line.delete
  rw [if_neg (by omega)]
  by_cases hall : first.length + n ≥ line.len
  · -- Nothing is left after the place.
    have hdrop : last.drop n = [] := List.drop_eq_nil_of_le (by omega)
    obtain ⟨x, last', rfl⟩ := List.exists_cons_of_ne_nil hlast
    have hnul : Buffer.write line.str first.length [0] =
        some (first ++ 0 :: (last' ++ 0 :: rest)) := by
      rw [hstr, List.append_assoc, List.cons_append, Buffer.write_one]
    simp only [if_pos hall, Option.bind_eq_bind, Option.bind_some, hnul]
    rw [hdrop] at hnoNul ⊢
    refine ⟨_, rfl, ⟨last' ++ 0 :: rest, by rw [List.append_nil]⟩, ?_, by simp, rfl, hnoNul⟩
    refine hsize ?_
    rw [hstr]
    simp
  · -- The rest of the text is moved to the place.
    have hcut : last.take n ++ last.drop n = last := List.take_append_drop n last
    have htake : (last.take n).length = n := by
      rw [List.length_take]
      omega
    generalize last.take n = gone at hcut htake
    generalize last.drop n = kept at hcut hnoNul ⊢
    subst hcut
    rw [List.length_append] at hlen hpos
    have hfits : 0 + kept.length < (gone ++ kept ++ 0 :: rest).length := by
      simp only [List.length_append, List.length_cons]
      omega
    obtain ⟨_, mid, x, rest', htail, hnil, hmid⟩ := Buffer.exists_split hfits
    rw [List.eq_nil_of_length_eq_zero hnil, List.nil_append] at htail
    have hbuf : line.str = first ++ mid ++ x :: rest' := by
      rw [hstr, List.append_assoc, htail, List.append_assoc]
    have hmoved : Buffer.move line.str first.length (first.length + n)
        (line.len - (first.length + n)) = some (first ++ kept ++ x :: rest') := by
      rw [hbuf]
      refine Buffer.move_append first (x :: rest') (first ++ gone) (0 :: rest) ?_ ?_ ?_ hmid
      · rw [← hbuf, hstr]
        simp only [List.append_assoc]
      · rw [List.length_append, htake]
      · omega
    have hnul : Buffer.write (first ++ kept ++ x :: rest') (line.len - n) [0] =
        some (first ++ kept ++ 0 :: rest') := by
      have hoff : line.len - n = (first ++ kept).length := by
        rw [List.length_append]
        omega
      rw [hoff, Buffer.write_one]
    simp only [if_neg hall, hmoved, Option.map_some, Option.bind_eq_bind, Option.bind_some, hnul]
    refine ⟨_, rfl, ⟨rest', rfl⟩, ?_, ?_, rfl, hnoNul⟩
    · refine hsize ?_
      rw [hbuf]
      simp [hmid]
    · dsimp only
      omega

/-- The line becomes empty. -/
theorem Holds.reset (h : line.Holds before after) :
    ∃ line', line.reset = some line' ∧ line'.Holds [] [] := by
  by_cases hnil : before ++ after = []
  · obtain ⟨hbefore, hafter⟩ := List.append_eq_nil_iff.mp hnil
    rw [hbefore, hafter] at h
    refine ⟨line, ?_, h⟩
    have hlen := h.len
    unfold Line.reset Line.delete
    rw [if_pos (by rw [hlen]; simp)]
  · obtain ⟨line', hline, hholds⟩ := h.delete [] (List.nil_append _) hnil line.len
    have hall : (before ++ after).length ≤ line.len :=
      Nat.le_of_eq (List.length_append.trans h.len.symm)
    rw [List.drop_eq_nil_of_le hall] at hholds
    exact ⟨line', hline, hholds⟩

/-- The line becomes another text, with the cursor at its end. -/
theorem Holds.replace (h : line.Holds before after) (junk : ℕ → UInt8) {text : Bytes}
    (htext : 0 ∉ text) :
    ∃ line', line.replace junk text = some line' ∧ line'.Holds text [] := by
  unfold Line.replace
  split
  · rename_i hnil
    rw [hnil]
    exact h.reset
  · obtain ⟨hext, hroom⟩ := h.extend junk (text.length + 1)
    dsimp only
    generalize line.extend junk (text.length + 1) = line' at hext hroom ⊢
    have hfits : text.length + 0 < line'.str.length := by omega
    obtain ⟨old, _, x, rest, hbuf, hold, hnil⟩ := Buffer.exists_split hfits
    rw [List.eq_nil_of_length_eq_zero hnil, List.append_nil] at hbuf
    have hwrite : Buffer.write line'.str 0 text = some (text ++ x :: rest) := by
      have hw := Buffer.write_append [] (x :: rest) hold
      rw [hbuf]
      simpa using hw
    have hnul : Buffer.write (text ++ x :: rest) text.length [0] = some (text ++ 0 :: rest) :=
      Buffer.write_one text rest x 0
    simp only [Option.bind_eq_bind, hwrite, hnul, Option.bind_some]
    refine ⟨_, rfl, ⟨rest, by rw [List.append_nil]⟩, ?_, rfl, rfl, ?_⟩
    · dsimp only
      rw [hext.size, hbuf]
      simp [hold]
    · rwa [List.append_nil]

end Line

end Klish
