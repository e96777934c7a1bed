import Klish.TinyrlLine

/-!
# The keys on a line of any bytes

The keys stay inside the buffer also when the line is no UTF-8. A key that edits the line leaves the
history alone.
-/

namespace Klish.Tinyrl

/-- The line and the killed text are strings. -/
structure Strings (line : Line) (buffer : Option Bytes) : Prop where
  line : ∃ before after, line.Holds before after
  buffer : ∀ text, buffer = some text → 0 ∉ text

/-- A key changes the line and the killed text. -/
def Edits (t : Tinyrl) (result : Option Tinyrl) : Prop :=
  ∃ line buffer, result = some { t with line, buffer } ∧ Strings line buffer

variable {t : Tinyrl} {junk : ℕ → UInt8} {buffer : Option Bytes}

theorem edits_same (h : Strings t.line t.buffer) : t.Edits (some t) := ⟨t.line, t.buffer, rfl, h⟩

theorem edits_ite {c : Prop} [Decidable c] {first second : Option Tinyrl} (hfirst : t.Edits first)
    (hsecond : t.Edits second) : t.Edits (if c then first else second) := by
  split
  · exact hfirst
  · exact hsecond

theorem strings_len_pos {line : Line} (h : Strings line buffer) : line.pos ≤ line.len := by
  obtain ⟨before, after, hholds⟩ := h.line
  rw [hholds.pos, hholds.len]
  exact Nat.le_add_right _ _

/-- The text is cut at a place. -/
theorem Strings.cut {line : Line} (h : Strings line buffer) {n : ℕ} (hn : n ≤ line.len) :
    ∃ before after first last, line.Holds before after ∧ first ++ last = before ++ after ∧
      first.length = n ∧ last.length = line.len - n := by
  obtain ⟨before, after, hholds⟩ := h.line
  have hlen : (before ++ after).length = line.len := List.length_append.trans hholds.len.symm
  refine ⟨before, after, _, _, hholds, List.take_append_drop n _, ?_, ?_⟩
  · rw [List.length_take, hlen]
    exact Nat.min_eq_left hn
  · rw [List.length_drop, hlen]

/-- The string at a place of the line has no NUL. -/
theorem zero_notMem_cstrAt (str : Bytes) (pos : ℕ) : 0 ∉ cstrAt str pos := by
  intro hmem
  have hall := List.all_eq_true.mp (List.all_takeWhile (l := str.drop pos)) 0 hmem
  simp at hall

/-- The cursor goes to a place of the line. -/
theorem edits_move (h : Strings t.line t.buffer) {n : ℕ} (hn : n ≤ t.line.len) :
    t.Edits (some { t with line.pos := n }) := by
  obtain ⟨before, after, first, last, hholds, hsplit, rfl, -⟩ := h.cut hn
  exact ⟨_, t.buffer, rfl, ⟨_, _, hholds.move hsplit⟩, h.buffer⟩

/-- Bytes of the line are deleted. -/
theorem edits_delete (h : Strings t.line t.buffer) (hbuffer : ∀ text, buffer = some text → 0 ∉ text)
    {start : ℕ} (hstart : start < t.line.len) (n : ℕ) :
    t.Edits (withLine { t with buffer } (t.line.delete start n)) := by
  obtain ⟨before, after, first, last, hholds, hsplit, rfl, hlast⟩ := h.cut (Nat.le_of_lt hstart)
  have hne : last ≠ [] := List.ne_nil_of_length_pos (by omega)
  obtain ⟨line', hline, hholds'⟩ := hholds.delete first hsplit hne n
  rw [hline]
  exact ⟨line', buffer, rfl, ⟨_, _, hholds'⟩, hbuffer⟩

/-- A string is put into the line. -/
theorem edits_insert (h : Strings t.line t.buffer) (junk : ℕ → UInt8) {text : Bytes}
    (htext : 0 ∉ text) : t.Edits (t.withLine (t.line.insert junk text)) := by
  obtain ⟨before, after, hholds⟩ := h.line
  obtain ⟨line', hline, hholds'⟩ := hholds.insert junk htext
  rw [hline]
  exact ⟨line', t.buffer, rfl, ⟨_, _, hholds'⟩, h.buffer⟩

theorem keyDefault_edits (h : Strings t.line t.buffer) (key : UInt8) :
    t.Edits (t.keyDefault junk key) := by
  unfold keyDefault
  split
  · rename_i hbig
    refine edits_insert h junk fun hmem => ?_
    rw [← List.mem_singleton.mp hmem] at hbig
    exact absurd hbig (by decide)
  · exact edits_same h

theorem keyKill_edits (h : Strings t.line t.buffer) : t.Edits t.keyKill := by
  have hle := strings_len_pos h
  unfold keyKill
  split
  · exact ⟨t.line, none, rfl, h.line, by simp⟩
  · refine edits_delete h (fun text htext => ?_) (by omega) _
    rw [← Option.some.inj htext]
    exact zero_notMem_cstrAt _ _

theorem keyYank_edits (h : Strings t.line t.buffer) : t.Edits (t.keyYank junk) := by
  unfold keyYank
  split
  · exact edits_same h
  · rename_i text htext
    exact edits_insert h junk (h.buffer text htext)

theorem moveLeft_le (t : Tinyrl) (pos : ℕ) : t.moveLeft pos ≤ pos := by
  cases pos with
  | zero =>
    unfold moveLeft
    split
    · exact Nat.le_refl 0
    · exact Nat.le_refl _
  | succ pos => exact Nat.le_of_lt (t.moveLeft_lt pos)

/-- The cursor does not leave the text on the right. -/
theorem moveRight_le (h : Strings t.line t.buffer) {pos : ℕ} (hpos : pos < t.line.len) :
    t.moveRight pos ≤ t.line.len := by
  obtain ⟨before, after, first, last, hholds, hsplit, rfl, hlast⟩ := h.cut (Nat.le_of_lt hpos)
  unfold moveRight
  split
  · obtain ⟨rest, hstr⟩ := hholds.str
    have hdrop : t.line.str.drop first.length = last ++ 0 :: rest := by
      rw [hstr, ← hsplit, List.append_assoc, List.drop_left]
    obtain ⟨b, last', rfl⟩ := List.exists_cons_of_ne_nil
      (List.ne_nil_of_length_pos (by omega : 0 < last.length))
    unfold utf8MoveRight
    rw [hdrop, List.cons_append]
    dsimp only
    split
    · omega
    · -- The NUL ends the tails at the latest.
      have hstop : ((last' ++ 0 :: rest).takeWhile fun b => b ≠ 0 && Utf8.isTail b).length ≤
          last'.length := by
        rw [List.takeWhile_append]
        split
        · simp
        · exact (List.takeWhile_prefix _).length_le
      rw [List.length_cons] at hlast
      omega
  · omega

theorem keyLeft_edits (h : Strings t.line t.buffer) : t.Edits t.keyLeft := by
  have hle := strings_len_pos h
  have hmove := t.moveLeft_le t.line.pos
  unfold keyLeft
  exact edits_ite (edits_same h) (edits_move h (Nat.le_trans hmove hle))

theorem keyRight_edits (h : Strings t.line t.buffer) : t.Edits t.keyRight := by
  have hle := strings_len_pos h
  unfold keyRight
  split
  · exact edits_same h
  · exact edits_move h (moveRight_le h (by omega))

theorem keyBackspace_edits (h : Strings t.line t.buffer) : t.Edits t.keyBackspace := by
  have hle := strings_len_pos h
  unfold keyBackspace
  split
  · exact edits_same h
  · obtain ⟨pos, hpos⟩ := Nat.exists_eq_succ_of_ne_zero ‹_›
    have hmove := t.moveLeft_lt pos
    rw [Nat.succ_eq_add_one] at hpos
    rw [hpos] at hle ⊢
    exact edits_delete h h.buffer (by omega) _

theorem keyDelete_edits (h : Strings t.line t.buffer) : t.Edits t.keyDelete := by
  have hle := strings_len_pos h
  unfold keyDelete
  split
  · exact edits_same h
  · exact edits_delete h h.buffer (by omega) _

theorem skipLeft_le (t : Tinyrl) (stops : UInt8 → Bool) (pos : ℕ) : t.skipLeft stops pos ≤ pos := by
  fun_induction skipLeft t stops pos with
  | case1 => exact Nat.le_refl 0
  | case2 => exact Nat.le_refl _
  | case3 pos hgoes ih => exact Nat.le_trans ih (t.moveLeft_le _)

theorem keyBackword_edits (h : Strings t.line t.buffer) : t.Edits t.keyBackword := by
  have hle := strings_len_pos h
  have hword := t.skipLeft_le (fun b => !isspace b) t.line.pos
  have hstart := t.skipLeft_le isspace (t.skipLeft (fun b => !isspace b) t.line.pos)
  unfold keyBackword
  dsimp only
  split
  · exact ⟨t.line, none, rfl, h.line, by simp⟩
  · split
    · exact ⟨t.line, none, rfl, h.line, by simp⟩
    · refine edits_delete h (fun text htext hmem => ?_) (by omega) _
      rw [← Option.some.inj htext] at hmem
      exact zero_notMem_cstrAt _ _ (List.mem_of_mem_take hmem)

theorem keyEraseLine_edits (h : Strings t.line t.buffer) : t.Edits t.keyEraseLine := by
  unfold keyEraseLine
  split
  · exact ⟨t.line, none, rfl, h.line, by simp⟩
  · refine edits_delete h (fun text htext => ?_) (by omega) _
    rw [← Option.some.inj htext]
    exact zero_notMem_cstrAt _ _

/-- A key that does not end the line. -/
theorem handler_edits (h : Strings t.line t.buffer) {key : UInt8} (hcr : key ≠ 13) (hlf : key ≠ 10)
    (hetx : key ≠ 3) : t.Edits (t.handler junk key) := by
  unfold handler
  rw [if_neg (by simp [hcr, hlf]), if_neg hetx]
  refine edits_ite (keyBackspace_edits h) ?_
  refine edits_ite (keyDelete_edits h) ?_
  refine edits_ite (edits_same h) ?_
  refine edits_ite (keyEraseLine_edits h) ?_
  refine edits_ite (edits_move h (Nat.zero_le _)) ?_
  refine edits_ite (edits_move h (Nat.le_refl _)) ?_
  refine edits_ite (keyKill_edits h) ?_
  refine edits_ite (keyYank_edits h) ?_
  refine edits_ite (edits_same h) ?_
  exact edits_ite (keyBackword_edits h) (keyDefault_edits h key)

end Klish.Tinyrl
