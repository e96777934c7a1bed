import Klish.HistReference
import Klish.TinyrlLine
import Klish.Utf8Helpers

/-!
# The keys keep the texts whole

Between two characters the parts of the line, the killed text and the lines of the history are
texts in UTF-8, and every key leaves them so.
-/

namespace Klish

/-- The bytes of characters other than NUL. -/
def IsText (bytes : Bytes) : Prop := ∃ cs : List Char, '\x00' ∉ cs ∧ Utf8.encode cs = bytes

theorem IsText.valid {bytes : Bytes} (h : IsText bytes) : Utf8.Valid bytes := by
  obtain ⟨cs, -, rfl⟩ := h
  exact Utf8.valid_encode cs

theorem IsText.noNul {bytes : Bytes} (h : IsText bytes) : 0 ∉ bytes := by
  obtain ⟨cs, hcs, rfl⟩ := h
  exact Utf8.zero_notMem_encode hcs

theorem isText_nil : IsText [] := ⟨[], List.not_mem_nil, rfl⟩

theorem IsText.append {first last : Bytes} (hfirst : IsText first) (hlast : IsText last) :
    IsText (first ++ last) := by
  obtain ⟨cs, hcs, rfl⟩ := hfirst
  obtain ⟨ds, hds, rfl⟩ := hlast
  exact ⟨cs ++ ds, by simp [hcs, hds], Utf8.encode_append cs ds⟩

theorem isText_char {c : Char} (h : c ≠ '\x00') : IsText (String.utf8EncodeChar c) :=
  ⟨[c], by simpa using h.symm, by simp⟩

/-- A text that is not empty has a last character. -/
theorem IsText.exists_last {bytes : Bytes} (h : IsText bytes) (hne : bytes ≠ []) :
    ∃ first c, IsText first ∧ c ≠ '\x00' ∧ bytes = first ++ String.utf8EncodeChar c := by
  obtain ⟨cs, hcs, rfl⟩ := h
  induction cs using List.reverseRecOn with
  | nil => exact absurd rfl hne
  | append_singleton ds c _ =>
    simp only [List.mem_append, List.mem_singleton, not_or] at hcs
    exact ⟨Utf8.encode ds, c, ⟨ds, hcs.1, rfl⟩, fun h => hcs.2 h.symm, by simp⟩

/-- A text that is not empty has a first character. -/
theorem IsText.exists_first {bytes : Bytes} (h : IsText bytes) (hne : bytes ≠ []) :
    ∃ c last, c ≠ '\x00' ∧ IsText last ∧ bytes = String.utf8EncodeChar c ++ last := by
  obtain ⟨cs, hcs, rfl⟩ := h
  cases cs with
  | nil => exact absurd rfl hne
  | cons c ds =>
    simp only [List.mem_cons, not_or] at hcs
    exact ⟨c, Utf8.encode ds, fun h => hcs.1 h.symm, ⟨ds, hcs.2, rfl⟩, rfl⟩

section Move

variable {str first rest : Bytes} {c : Char}

theorem isSequence_of_ne_nul (hc : c ≠ '\x00') : Utf8.IsSequence (String.utf8EncodeChar c) :=
  Utf8.isSequence_char fun hmem => hc (Utf8.zero_mem_utf8EncodeChar hmem)

/-- To the left of a character is its first byte. -/
theorem utf8MoveLeft_char (hc : c ≠ '\x00') (hstr : str = first ++ String.utf8EncodeChar c ++ rest) :
    utf8MoveLeft str (first.length + (String.utf8EncodeChar c).length) = first.length :=
  utf8MoveLeft_sequence (isSequence_of_ne_nul hc) hstr

/-- To the right of a character is the next one, or the end. -/
theorem utf8MoveRight_char {last : Bytes} (hc : c ≠ '\x00') (hlast : IsText last)
    (hstr : str = first ++ (String.utf8EncodeChar c ++ last) ++ 0 :: rest) :
    utf8MoveRight str first.length = first.length + (String.utf8EncodeChar c).length := by
  obtain ⟨cs, hcs, rfl⟩ := hlast
  have hsequences : ∀ seq ∈ cs.map String.utf8EncodeChar, Utf8.IsSequence seq := by
    intro seq hseq
    obtain ⟨d, hd, rfl⟩ := List.mem_map.mp hseq
    exact isSequence_of_ne_nul fun hnul => hcs (hnul ▸ hd)
  have hsplit : first ++ (String.utf8EncodeChar c ++ Utf8.encode cs) ++ 0 :: rest =
      first ++ String.utf8EncodeChar c ++ (Utf8.encode cs ++ 0 :: rest) := by
    simp only [List.append_assoc]
  rw [hstr, hsplit]
  exact utf8MoveRight_sequence (isSequence_of_ne_nul hc) (Utf8.isTail_flatten hsequences)

end Move

namespace Hist

/-- All lines of the history are texts. -/
def Texts (hist : Hist) : Prop := ∀ node ∈ hist.list, IsText node.line

variable {hist : Hist} {line : Bytes}

theorem Texts.histPosReset (h : hist.Texts) : hist.histPosReset.Texts := by
  intro node hnode
  unfold Hist.histPosReset at hnode
  dsimp only at hnode
  split at hnode
  · exact h node (List.dropLast_subset _ hnode)
  · exact h node hnode

theorem Texts.histPosUp (h : hist.Texts) : hist.histPosUp.Texts := by
  obtain ⟨pos, hpos⟩ := histPosUp_spec hist
  rw [hpos]
  exact h

theorem Texts.histPosDown (h : hist.Texts) : hist.histPosDown.Texts := by
  obtain ⟨pos, hpos⟩ := histPosDown_spec hist
  rw [hpos]
  exact h

/-- A temporary text is added. -/
theorem Texts.histAdd (h : hist.Texts) (hline : IsText line) : (hist.histAdd line true).Texts := by
  intro node hnode
  have hlist : (hist.histAdd line true).list = _ := stifled_list _
  simp only [listAdd, if_true] at hlist
  have hmem : node ∈ hist.histPosReset.list ++ [⟨hist.histPosReset.fresh, line, true⟩] := by
    rw [hlist] at hnode
    split at hnode
    · exact List.mem_of_mem_tail hnode
    · exact hnode
  rcases List.mem_append.mp hmem with hold | hnew
  · exact h.histPosReset node hold
  · rw [List.mem_singleton.mp hnew]
    exact hline

theorem Texts.histPos (h : hist.Texts) {text : Bytes} (htext : hist.histPos = some text) :
    IsText text := by
  obtain ⟨addr, -, hdata⟩ := Option.bind_eq_some_iff.mp htext
  obtain ⟨node, hnode, rfl⟩ := Option.map_eq_some_iff.mp hdata
  exact h node (List.mem_of_find?_eq_some hnode)

theorem Texts.tinyrlKeyUp (h : hist.Texts) (hline : IsText line) :
    (hist.tinyrlKeyUp line).1.Texts ∧
      ∀ text, (hist.tinyrlKeyUp line).2 = some text → IsText text := by
  have hup : (hist.tinyrlKeyUp line).1.Texts := by
    unfold Hist.tinyrlKeyUp
    dsimp only
    split
    · exact (h.histAdd hline).histPosUp.histPosUp
    · exact h.histPosUp
  exact ⟨hup, fun text htext => hup.histPos htext⟩

end Hist

namespace Tinyrl

/-- The line, the history and the killed text are texts, with the cursor between characters. -/
structure Texts (line : Line) (hist : Hist) (buffer : Option Bytes) : Prop where
  line : ∃ before after, IsText before ∧ IsText after ∧ line.Holds before after
  hist : hist.Texts
  buffer : ∀ text, buffer = some text → IsText text

/-- A key changes the line, the history and the killed text, and they stay texts. -/
def Keeps (t : Tinyrl) (result : Option Tinyrl) : Prop :=
  ∃ line hist buffer, result = some { t with line, hist, buffer } ∧ Texts line hist buffer

variable {t : Tinyrl} {junk : ℕ → UInt8} {buffer : Option Bytes}

theorem keeps_same (h : Texts t.line t.hist t.buffer) : t.Keeps (some t) :=
  ⟨t.line, t.hist, t.buffer, rfl, h⟩

/-- The cursor goes to another place between two characters. -/
theorem keeps_move (h : Texts t.line t.hist t.buffer) {before after : Bytes}
    (hholds : t.line.Holds before after) {before' after' : Bytes} (hbefore : IsText before')
    (hafter : IsText after') (hsplit : before' ++ after' = before ++ after) :
    t.Keeps (some { t with line.pos := before'.length }) :=
  ⟨_, t.hist, t.buffer, rfl, ⟨_, _, hbefore, hafter, hholds.move hsplit⟩, h.hist, h.buffer⟩

/-- A part of the line is deleted. -/
theorem keeps_delete (hhist : t.hist.Texts) (hbuffer : ∀ text, buffer = some text → IsText text)
    {before after : Bytes} (hholds : t.line.Holds before after) {first last : Bytes} {n : ℕ}
    (hfirst : IsText first) (hsplit : first ++ last = before ++ after) (hlast : last ≠ [])
    (hrest : IsText (last.drop n)) :
    t.Keeps (withLine { t with buffer } (t.line.delete first.length n)) := by
  obtain ⟨line', hline, hholds'⟩ := hholds.delete first hsplit hlast n
  rw [hline]
  exact ⟨line', t.hist, buffer, rfl, ⟨_, _, hfirst, hrest, hholds'⟩, hhist, hbuffer⟩

theorem keyDefault_keeps (h : Texts t.line t.hist t.buffer) {key : UInt8}
    (hkey : key > 31 → IsText [key]) : t.Keeps (t.keyDefault junk key) := by
  unfold keyDefault
  split
  · rename_i hbig
    have hkey := hkey hbig
    obtain ⟨before, after, hbefore, hafter, hholds⟩ := h.line
    obtain ⟨line', hline, hholds'⟩ := hholds.insert junk hkey.noNul
    rw [hline]
    exact ⟨line', t.hist, t.buffer, rfl, ⟨_, _, hbefore.append hkey, hafter, hholds'⟩, h.hist,
      h.buffer⟩
  · exact keeps_same h

theorem keyCrlf_keeps (h : Texts t.line t.hist t.buffer) : t.Keeps t.keyCrlf := by
  obtain ⟨before, after, -, -, hholds⟩ := h.line
  obtain ⟨line', hline, hholds'⟩ := hholds.reset
  unfold keyCrlf
  rw [hline]
  exact ⟨line', _, t.buffer, rfl, ⟨_, _, isText_nil, isText_nil, hholds'⟩, h.hist.histPosReset,
    h.buffer⟩

theorem keyStartOfLine_keeps (h : Texts t.line t.hist t.buffer) : t.Keeps t.keyStartOfLine := by
  obtain ⟨before, after, hbefore, hafter, hholds⟩ := h.line
  exact keeps_move h hholds isText_nil (hbefore.append hafter) (List.nil_append _)

theorem keyEndOfLine_keeps (h : Texts t.line t.hist t.buffer) : t.Keeps t.keyEndOfLine := by
  obtain ⟨before, after, hbefore, hafter, hholds⟩ := h.line
  have hend := keeps_move h hholds (hbefore.append hafter) isText_nil (List.append_nil _)
  rwa [List.length_append, ← hholds.len] at hend

theorem keyKill_keeps (h : Texts t.line t.hist t.buffer) : t.Keeps t.keyKill := by
  obtain ⟨before, after, hbefore, hafter, hholds⟩ := h.line
  unfold keyKill
  split
  · exact ⟨t.line, t.hist, none, rfl, h.line, h.hist, by simp⟩
  · rename_i hne
    have hlast : after ≠ [] := by
      intro hnil
      rw [hholds.pos, hholds.len, hnil] at hne
      exact hne rfl
    rw [hholds.pos, hholds.cstrAt_eq rfl]
    refine keeps_delete h.hist ?_ hholds hbefore rfl hlast ?_
    · intro text htext
      exact Option.some.inj htext ▸ hafter
    · rw [List.drop_eq_nil_of_le (by rw [hholds.len]; omega)]
      exact isText_nil

theorem keyYank_keeps (h : Texts t.line t.hist t.buffer) : t.Keeps (t.keyYank junk) := by
  unfold keyYank
  split
  · exact keeps_same h
  · rename_i text htext
    have hkilled := h.buffer text htext
    obtain ⟨before, after, hbefore, hafter, hholds⟩ := h.line
    obtain ⟨line', hline, hholds'⟩ := hholds.insert junk hkilled.noNul
    rw [hline]
    exact ⟨line', t.hist, t.buffer, rfl, ⟨_, _, hbefore.append hkilled, hafter, hholds'⟩, h.hist,
      h.buffer⟩

/-- A line of the history takes the place of the line. -/
theorem keeps_recall (h : Texts t.line t.hist t.buffer) {hist : Hist} (hhist : hist.Texts)
    {text : Bytes} (htext : IsText text) :
    t.Keeps (withLine { t with hist } (t.line.replace junk text)) := by
  obtain ⟨before, after, -, -, hholds⟩ := h.line
  obtain ⟨line', hline, hholds'⟩ := hholds.replace junk htext.noNul
  rw [hline]
  exact ⟨line', hist, t.buffer, rfl, ⟨_, _, htext, isText_nil, hholds'⟩, hhist, h.buffer⟩

theorem keyUp_keeps (h : Texts t.line t.hist t.buffer) : t.Keeps (t.keyUp junk) := by
  obtain ⟨before, after, hbefore, hafter, hholds⟩ := h.line
  obtain ⟨hhist, htext⟩ := h.hist.tinyrlKeyUp (hbefore.append hafter)
  rw [← hholds.cstrAt_eq (List.nil_append _), List.length_nil] at hhist htext
  unfold keyUp
  generalize t.hist.tinyrlKeyUp (cstrAt t.line.str 0) = up at hhist htext ⊢
  obtain ⟨hist, _ | text⟩ := up
  · exact ⟨t.line, hist, t.buffer, rfl, h.line, hhist, h.buffer⟩
  · exact keeps_recall h hhist (htext text rfl)

theorem keyDown_keeps (h : Texts t.line t.hist t.buffer) : t.Keeps (t.keyDown junk) := by
  have hhist : t.hist.tinyrlKeyDown.1.Texts := h.hist.histPosDown
  have htext : ∀ text, t.hist.tinyrlKeyDown.2 = some text → IsText text :=
    fun text htext => hhist.histPos htext
  unfold keyDown
  generalize t.hist.tinyrlKeyDown = down at hhist htext ⊢
  obtain ⟨hist, _ | text⟩ := down
  · exact ⟨t.line, hist, t.buffer, rfl, h.line, hhist, h.buffer⟩
  · exact keeps_recall h hhist (htext text rfl)

/-- The character to the left of the cursor. -/
theorem exists_left (hutf8 : t.utf8 = true) {before after : Bytes} (hbefore : IsText before)
    (hholds : t.line.Holds before after) (hpos : t.line.pos ≠ 0) : ∃ first last,
    IsText first ∧ IsText last ∧ before = first ++ last ∧ last ≠ [] ∧
      t.moveLeft t.line.pos = first.length := by
  have hne : before ≠ [] := by
    rintro rfl
    exact hpos hholds.pos
  obtain ⟨first, c, hfirst, hc, rfl⟩ := hbefore.exists_last hne
  obtain ⟨rest, hstr⟩ := hholds.str
  refine ⟨first, _, hfirst, isText_char hc, rfl, Utf8.utf8EncodeChar_ne_nil c, ?_⟩
  rw [moveLeft, if_pos hutf8, hholds.pos, List.length_append]
  rw [List.append_assoc] at hstr
  exact utf8MoveLeft_char hc hstr

/-- The character to the right of the cursor. -/
theorem exists_right (hutf8 : t.utf8 = true) {before after : Bytes} (hafter : IsText after)
    (hholds : t.line.Holds before after) (hpos : t.line.pos ≠ t.line.len) : ∃ first last,
    IsText first ∧ IsText last ∧ after = first ++ last ∧
      t.moveRight t.line.pos = before.length + first.length := by
  have hne : after ≠ [] := by
    rintro rfl
    exact hpos (hholds.pos.trans hholds.len.symm)
  obtain ⟨c, last, hc, hlast, rfl⟩ := hafter.exists_first hne
  obtain ⟨rest, hstr⟩ := hholds.str
  refine ⟨_, last, isText_char hc, hlast, rfl, ?_⟩
  rw [moveRight, if_pos hutf8, hholds.pos]
  exact utf8MoveRight_char hc hlast hstr

theorem keyLeft_keeps (h : Texts t.line t.hist t.buffer) (hutf8 : t.utf8 = true) :
    t.Keeps t.keyLeft := by
  unfold keyLeft
  split
  · exact keeps_same h
  · rename_i hpos
    obtain ⟨before, after, hbefore, hafter, hholds⟩ := h.line
    obtain ⟨first, last, hfirst, hlast, rfl, -, hmove⟩ := exists_left hutf8 hbefore hholds hpos
    rw [hmove]
    exact keeps_move h hholds hfirst (hlast.append hafter) (List.append_assoc _ _ _).symm

theorem keyRight_keeps (h : Texts t.line t.hist t.buffer) (hutf8 : t.utf8 = true) :
    t.Keeps t.keyRight := by
  unfold keyRight
  split
  · exact keeps_same h
  · rename_i hpos
    obtain ⟨before, after, hbefore, hafter, hholds⟩ := h.line
    obtain ⟨first, last, hfirst, hlast, rfl, hmove⟩ := exists_right hutf8 hafter hholds hpos
    rw [hmove, ← List.length_append]
    exact keeps_move h hholds (hbefore.append hfirst) hlast (List.append_assoc _ _ _)

theorem keyBackspace_keeps (h : Texts t.line t.hist t.buffer) (hutf8 : t.utf8 = true) :
    t.Keeps t.keyBackspace := by
  unfold keyBackspace
  split
  · exact keeps_same h
  · rename_i hpos
    obtain ⟨before, after, hbefore, hafter, hholds⟩ := h.line
    obtain ⟨first, last, hfirst, hlast, rfl, hne, hmove⟩ := exists_left hutf8 hbefore hholds hpos
    have hlen : t.line.pos - first.length = last.length := by
      rw [hholds.pos, List.length_append]
      omega
    dsimp only
    rw [hmove, hlen]
    refine keeps_delete h.hist h.buffer hholds hfirst (List.append_assoc _ _ _).symm
      (by simp [hne]) ?_
    rw [List.drop_left]
    exact hafter

theorem keyDelete_keeps (h : Texts t.line t.hist t.buffer) (hutf8 : t.utf8 = true) :
    t.Keeps t.keyDelete := by
  unfold keyDelete
  split
  · exact keeps_same h
  · rename_i hpos
    obtain ⟨before, after, hbefore, hafter, hholds⟩ := h.line
    obtain ⟨first, last, hfirst, hlast, rfl, hmove⟩ := exists_right hutf8 hafter hholds hpos
    have hlen : before.length + first.length - t.line.pos = first.length := by
      rw [hholds.pos]
      omega
    have hne : first ++ last ≠ [] := by
      intro hnil
      rw [hholds.pos, hholds.len, hnil] at hpos
      exact hpos rfl
    dsimp only
    rw [hmove, hlen, hholds.pos]
    refine keeps_delete h.hist h.buffer hholds hbefore rfl hne ?_
    rw [List.drop_left]
    exact hlast

/-- A loop to the left stops between two characters. -/
theorem skipLeft_text (hutf8 : t.utf8 = true) (stops : UInt8 → Bool) {bytes rest : Bytes}
    (h : IsText bytes) (hstr : t.line.str = bytes ++ rest) : ∃ first last,
    IsText first ∧ IsText last ∧ bytes = first ++ last ∧
      t.skipLeft stops bytes.length = first.length := by
  obtain ⟨cs, hcs, rfl⟩ := h
  induction cs using List.reverseRecOn generalizing rest with
  | nil => exact ⟨[], [], isText_nil, isText_nil, rfl, by simp [skipLeft]⟩
  | append_singleton ds c ih =>
    simp only [List.mem_append, List.mem_singleton, not_or] at hcs
    have hc : c ≠ '\x00' := fun h => hcs.2 h.symm
    have hds : IsText (Utf8.encode ds) := ⟨ds, hcs.1, rfl⟩
    have hsplit : Utf8.encode (ds ++ [c]) = Utf8.encode ds ++ String.utf8EncodeChar c := by simp
    rw [hsplit] at hstr ⊢
    have hmove : t.moveLeft (Utf8.encode ds ++ String.utf8EncodeChar c).length =
        (Utf8.encode ds).length := by
      rw [moveLeft, if_pos hutf8, List.length_append]
      exact utf8MoveLeft_char hc hstr
    obtain ⟨n, hn⟩ : ∃ n, (Utf8.encode ds ++ String.utf8EncodeChar c).length = n + 1 := by
      have hpos := List.length_pos_iff.mpr (Utf8.utf8EncodeChar_ne_nil c)
      rw [List.length_append]
      exact ⟨_, (Nat.succ_pred_eq_of_pos (by omega)).symm⟩
    rw [hn] at hmove ⊢
    rw [skipLeft, hmove]
    split
    · refine ⟨_, [], hds.append (isText_char hc), isText_nil, (List.append_nil _).symm, hn.symm⟩
    · rw [List.append_assoc] at hstr
      obtain ⟨first, last, hfirst, hlast, heq, hskip⟩ := ih hcs.1 hstr
      refine ⟨first, last ++ String.utf8EncodeChar c, hfirst, hlast.append (isText_char hc), ?_,
        hskip⟩
      rw [heq, List.append_assoc]

theorem keyBackword_keeps (h : Texts t.line t.hist t.buffer) (hutf8 : t.utf8 = true) :
    t.Keeps t.keyBackword := by
  unfold keyBackword
  split
  · exact ⟨t.line, t.hist, none, rfl, h.line, h.hist, by simp⟩
  · obtain ⟨before, after, hbefore, hafter, hholds⟩ := h.line
    obtain ⟨rest, hstr⟩ := hholds.str
    rw [List.append_assoc] at hstr
    obtain ⟨word, spaces, hword, hspaces, rfl, hskip⟩ :=
      skipLeft_text hutf8 (fun b => !isspace b) hbefore hstr
    rw [List.append_assoc] at hstr
    obtain ⟨first, last, hfirst, hlast, rfl, hskip'⟩ := skipLeft_text hutf8 isspace hword hstr
    dsimp only
    rw [hholds.pos, hskip, hskip']
    split
    · exact ⟨t.line, t.hist, none, rfl, ⟨_, _, hbefore, hafter, hholds⟩, h.hist, by simp⟩
    · rename_i hne
      have hlen : (first ++ last ++ spaces).length - first.length = (last ++ spaces).length := by
        simp only [List.length_append]
        omega
      have hsplit : first ++ (last ++ spaces ++ after) = first ++ last ++ spaces ++ after := by
        simp only [List.append_assoc]
      rw [hlen, hholds.cstrAt_eq hsplit, List.take_left]
      refine keeps_delete h.hist ?_ hholds hfirst hsplit ?_ ?_
      · intro text htext
        exact Option.some.inj htext ▸ hlast.append hspaces
      · intro hnil
        have hempty := (List.append_eq_nil_iff.mp hnil).1
        rw [List.append_assoc, hempty, List.append_nil] at hne
        exact hne rfl
      · rw [List.drop_left]
        exact hafter

theorem keyEraseLine_keeps (h : Texts t.line t.hist t.buffer) : t.Keeps t.keyEraseLine := by
  obtain ⟨before, after, hbefore, hafter, hholds⟩ := h.line
  unfold keyEraseLine
  split
  · exact ⟨t.line, t.hist, none, rfl, h.line, h.hist, by simp⟩
  · rename_i hne
    have hall : before ++ after ≠ [] := by
      intro hnil
      have hlen := congrArg List.length hnil
      rw [List.length_append, ← hholds.len] at hlen
      exact hne hlen
    have hstring := hholds.cstrAt_eq (List.nil_append (before ++ after))
    rw [List.length_nil] at hstring
    rw [hstring]
    refine keeps_delete h.hist ?_ hholds isText_nil (List.nil_append _) hall ?_
    · intro text htext
      exact Option.some.inj htext ▸ hbefore.append hafter
    · rw [List.drop_eq_nil_of_le (by rw [hholds.len, List.length_append])]
      exact isText_nil

theorem keeps_ite {c : Prop} [Decidable c] {first second : Option Tinyrl} (hfirst : t.Keeps first)
    (hsecond : t.Keeps second) : t.Keeps (if c then first else second) := by
  split
  · exact hfirst
  · exact hsecond

/-- A key that is a character of one byte goes to its handler. -/
theorem handler_keeps (h : Texts t.line t.hist t.buffer) (hutf8 : t.utf8 = true) {key : UInt8}
    (hkey : key > 31 → IsText [key]) : t.Keeps (t.handler junk key) := by
  unfold handler
  refine keeps_ite (keyCrlf_keeps h) ?_
  refine keeps_ite (keyCrlf_keeps h) ?_
  refine keeps_ite (keyBackspace_keeps h hutf8) ?_
  refine keeps_ite (keyDelete_keeps h hutf8) ?_
  refine keeps_ite (keeps_same h) ?_
  refine keeps_ite (keyEraseLine_keeps h) ?_
  refine keeps_ite (keyStartOfLine_keeps h) ?_
  refine keeps_ite (keyEndOfLine_keeps h) ?_
  refine keeps_ite (keyKill_keeps h) ?_
  refine keeps_ite (keyYank_keeps h) ?_
  refine keeps_ite (keeps_same h) ?_
  exact keeps_ite (keyBackword_keeps h hutf8) (keyDefault_keeps h hkey)

theorem tinyrlEscSeq_keeps (h : Texts t.line t.hist t.buffer) (hutf8 : t.utf8 = true)
    (escSeq : Bytes) : t.Keeps (t.tinyrlEscSeq junk escSeq) := by
  unfold tinyrlEscSeq
  split
  · exact keyUp_keeps h
  · exact keyDown_keeps h
  · exact keyLeft_keeps h hutf8
  · exact keyRight_keeps h hutf8
  · exact keyStartOfLine_keeps h
  · exact keyEndOfLine_keeps h
  · exact keyDelete_keeps h hutf8
  · exact keeps_same h
  · exact keeps_same h
  · exact keeps_same h
  · exact keeps_same h

end Tinyrl

end Klish
