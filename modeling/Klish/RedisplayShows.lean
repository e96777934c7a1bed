import Klish.RedisplayUtf8
import Klish.TinyrlLine

/-!
# What the screen shows after a redisplay

Whether the rest of the old line is erased depends on the lengths in bytes. A line that has become
shorter in columns and not in bytes leaves something of the old one on the screen.
-/

namespace Klish

/-- The cells from a place on have the text and blanks, and the cursor stands in the text. -/
structure Screen.Shows (width base : ℕ) (screen : Screen Char) (text : List Char) (pos : ℕ) :
    Prop where
  cells : ∀ i, screen.cells (base + i) = text.getD i ' '
  cursor : screen.At width (base + pos)

/-- The same, but the cursor of an empty line may still be in the last column before it. -/
structure Screen.Displays (width base : ℕ) (screen : Screen Char) (text : List Char) (pos : ℕ) :
    Prop where
  cells : ∀ i, screen.cells (base + i) = text.getD i ' '
  cursor : screen.Next width (base + pos)
  wrap : screen.wrap = true → text = []

/-- The line that was displayed last, as `tinyrl_save_last` has it. -/
structure Line.Saved (line : Line) (before after : Bytes) : Prop where
  str : line.str = before ++ after ++ [0]
  len : line.len = before.length + after.length
  pos : line.pos = before.length

namespace Display

section Move

variable {width : ℕ} {screen : Screen Char} {row col a b : ℕ}

theorem execAll_cols (cells : ℕ → Char) (hb : b < width) :
    Screen.execAll ' ' width ⟨cells, row, a, false⟩
      (if (b : ℤ) - (a : ℤ) > 0 then [.cursorForward ((b : ℤ) - (a : ℤ)).toNat]
        else if (b : ℤ) - (a : ℤ) < 0 then [.cursorBack (-((b : ℤ) - (a : ℤ))).toNat] else []) =
      ⟨cells, row, b, false⟩ := by
  split
  · have hcol : min (a + ((b : ℤ) - (a : ℤ)).toNat) (width - 1) = b := by omega
    simp only [Screen.execAll_cons, Screen.execAll_nil, Screen.exec, hcol]
  · split
    · have hcol : a - (-((b : ℤ) - (a : ℤ))).toNat = b := by omega
      simp only [Screen.execAll_cons, Screen.execAll_nil, Screen.exec, hcol]
    · have hcol : a = b := by omega
      rw [hcol]
      rfl

theorem execAll_rows (cells : ℕ → Char) :
    Screen.execAll ' ' width ⟨cells, row + a, col, false⟩
      (if (b : ℤ) - (a : ℤ) > 0 then [.cursorDown ((b : ℤ) - (a : ℤ)).toNat]
        else if (b : ℤ) - (a : ℤ) < 0 then [.cursorUp (-((b : ℤ) - (a : ℤ))).toNat] else []) =
      ⟨cells, row + b, col, false⟩ := by
  split
  · have hrow : row + a + ((b : ℤ) - (a : ℤ)).toNat = row + b := by omega
    simp only [Screen.execAll_cons, Screen.execAll_nil, Screen.exec, hrow]
  · split
    · have hrow : row + a - (-((b : ℤ) - (a : ℤ))).toNat = row + b := by omega
      simp only [Screen.execAll_cons, Screen.execAll_nil, Screen.exec, hrow]
    · have hrow : a = b := by omega
      rw [hrow]
      rfl

/-- The cursor moves to another cell, and no cell changes. -/
theorem moveCursor_spec (h : screen.At width (row * width + a)) :
    (Screen.execAll ' ' width screen (moveCursor width a b)).At width (row * width + b) ∧
      (Screen.execAll ' ' width screen (moveCursor width a b)).cells = screen.cells := by
  have hpos : 0 < width := Nat.lt_of_le_of_lt (Nat.zero_le _) h.col
  have hdiv : ∀ x, (row * width + x) / width = row + x / width ∧
      (row * width + x) % width = x % width := by
    intro x
    rw [Nat.mul_comm, Nat.mul_add_div hpos, Nat.mul_add_mod]
    exact ⟨rfl, rfl⟩
  obtain ⟨hrow, hcol⟩ := h.eq_div
  rw [(hdiv a).1] at hrow
  rw [(hdiv a).2] at hcol
  have hlt := Nat.mod_lt b hpos
  have hmoved : Screen.execAll ' ' width screen (moveCursor width a b) =
      { screen with row := row + b / width, col := b % width, wrap := false } := by
    have hwrap := h.wrap
    obtain ⟨cells, srow, scol, wrap⟩ := screen
    dsimp only at hrow hcol hwrap
    subst hrow hcol hwrap
    unfold moveCursor
    dsimp only
    rw [Screen.execAll_append, execAll_cols cells hlt, execAll_rows]
  rw [hmoved]
  exact ⟨Screen.at_of_div hpos (hdiv b).1.symm (hdiv b).2.symm rfl, rfl⟩

end Move

section Redisplay

variable {d : Display} {width row : ℕ} {screen : Screen Char}
  {before after before' after' : List Char}

/-- The editor and the screen before a redisplay: a line, and the line that was displayed last. -/
structure Ready (d : Display) (width row : ℕ) (screen : Screen Char)
    (before after before' after' : List Char) : Prop where
  utf8 : d.utf8 = true
  sameWidth : d.width = width
  single : ∀ c ∈ before ++ after, SingleColumn c
  single' : ∀ c ∈ before' ++ after', SingleColumn c
  line : d.line.Holds (Utf8.encode before) (Utf8.encode after)
  last : ∃ last, d.last = some last ∧ last.Saved (Utf8.encode before') (Utf8.encode after')
  screen : screen.Displays width (row * width + d.promptChars) (before' ++ after') before'.length

/-- The rest of the old line is erased, or there is nothing of it to be seen. A line that is empty
again is not in the last column before it. -/
def Erases (d : Display) (screen : Screen Char) (text text' : List Char) : Prop :=
  (screen.wrap = true → text ≠ []) ∧
    ((d.last.map (·.len)).getD 0 > d.line.len ∨ ∀ c ∈ text'.drop text.length, c = ' ')

/-- The cursor goes to the end of the equal part, and no cell changes. -/
theorem prepare_spec (h : Ready d width row screen before after before' after') :
    ∃ same rest rest', before ++ after = same ++ rest ∧ before' ++ after' = same ++ rest' ∧
      (d.prepare width).1 = (Utf8.encode same).length ∧
      ∃ screen', Screen.execAll ' ' width screen (d.prepare width).2 = screen' ∧
        screen'.cells = screen.cells ∧
        screen'.Next width (row * width + d.promptChars + same.length) ∧
        screen'.wrap = screen.wrap := by
  obtain ⟨last, hlast, hsaved⟩ := h.last
  obtain ⟨tail, hstr⟩ := h.line.str
  rw [← Utf8.encode_append] at hstr
  have hstr' := hsaved.str
  rw [← Utf8.encode_append] at hstr'
  have hnul : '\x00' ∉ before ++ after := fun hmem => (h.single _ hmem).ne_nul rfl
  obtain ⟨same, rest, rest', hsplit, hsplit', -, hequal⟩ :=
    @tinyrlEqualPart_text (before ++ after) (before' ++ after') hnul tail []
  have hsame : ∀ c ∈ same, SingleColumn c :=
    fun c hc => h.single' c (hsplit' ▸ List.mem_append_left _ hc)
  have heqChars : utf8Nsyms last.str (Utf8.encode same).length = same.length := by
    rw [hstr', hsplit', Utf8.encode_append, List.append_assoc]
    exact utf8Nsyms_encode hsame _
  have hposChars : utf8Nsyms last.str last.pos = before'.length := by
    rw [hstr', hsaved.pos, Utf8.encode_append, List.append_assoc]
    exact utf8Nsyms_encode (fun c hc => h.single' c (List.mem_append_left _ hc)) _
  have hprepare : d.prepare width = ((Utf8.encode same).length,
      moveCursor width (d.promptChars + before'.length) (d.promptChars + same.length)) := by
    unfold prepare
    rw [hlast]
    simp only [h.sameWidth, if_true, h.utf8, hstr, hstr', hequal]
    rw [← hstr', heqChars, hposChars]
  rw [hprepare]
  refine ⟨same, rest, rest', hsplit, hsplit', rfl, _, rfl, ?_⟩
  cases hwrap : screen.wrap with
  | false =>
    have hat : screen.At width (row * width + (d.promptChars + before'.length)) := by
      rw [← Nat.add_assoc]
      exact h.screen.cursor.resolve_right fun hnext =>
        Bool.false_ne_true (hwrap.symm.trans hnext.1)
    obtain ⟨hmoved, hcells⟩ := @moveCursor_spec width screen row _ (d.promptChars + same.length) hat
    refine ⟨hcells, ?_, hmoved.wrap⟩
    rw [Nat.add_assoc]
    exact hmoved.next
  | true =>
    -- The old line is empty, and so is the equal part.
    have hnil := h.screen.wrap hwrap
    obtain ⟨hbefore, -⟩ := List.append_eq_nil_iff.mp hnil
    obtain ⟨hsameNil, -⟩ := List.append_eq_nil_iff.mp (hsplit'.symm.trans hnil)
    have hnone : moveCursor width (d.promptChars + before'.length) (d.promptChars + same.length) =
        [] := by
      rw [hbefore, hsameNil]
      simp [moveCursor]
    have hcursor := h.screen.cursor
    rw [hbefore] at hcursor
    rw [hnone, hsameNil]
    exact ⟨rfl, hcursor, hwrap⟩

/-- After the new part is printed, the new line is on the screen with what is left of the old one
after it, and the cursor is at its end. -/
theorem printed_spec (h : Ready d width row screen before after before' after') :
    ∃ screen', Screen.execAll ' ' width screen ((d.prepare width).2 ++
        vt100Printf (cstrAt d.line.str (d.prepare width).1) ++
        if (d.promptChars + (before ++ after).length) % width = 0 ∧
          d.line.len - (d.prepare width).1 ≠ 0 then [.nextLine] else []) = screen' ∧
      (∀ i, screen'.cells (row * width + d.promptChars + i) =
        (before ++ after).getD i ((before' ++ after').getD i ' ')) ∧
      screen'.Next width (row * width + d.promptChars + (before ++ after).length) ∧
      (screen'.wrap = true ↔ screen.wrap = true ∧ before ++ after = []) := by
  obtain ⟨same, rest, rest', hsplit, hsplit', heqBytes, screen₁, hrun, hcells, hnext, hwrap⟩ :=
    prepare_spec h
  have hstring : cstrAt d.line.str (Utf8.encode same).length = Utf8.encode rest := by
    refine h.line.cstrAt_eq ?_
    rw [← Utf8.encode_append, ← Utf8.encode_append, hsplit]
  have hlen : d.line.len - (Utf8.encode same).length = (Utf8.encode rest).length := by
    have hboth := congrArg (fun cs => (Utf8.encode cs).length) hsplit
    simp only [Utf8.encode_append, List.length_append] at hboth
    rw [h.line.len]
    omega
  have hmore : (Utf8.encode rest).length ≠ 0 ↔ rest ≠ [] := by
    cases rest with
    | nil => simp
    | cons c rest =>
      have hpos := List.length_pos_iff.mpr (Utf8.utf8EncodeChar_ne_nil c)
      rw [Utf8.encode_cons, List.length_append]
      exact ⟨fun _ => List.cons_ne_nil _ _, fun _ => by omega⟩
  obtain ⟨hcells', hnext', hwrap'⟩ := @Screen.print_spec Char ' ' width screen₁ _ hnext rest
  rw [heqBytes, hstring, hlen, Screen.execAll_append, Screen.execAll_append, hrun, vt100Printf,
    Utf8.decode_encode, Screen.execAll_cons, Screen.execAll_nil]
  have hend : row * width + d.promptChars + same.length + rest.length =
      row * width + d.promptChars + (before ++ after).length := by
    rw [hsplit, List.length_append]
    omega
  rw [hend] at hnext' hwrap'
  have hmod : (row * width + d.promptChars + (before ++ after).length) % width =
      (d.promptChars + (before ++ after).length) % width := by
    rw [Nat.add_assoc, Nat.mul_comm, Nat.mul_add_mod]
  rw [hmod] at hwrap'
  have hprinted : ∀ i, (Screen.exec ' ' width screen₁ (.print rest)).cells
      (row * width + d.promptChars + i) =
        (before ++ after).getD i ((before' ++ after').getD i ' ') := by
    intro i
    rw [hcells', hcells, h.screen.cells, hsplit, hsplit']
    by_cases hi : i < same.length
    · rw [if_neg (by omega), List.getD_append _ _ _ _ hi, List.getD_append _ _ _ _ hi,
        List.getD_eq_getElem _ _ hi, List.getD_eq_getElem _ _ hi]
    · have hsub : row * width + d.promptChars + i - (row * width + d.promptChars + same.length) =
          i - same.length := by omega
      rw [if_pos (by omega), hsub, List.getD_append_right same rest' _ _ (by omega),
        List.getD_append_right same rest _ _ (by omega)]
  by_cases hrest : rest = []
  · have hline : before ++ after = same := by rw [hsplit, hrest, List.append_nil]
    rw [if_neg fun hand => hmore.mp hand.2 hrest, Screen.execAll_nil]
    have hprint : (Screen.exec ' ' width screen₁ (.print rest)).wrap = screen.wrap := by
      rw [hrest]
      exact hwrap
    refine ⟨_, rfl, hprinted, hnext', ?_⟩
    rw [hprint]
    constructor
    · intro hw
      have hnil := h.screen.wrap hw
      rw [hsplit'] at hnil
      exact ⟨hw, hline.trans (List.append_eq_nil_iff.mp hnil).1⟩
    · exact fun hand => hand.1
  · have hline : before ++ after ≠ [] := by
      rw [hsplit]
      exact fun hnil => hrest (List.append_eq_nil_iff.mp hnil).2
    by_cases hfull : (d.promptChars + (before ++ after).length) % width = 0
    · rw [if_pos ⟨hfull, hmore.mpr hrest⟩, Screen.execAll_cons, Screen.execAll_nil]
      have hat := hnext'.nextRow ((hwrap' hrest).mpr hfull)
      refine ⟨_, rfl, hprinted, hat.next, ?_⟩
      exact ⟨fun hw => absurd (hat.wrap.symm.trans hw) Bool.false_ne_true,
        fun hand => absurd hand.2 hline⟩
    · rw [if_neg fun hand => hfull hand.1, Screen.execAll_nil]
      refine ⟨_, rfl, hprinted, hnext', ?_⟩
      exact ⟨fun hw => absurd ((hwrap' hrest).mp hw) hfull, fun hand => absurd hand.2 hline⟩

/-- The rest of the old line is gone when the screen is erased from the end of the new one. -/
theorem erased_spec {base : ℕ} {text text' : List Char}
    (hcells : ∀ i, screen.cells (base + i) = text.getD i (text'.getD i ' '))
    (hat : screen.At width (base + text.length)) (i : ℕ) :
    (Screen.exec ' ' width screen .eraseDown).cells (base + i) = text.getD i ' ' := by
  rw [Screen.eraseDown_cells, hat.index, hcells]
  by_cases hi : i < text.length
  · rw [if_neg (by omega), List.getD_eq_getElem _ _ hi, List.getD_eq_getElem _ _ hi]
  · rw [if_pos (by omega), List.getD_eq_default _ _ (by omega)]

/-- What is left of a text after another is blank. -/
theorem rest_blank_iff {text text' : List Char} :
    (∀ i, text.getD i (text'.getD i ' ') = text.getD i ' ') ↔
      ∀ c ∈ text'.drop text.length, c = ' ' := by
  constructor
  · intro h c hc
    obtain ⟨i, hi, rfl⟩ := List.mem_iff_getElem.mp hc
    have hlt : i < text'.length - text.length := by
      rw [← List.length_drop]
      exact hi
    have hcell := h (text.length + i)
    rw [List.getD_eq_default text _ (by omega), List.getD_eq_default text _ (by omega),
      List.getD_eq_getElem text' _ (by omega)] at hcell
    rw [List.getElem_drop]
    exact hcell
  · intro h i
    by_cases hi : i < text.length
    · rw [List.getD_eq_getElem text _ hi, List.getD_eq_getElem text _ hi]
    · rw [List.getD_eq_default text _ (by omega), List.getD_eq_default text _ (by omega)]
      by_cases hi' : i < text'.length
      · have hlt : i - text.length < (text'.drop text.length).length := by
          rw [List.length_drop]
          omega
        have hblank := h _ (List.getElem_mem hlt)
        have hsum : text.length + (i - text.length) = i := by omega
        rw [List.getElem_drop] at hblank
        simp only [hsum] at hblank
        rw [List.getD_eq_getElem text' _ hi', hblank]
      · rw [List.getD_eq_default text' _ (by omega)]

/-- The screen shows the line after a redisplay, exactly if the rest of the old one is erased. -/
theorem redisplay_shows_iff (h : Ready d width row screen before after before' after') :
    Screen.Shows width (row * width + d.promptChars)
        (Screen.execAll ' ' width screen (d.redisplay width).1) (before ++ after) before.length ↔
      Erases d screen (before ++ after) (before' ++ after') := by
  obtain ⟨tail, hstr⟩ := h.line.str
  have hall : utf8Nsyms d.line.str d.line.len = (before ++ after).length := by
    rw [hstr, h.line.len, ← List.length_append, ← Utf8.encode_append]
    exact utf8Nsyms_encode h.single _
  have hpos : utf8Nsyms d.line.str d.line.pos = before.length := by
    rw [hstr, h.line.pos, List.append_assoc]
    exact utf8Nsyms_encode (fun c hc => h.single c (List.mem_append_left _ hc)) _
  have hend : ¬d.line.pos < d.line.len → after = [] := by
    intro hle
    rw [h.line.pos, h.line.len] at hle
    cases after with
    | nil => rfl
    | cons c after =>
      have hlt := List.length_pos_iff.mpr (Utf8.utf8EncodeChar_ne_nil c)
      rw [Utf8.encode_cons, List.length_append] at hle
      omega
  obtain ⟨screen₁, hrun, hcells, hnext, hwrap⟩ := printed_spec h
  unfold redisplay
  dsimp only
  rw [hall, hpos, h.sameWidth, Screen.execAll_append, Screen.execAll_append, hrun]
  unfold Erases
  -- The last steps leave the wrap as it is, or take the cursor to its place.
  by_cases hcorner : screen.wrap = true ∧ before ++ after = []
  · have hbefore := (List.append_eq_nil_iff.mp hcorner.2).1
    have hafter := (List.append_eq_nil_iff.mp hcorner.2).2
    have hstays : ¬d.line.pos < d.line.len := by
      rw [h.line.pos, h.line.len, hbefore, hafter]
      exact Nat.lt_irrefl _
    rw [if_neg hstays, Screen.execAll_nil]
    refine iff_of_false (fun hshows => ?_) fun hand => hand.1 hcorner.1 hcorner.2
    have hw := hshows.cursor.wrap
    have hw' : (Screen.execAll ' ' width screen₁
        (if (d.last.map (·.len)).getD 0 > d.line.len then [.eraseDown] else [])).wrap =
          screen₁.wrap := by
      split <;> rfl
    exact Bool.false_ne_true (hw.symm.trans (hw'.trans (hwrap.mpr hcorner)))
  · have hat : screen₁.At width (row * width + d.promptChars + (before ++ after).length) :=
      hnext.resolve_right fun hwaits => hcorner (hwrap.mp hwaits.1)
    obtain ⟨screen₂, hrun₂, hat₂, hcells₂⟩ : ∃ screen₂,
        Screen.execAll ' ' width screen₁
          (if (d.last.map (·.len)).getD 0 > d.line.len then [.eraseDown] else []) = screen₂ ∧
        screen₂.At width (row * width + d.promptChars + (before ++ after).length) ∧
        ((∀ i, screen₂.cells (row * width + d.promptChars + i) = (before ++ after).getD i ' ') ↔
          (d.last.map (·.len)).getD 0 > d.line.len ∨
            ∀ c ∈ (before' ++ after').drop (before ++ after).length, c = ' ') := by
      refine ⟨_, rfl, ?_⟩
      split
      · rename_i hyes
        exact ⟨Screen.eraseDown_at hat, iff_of_true (erased_spec hcells hat) (.inl hyes)⟩
      · rename_i hno
        refine ⟨hat, ?_⟩
        rw [← rest_blank_iff]
        simp only [Screen.execAll_nil, hcells, hno, false_or]
    rw [hrun₂]
    have hplace : ∃ screen₃, Screen.execAll ' ' width screen₂ (if d.line.pos < d.line.len then
        moveCursor width (d.promptChars + (before ++ after).length)
          (d.promptChars + before.length) else []) = screen₃ ∧
        screen₃.At width (row * width + d.promptChars + before.length) ∧
        screen₃.cells = screen₂.cells := by
      refine ⟨_, rfl, ?_⟩
      split
      · rw [Nat.add_assoc] at hat₂
        rw [Nat.add_assoc]
        exact moveCursor_spec hat₂
      · rename_i hle
        rw [hend hle, List.append_nil] at hat₂
        exact ⟨hat₂, rfl⟩
    obtain ⟨screen₃, hrun₃, hat₃, hcells₃⟩ := hplace
    rw [hrun₃]
    have hfirst : screen.wrap = true → before ++ after ≠ [] := fun hw hnil => hcorner ⟨hw, hnil⟩
    constructor
    · intro hshows
      refine ⟨hfirst, hcells₂.mp fun i => ?_⟩
      rw [← hcells₃]
      exact hshows.cells i
    · rintro ⟨-, hblank⟩
      refine ⟨fun i => ?_, hat₃⟩
      rw [hcells₃]
      exact hcells₂.mpr hblank i

end Redisplay

section Sample

variable (text text' : List Char)

/-- One text was displayed after a short prompt, and now there is another one. The cursor is at the
end of them. -/
def sample : Display :=
  let ended (text : List Char) : Line :=
    let bytes := Utf8.encode text
    ⟨bytes ++ [0], bytes.length + 1, bytes.length, bytes.length⟩
  { line := ended text, last := some (ended text'), utf8 := true, width := 80
    prompt := Utf8.encode ['>', ' '], promptChars := 2 }

def sampleScreen : Screen Char :=
  ⟨fun i => ('>' :: ' ' :: text').getD i ' ', 0, text'.length + 2, false⟩

variable {text text'}

theorem sample_ready (hsingle : ∀ c ∈ text, SingleColumn c) (hsingle' : ∀ c ∈ text', SingleColumn c)
    (hshort : text'.length + 2 < 80) :
    Ready (sample text text') 80 0 (sampleScreen text') text [] text' [] := by
  have hnoNul : ∀ cs : List Char, (∀ c ∈ cs, SingleColumn c) → 0 ∉ Utf8.encode cs ++ [] := by
    intro cs hcs
    rw [List.append_nil]
    exact Utf8.zero_notMem_encode fun hmem => (hcs _ hmem).ne_nul rfl
  refine ⟨rfl, rfl, ?_, ?_, ?_, ?_, ?_⟩
  · rw [List.append_nil]
    exact hsingle
  · rw [List.append_nil]
    exact hsingle'
  · exact ⟨⟨[], by simp [sample, Utf8.encode]⟩, by simp [sample], by simp [sample, Utf8.encode], rfl,
      hnoNul text hsingle⟩
  · exact ⟨_, rfl, by simp [Utf8.encode], by simp [Utf8.encode], rfl⟩
  · refine ⟨fun i => ?_, .inl ⟨hshort, ?_, rfl⟩, fun hw => absurd hw Bool.false_ne_true⟩
    · have hplace : 0 * 80 + (sample text text').promptChars + i = i + 2 := by
        simp only [sample]
        omega
      rw [hplace, List.append_nil]
      rfl
    · simp only [Screen.index, sampleScreen, sample]
      omega

theorem redisplay_shows_iff_shorter :
    Screen.Shows 80 2 (Screen.execAll ' ' 80 (sampleScreen ['a', 'b'])
        ((sample ['a'] ['a', 'b']).redisplay 80).1) ['a'] 1 ↔
      Erases (sample ['a'] ['a', 'b']) (sampleScreen ['a', 'b']) ['a'] ['a', 'b'] :=
  redisplay_shows_iff (sample_ready (List.forall_mem_singleton.mpr (by decide))
    (List.forall_mem_cons.mpr ⟨by decide, List.forall_mem_singleton.mpr (by decide)⟩) (by decide))

/-- One character of two bytes takes the place of two characters of one byte. -/
theorem narrower_line_leaves_rest :
    ¬Screen.Shows 80 2 (Screen.execAll ' ' 80 (sampleScreen ['a', 'b'])
        ((sample ['é'] ['a', 'b']).redisplay 80).1) ['é'] 1 := by
  intro hshows
  have hcell := hshows.cells 1
  exact absurd hcell (by decide +kernel)

end Sample

end Display

end Klish
