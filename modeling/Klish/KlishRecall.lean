import Klish.HistLinked
import Klish.KlishKeys

/-!
# Where a new line starts in the history

The position in the history is not reset by an empty line and not by a hotkey. When the last line
was left while it was browsed, the Up key goes on from there.
-/

namespace Klish

namespace Tinyrl

/-- What every key keeps, whatever the bytes are. -/
structure InOrder (t : Tinyrl) : Prop where
  strings : Strings t.line t.buffer
  linked : t.hist.Linked
  escP : t.escP < 10
  escSeq : t.escSeq.length = 10

/-- A key that does not begin to browse. -/
def Settles (t : Tinyrl) (result : Option Tinyrl) : Prop :=
  ∃ line hist buffer, result = some { t with line, hist, buffer } ∧ Strings line buffer ∧
    hist.Linked ∧ (t.hist.pos = none → hist.pos = none)

variable {t : Tinyrl} {junk : ℕ → UInt8} {signedChar : Bool} {unclosedQuotes : Bytes → Bool}
  {hotkeys : ℕ → Option String} {result : Option Tinyrl}

theorem Edits.settles (h : t.InOrder) (hedits : t.Edits result) : t.Settles result := by
  obtain ⟨line, buffer, hresult, hstrings⟩ := hedits
  exact ⟨line, t.hist, buffer, hresult, hstrings, h.linked, id⟩

theorem text_of_holds {line : Line} {before after : Bytes} (h : line.Holds before after) :
    cstrAt line.str 0 = before ++ after := h.cstrAt_eq (List.nil_append _)

theorem text_noNul (t : Tinyrl) : 0 ∉ t.text := zero_notMem_cstrAt _ _

/-- A line of the history takes the place of the line, if there is one. -/
theorem exists_recalled (h : t.InOrder) (junk : ℕ → UInt8) (recalled : Hist × Option Bytes)
    (hrecalled : ∀ text, recalled.2 = some text → 0 ∉ text) : ∃ line,
    (match recalled with
      | (hist, none) => some { t with hist }
      | (hist, some str) => withLine { t with hist } (t.line.replace junk str)) =
        some { t with line, hist := recalled.1 } ∧
      Strings line t.buffer ∧ cstrAt line.str 0 = recalled.2.getD t.text := by
  obtain ⟨hist, _ | str⟩ := recalled
  · exact ⟨t.line, rfl, h.strings, rfl⟩
  · obtain ⟨before, after, hholds⟩ := h.strings.line
    obtain ⟨line', hline, hholds'⟩ := hholds.replace junk (hrecalled str rfl)
    refine ⟨line', ?_, ⟨⟨_, _, hholds'⟩, h.strings.buffer⟩, ?_⟩
    · dsimp only
      rw [hline]
      rfl
    · rw [text_of_holds hholds', List.append_nil]
      rfl

theorem keyUp_spec (h : t.InOrder) (junk : ℕ → UInt8) : ∃ line,
    t.keyUp junk = some { t with line, hist := (t.hist.tinyrlKeyUp t.text).1 } ∧
      Strings line t.buffer ∧ cstrAt line.str 0 = (t.hist.tinyrlKeyUp t.text).2.getD t.text :=
  exists_recalled h junk (t.hist.tinyrlKeyUp t.text) fun _ htext =>
    (h.linked.tinyrlKeyUp t.text_noNul).histPos_noNul htext

theorem keyDown_spec (h : t.InOrder) (junk : ℕ → UInt8) : ∃ line,
    t.keyDown junk = some { t with line, hist := t.hist.histPosDown } ∧
      Strings line t.buffer ∧ cstrAt line.str 0 = t.hist.tinyrlKeyDown.2.getD t.text :=
  exists_recalled h junk t.hist.tinyrlKeyDown fun _ htext =>
    h.linked.histPosDown.histPos_noNul htext

theorem keyDown_settles (h : t.InOrder) : t.Settles (t.keyDown junk) := by
  obtain ⟨line, hdown, hstrings, -⟩ := keyDown_spec h junk
  refine ⟨line, t.hist.histPosDown, t.buffer, hdown, hstrings, h.linked.histPosDown, fun hpos => ?_⟩
  rw [Hist.histPosDown, hpos]
  exact hpos

/-- The line becomes empty with a history of its own. -/
theorem exists_reset (h : t.InOrder) (hist : Hist) : ∃ line,
    withLine { t with hist } t.line.reset = some { t with line, hist } ∧ line.Holds [] [] := by
  obtain ⟨before, after, hholds⟩ := h.strings.line
  obtain ⟨line', hline, hholds'⟩ := hholds.reset
  rw [hline]
  exact ⟨line', rfl, hholds'⟩

theorem keyCrlf_spec (h : t.InOrder) : ∃ line,
    t.keyCrlf = some { t with line, hist := t.hist.histPosReset } ∧ line.Holds [] [] := by
  obtain ⟨before, after, hholds⟩ := h.strings.line
  obtain ⟨line', hline, hholds'⟩ := hholds.reset
  unfold keyCrlf
  rw [hline]
  exact ⟨line', rfl, hholds'⟩

/-- The history after the Enter key. -/
theorem klishKeyEnter_spec (h : t.InOrder) : ∃ line hist,
    t.klishKeyEnter = some { t with line, hist } ∧ line.Holds [] [] ∧ hist.Linked ∧
      (hist.pos = none ↔ t.hist.pos = none ∨ t.line.len ≠ 0) := by
  unfold klishKeyEnter lineToHist
  split
  · rename_i hempty
    obtain ⟨line', hline, hholds⟩ := exists_reset h t.hist
    exact ⟨line', t.hist, hline, hholds, h.linked, by simp [hempty]⟩
  · rename_i hline
    obtain ⟨line', hreset, hholds⟩ := exists_reset h (t.hist.histAdd t.text false)
    refine ⟨line', _, hreset, hholds, h.linked.histAdd t.text_noNul false, ?_⟩
    rw [Hist.histAdd_pos]
    exact iff_of_true rfl (.inr hline)

theorem strings_of_empty (h : t.InOrder) {line : Line} (hholds : line.Holds [] []) :
    Strings line t.buffer := ⟨⟨_, _, hholds⟩, h.strings.buffer⟩

theorem klishHandler_settles (h : t.InOrder) (key : UInt8) :
    t.Settles (t.klishHandler junk unclosedQuotes hotkeys key) := by
  have hsame := edits_same h.strings
  unfold klishHandler
  split
  · obtain ⟨line, hist, henter, hholds, hlinked, hpos⟩ := klishKeyEnter_spec h
    exact ⟨line, hist, t.buffer, henter, strings_of_empty h hholds, hlinked,
      fun hnone => hpos.mpr (.inl hnone)⟩
  · rename_i hnotEnter
    split
    · exact Edits.settles h hsame
    · split
      · exact Edits.settles h (edits_ite (keyDefault_edits h.strings key) hsame)
      · split
        · by_cases hetx : key = 3
          · obtain ⟨line, hcrlf, hholds⟩ := keyCrlf_spec h
            rw [hetx]
            exact ⟨line, t.hist.histPosReset, t.buffer, hcrlf, strings_of_empty h hholds,
              h.linked.histPosReset, fun _ => rfl⟩
          · exact Edits.settles h (handler_edits h.strings (fun hcr => hnotEnter (.inr hcr))
              (fun hlf => hnotEnter (.inl hlf)) hetx)
        · unfold klishKeyHotkey
          split
          · exact Edits.settles h hsame
          · obtain ⟨line, hreset, hholds⟩ := exists_reset h t.hist
            exact ⟨line, t.hist, t.buffer, hreset, strings_of_empty h hholds, h.linked, id⟩

theorem noteUtf8_spec (t : Tinyrl) (key : UInt8) : ∃ n, t.noteUtf8 key = { t with utf8Cont := n } := by
  unfold noteUtf8
  repeat' split
  all_goals exact ⟨_, rfl⟩

/-- A byte of an escape sequence: the sequence goes on, or is given up, or is the one of a key. -/
theorem processChar_escape (h : t.InOrder) (hesc : t.escCont = true) (key : UInt8) :
    ∃ escSeq escP, escSeq.length = 10 ∧ escP < 10 ∧
      ((t.escKey signedChar key = none ∧ ∃ escCont,
        t.processChar junk signedChar key = some { t with escSeq, escP, escCont }) ∨
      ∃ seq, t.escKey signedChar key = some (vt100EscDecode seq) ∧
        t.processChar junk signedChar key = (tinyrlEscSeq junk { t with escSeq, escP } seq).map
          fun t => { t with escCont := false }) := by
  have hescP := h.escP
  unfold processChar
  rw [if_neg fun hand => absurd (hesc.symm.trans hand.1) (by simp), if_pos hesc]
  unfold escKey
  by_cases hlong : t.escP ≥ 10 - 1
  · rw [if_pos hlong, if_neg fun hand => absurd hand.2.1 (by omega)]
    exact ⟨t.escSeq, t.escP, h.escSeq, h.escP, .inl ⟨rfl, false, rfl⟩⟩
  · have hfits : t.escP + [key].length ≤ t.escSeq.length := by
      rw [h.escSeq, List.length_singleton]
      omega
    obtain ⟨escSeq, hwrite, hlen⟩ := Buffer.exists_write hfits
    rw [if_neg hlong, hwrite]
    simp only [Option.bind_eq_bind, Option.bind_some]
    by_cases hends : endsEsc signedChar key = true
    · have hfits' : t.escP + 1 + [(0 : UInt8)].length ≤ escSeq.length := by
        rw [hlen, h.escSeq, List.length_singleton]
        omega
      obtain ⟨escSeq', hwrite', hlen'⟩ := Buffer.exists_write hfits'
      rw [if_pos hends, if_pos ⟨hesc, by omega, hends⟩, hwrite']
      refine ⟨escSeq', t.escP + 1, hlen'.trans (hlen.trans h.escSeq), by omega, .inr ?_⟩
      refine ⟨cstrAt escSeq' 0, rfl, ?_⟩
      dsimp only [Option.bind_some]
      cases tinyrlEscSeq junk { t with escSeq := escSeq', escP := t.escP + 1 }
        (cstrAt escSeq' 0) <;> rfl
    · rw [if_neg hends, if_neg fun hand => hends hand.2.2]
      exact ⟨escSeq, t.escP + 1, hlen.trans h.escSeq, by omega, .inl ⟨rfl, t.escCont, rfl⟩⟩

theorem tinyrlEscSeq_up {seq : Bytes} (h : vt100EscDecode seq = .cursorUp) :
    t.tinyrlEscSeq junk seq = t.keyUp junk := by
  unfold tinyrlEscSeq
  rw [h]

theorem tinyrlEscSeq_down {seq : Bytes} (h : vt100EscDecode seq = .cursorDown) :
    t.tinyrlEscSeq junk seq = t.keyDown junk := by
  unfold tinyrlEscSeq
  rw [h]

theorem tinyrlEscSeq_settles (h : t.InOrder) {seq : Bytes} (hup : vt100EscDecode seq ≠ .cursorUp) :
    t.Settles (t.tinyrlEscSeq junk seq) := by
  have hsame := edits_same h.strings
  unfold tinyrlEscSeq
  split
  · exact absurd ‹_› hup
  · exact keyDown_settles h
  · exact Edits.settles h (keyLeft_edits h.strings)
  · exact Edits.settles h (keyRight_edits h.strings)
  · exact Edits.settles h (edits_move h.strings (Nat.zero_le _))
  · exact Edits.settles h (edits_move h.strings (Nat.le_refl _))
  · exact Edits.settles h (keyDelete_edits h.strings)
  all_goals exact Edits.settles h hsame

end Tinyrl

namespace KlishTinyrl

section Definitions

variable (junk : ℕ → UInt8) (signedChar : Bool) (unclosedQuotes : Bytes → Bool)

/-- The Up key, with the last byte of its sequence. -/
def IsUp (s : KlishTinyrl) : KlishTinyrlEvent → Prop
  | .byte key => s.tinyrl.escKey signedChar key = some .cursorUp
  | _ => False

/-- The bytes of the Down key. -/
def downKey : List KlishTinyrlEvent := [.byte 27, .byte 91, .byte 66]

/-- The key submits or abandons the line: Enter, ^C, or a hotkey with a line. -/
def EndsLine (s : KlishTinyrl) (key : UInt8) : Prop :=
  s.tinyrl.escCont = false ∧ (key = 10 ∨ key = 13 ∨ key = 3 ∨
    key ≠ 9 ∧ key ≠ 27 ∧ Tinyrl.bound key = false ∧ (Tinyrl.hotkeyLine s.hotkeys key).isSome)

/-- The Up key gives the newest real entry and stores the line, and the Down key gives the line
back. Without a real entry the line stays. -/
structure Recalls (s s' : KlishTinyrl) : Prop where
  newest : s'.tinyrl.text = s.tinyrl.hist.real.getLast?.getD s.tinyrl.text
  snapshot : s'.tinyrl.hist.snapshot = some s.tinyrl.text
  down : ∃ s'', Runs.run (step junk signedChar unclosedQuotes) s' downKey = some s'' ∧
    s''.tinyrl.text = s.tinyrl.text

/-- Whatever is done before it, the next Up key recalls the newest entry. -/
def StartsAtEnd (s : KlishTinyrl) : Prop :=
  ∀ events s₁ event, Runs.run (step junk signedChar unclosedQuotes) s events = some s₁ →
    Runs.Along (step junk signedChar unclosedQuotes) (fun s event => ¬IsUp signedChar s event) s
      events → IsUp signedChar s₁ event →
    ∃ s₂, step junk signedChar unclosedQuotes s₁ event = some s₂ ∧
      Recalls junk signedChar unclosedQuotes s₁ s₂

/-- No entry is browsed, or the end of the line resets the position. -/
def Resets (s : KlishTinyrl) (key : UInt8) : Prop :=
  s.tinyrl.hist.pos = none ∨ key = 3 ∨ (key = 10 ∨ key = 13) ∧ s.tinyrl.line.len ≠ 0

end Definitions

variable {junk : ℕ → UInt8} {signedChar : Bool} {unclosedQuotes : Bytes → Bool} {s : KlishTinyrl}

open Tinyrl

/-- What a key that does not begin to browse keeps. -/
theorem settles_order {t : Tinyrl} (ht : t.InOrder) {result : Option Tinyrl}
    (hsettles : t.Settles result) (change : Tinyrl → Tinyrl)
    (hchange : ∀ line hist buffer, ∃ n escCont, change { t with line, hist, buffer } =
      { t with line, hist, buffer, utf8Cont := n, escCont }) :
    ∃ t', result.map change = some t' ∧ t'.InOrder ∧ (t.hist.pos = none → t'.hist.pos = none) := by
  obtain ⟨line, hist, buffer, hresult, hstrings, hlinked, hpos⟩ := hsettles
  obtain ⟨n, escCont, heq⟩ := hchange line hist buffer
  rw [hresult, Option.map_some, heq]
  exact ⟨_, rfl, ⟨hstrings, hlinked, ht.escP, ht.escSeq⟩, hpos⟩

theorem step_byte {key : UInt8} {t : Tinyrl}
    (h : s.tinyrl.klishProcessChar junk signedChar unclosedQuotes s.hotkeys key = some t) :
    step junk signedChar unclosedQuotes s (.byte key) = some ⟨t, s.hotkeys⟩ := by
  rw [step, h]
  rfl

/-- The Up key, from its last byte on. -/
theorem isUp_spec (h : s.tinyrl.InOrder) {event : KlishTinyrlEvent}
    (hup : IsUp signedChar s event) : ∃ key t, event = .byte key ∧
      s.tinyrl.klishProcessChar junk signedChar unclosedQuotes s.hotkeys key = some t ∧
      t.InOrder ∧ t.escCont = false ∧ t.hist = (s.tinyrl.hist.tinyrlKeyUp s.tinyrl.text).1 ∧
      t.text = (s.tinyrl.hist.tinyrlKeyUp s.tinyrl.text).2.getD s.tinyrl.text := by
  cases event with
  | byte key =>
    have hesc : s.tinyrl.escCont = true := by
      by_contra hno
      have hnone : s.tinyrl.escKey signedChar key = none := if_neg fun hand => hno hand.1
      rw [IsUp, hnone] at hup
      cases hup
    obtain ⟨escSeq, escP, hlen, hescP, ⟨hnone, -⟩ | ⟨seq, hkey, hends⟩⟩ :=
      @processChar_escape _ junk signedChar h hesc key
    · rw [IsUp, hnone] at hup
      cases hup
    · have ht : InOrder { s.tinyrl with escSeq, escP } := ⟨h.strings, h.linked, hescP, hlen⟩
      obtain ⟨line, hkeyUp, hstrings, htext⟩ := keyUp_spec ht junk
      have hdecode : vt100EscDecode seq = .cursorUp := Option.some.inj (hkey.symm.trans hup)
      refine ⟨key, { s.tinyrl with line, escSeq, escP, escCont := false, hist := _ }, rfl, ?_,
        ⟨hstrings, h.linked.tinyrlKeyUp (text_noNul _), hescP, hlen⟩, rfl, rfl, htext⟩
      unfold klishProcessChar
      rw [if_neg fun hand => absurd (hesc.symm.trans hand.1) (by simp), hends,
        tinyrlEscSeq_up hdecode, hkeyUp]
      rfl
  | completion text => cases hup
  | hotkeys hotkeys => cases hup

theorem processChar_spec (h : s.tinyrl.InOrder) {key : UInt8}
    (hup : s.tinyrl.escKey signedChar key ≠ some .cursorUp) : ∃ t,
    s.tinyrl.klishProcessChar junk signedChar unclosedQuotes s.hotkeys key = some t ∧ t.InOrder ∧
      (s.tinyrl.hist.pos = none → t.hist.pos = none) := by
  unfold klishProcessChar
  split
  · have hsettles : s.tinyrl.Settles
        (s.tinyrl.klishHandler junk unclosedQuotes s.hotkeys key) := klishHandler_settles h key
    refine settles_order h hsettles (fun t => t.noteUtf8 key) fun line hist buffer => ?_
    obtain ⟨n, hn⟩ := noteUtf8_spec { s.tinyrl with line, hist, buffer } key
    exact ⟨n, s.tinyrl.escCont, hn⟩
  · rename_i hescape
    cases hesc : s.tinyrl.escCont with
    | false =>
      have hkey : key = 27 := by
        by_contra hne
        exact hescape ⟨hesc, hne⟩
      unfold processChar
      rw [if_pos ⟨hesc, hkey⟩]
      exact ⟨_, rfl, ⟨h.strings, h.linked, Nat.zero_lt_succ 9, h.escSeq⟩, id⟩
    | true =>
      obtain ⟨escSeq, escP, hlen, hescP, ⟨-, escCont, hgoes⟩ | ⟨seq, hkey, hends⟩⟩ :=
        @processChar_escape _ junk signedChar h hesc key
      · exact ⟨_, hgoes, ⟨h.strings, h.linked, hescP, hlen⟩, id⟩
      · have ht : InOrder { s.tinyrl with escSeq, escP } := ⟨h.strings, h.linked, hescP, hlen⟩
        have hother : vt100EscDecode seq ≠ .cursorUp := by
          intro heq
          rw [hkey, heq] at hup
          exact hup rfl
        have hsettles : Settles { s.tinyrl with escSeq, escP }
            (tinyrlEscSeq junk { s.tinyrl with escSeq, escP } seq) := tinyrlEscSeq_settles ht hother
        rw [hends]
        exact settles_order ht hsettles (fun t => { t with escCont := false }) fun _ _ _ =>
          ⟨_, false, rfl⟩

/-- Every event keeps the order, and only the Up key begins to browse. -/
theorem step_spec (h : s.tinyrl.InOrder) (event : KlishTinyrlEvent) : ∃ s',
    step junk signedChar unclosedQuotes s event = some s' ∧ s'.tinyrl.InOrder ∧
      (¬IsUp signedChar s event → s.tinyrl.hist.pos = none → s'.tinyrl.hist.pos = none) := by
  by_cases hup : IsUp signedChar s event
  · obtain ⟨key, t, rfl, hprocess, horder, -⟩ :=
      @isUp_spec junk signedChar unclosedQuotes s h event hup
    exact ⟨_, step_byte hprocess, horder, fun hno => absurd hup hno⟩
  · cases event with
    | byte key =>
      obtain ⟨t, hprocess, horder, hpos⟩ :=
        @processChar_spec junk signedChar unclosedQuotes s h key hup
      exact ⟨_, step_byte hprocess, horder, fun _ => hpos⟩
    | completion text =>
      obtain ⟨line, buffer, hinsert, hstrings⟩ := edits_insert h.strings junk text.2
      refine ⟨{ s with tinyrl := { s.tinyrl with line, buffer } }, ?_,
        ⟨hstrings, h.linked, h.escP, h.escSeq⟩, fun _ hpos => hpos⟩
      rw [step, hinsert]
      rfl
    | hotkeys hotkeys => exact ⟨_, rfl, h, fun _ hpos => hpos⟩

/-- The first two bytes of the sequence of an arrow key. -/
theorem arrow_begins (h : s.tinyrl.InOrder) (hesc : s.tinyrl.escCont = false) : ∃ rest s',
    Runs.run (step junk signedChar unclosedQuotes) s [.byte 27, .byte 91] = some s' ∧
      s'.tinyrl = { s.tinyrl with escCont := true, escP := 1, escSeq := 91 :: rest } ∧
      rest.length = 9 ∧
      Runs.Along (step junk signedChar unclosedQuotes) (fun s event => ¬IsUp signedChar s event) s
        [.byte 27, .byte 91] := by
  obtain ⟨first, rest, hseq⟩ := List.exists_cons_of_ne_nil
    (List.ne_nil_of_length_pos (Nat.lt_of_lt_of_eq (Nat.zero_lt_succ 9) h.escSeq.symm))
  have hlen : rest.length = 9 := by
    have hten := h.escSeq
    rw [hseq, List.length_cons] at hten
    omega
  have hbegin : step junk signedChar unclosedQuotes s (.byte 27) =
      some ⟨{ s.tinyrl with escCont := true, escP := 0 }, s.hotkeys⟩ := by
    refine step_byte ?_
    unfold klishProcessChar
    rw [if_neg (by simp)]
    unfold processChar
    rw [if_pos ⟨hesc, rfl⟩]
  have hends : endsEsc signedChar 91 = false := by simp [endsEsc]
  have hbracket : step junk signedChar unclosedQuotes
      ⟨{ s.tinyrl with escCont := true, escP := 0 }, s.hotkeys⟩ (.byte 91) =
        some ⟨{ s.tinyrl with escCont := true, escP := 1, escSeq := 91 :: rest }, s.hotkeys⟩ := by
    have hwrite : Buffer.write s.tinyrl.escSeq 0 [91] = some (91 :: rest) := by
      rw [hseq]
      exact Buffer.write_one [] rest first 91
    refine step_byte ?_
    unfold klishProcessChar
    rw [if_neg (by simp)]
    unfold processChar
    rw [if_neg (by simp), if_pos rfl, if_neg (by simp)]
    simp only [Option.bind_eq_bind, hwrite, Option.bind_some, hends, Bool.false_eq_true, if_false]
  refine ⟨rest, ⟨{ s.tinyrl with escCont := true, escP := 1, escSeq := 91 :: rest }, s.hotkeys⟩, ?_,
    rfl, hlen, ?_⟩
  · exact Runs.run_cons.mpr ⟨_, hbegin, Runs.run_cons.mpr ⟨_, hbracket, rfl⟩⟩
  · refine ⟨by simp [IsUp, escKey, hesc], fun s₁ hs₁ => ⟨?_, fun _ _ => trivial⟩⟩
    obtain rfl := Option.some.inj (hs₁.symm.trans hbegin)
    simp [IsUp, escKey, hends]

/-- The last byte of the sequence of an arrow key. -/
theorem escKey_arrow {t : Tinyrl} {rest : Bytes} (hesc : t.escCont = true) (hescP : t.escP = 1)
    (hseq : t.escSeq = 91 :: rest) (hlen : rest.length = 9) {c : UInt8} (hc : c ≠ 0)
    (hends : endsEsc signedChar c = true) :
    t.escKey signedChar c = some (vt100EscDecode [91, c]) := by
  obtain ⟨x, y, rest, rfl⟩ : ∃ x y rest', rest = x :: y :: rest' := by
    match rest, hlen with
    | x :: y :: rest', _ => exact ⟨x, y, rest', rfl⟩
  have hfirst : Buffer.write (91 :: x :: y :: rest) 1 [c] = some (91 :: c :: y :: rest) :=
    Buffer.write_one [91] (y :: rest) x c
  have hsecond : Buffer.write (91 :: c :: y :: rest) 2 [0] = some (91 :: c :: 0 :: rest) :=
    Buffer.write_one [91, c] rest y 0
  unfold escKey
  rw [if_pos ⟨hesc, by omega, hends⟩, hescP, hseq, hfirst, Option.bind_some, hsecond]
  simp [cstrAt, hc]

/-- The three bytes of the Down key. -/
theorem downKey_spec (h : s.tinyrl.InOrder) (hesc : s.tinyrl.escCont = false) : ∃ s',
    Runs.run (step junk signedChar unclosedQuotes) s downKey = some s' ∧
      s'.tinyrl.text = s.tinyrl.hist.tinyrlKeyDown.2.getD s.tinyrl.text := by
  obtain ⟨rest, s₁, hrun, htinyrl, hlen, -⟩ :=
    @arrow_begins junk signedChar unclosedQuotes s h hesc
  have horder : s₁.tinyrl.InOrder := by
    rw [htinyrl]
    exact ⟨h.strings, h.linked, by simp, by simp [hlen]⟩
  have hcont : s₁.tinyrl.escCont = true := by rw [htinyrl]
  have hkey : s₁.tinyrl.escKey signedChar 66 = some (vt100EscDecode [91, 66]) :=
    escKey_arrow hcont (by rw [htinyrl]) (by rw [htinyrl]) hlen (by decide) (by simp [endsEsc])
  obtain ⟨escSeq, escP, hlen', hescP, ⟨hnone, -⟩ | ⟨seq, hseq, hends⟩⟩ :=
    @processChar_escape _ junk signedChar horder hcont 66
  · rw [hnone] at hkey
    cases hkey
  · have hdown : vt100EscDecode seq = .cursorDown :=
      (Option.some.inj (hseq.symm.trans hkey)).trans (by decide)
    have ht : InOrder { s₁.tinyrl with escSeq, escP } :=
      ⟨horder.strings, horder.linked, hescP, hlen'⟩
    obtain ⟨line, hkeyDown, -, htext⟩ := keyDown_spec ht junk
    have hstep : step junk signedChar unclosedQuotes s₁ (.byte 66) = some
        ⟨{ s₁.tinyrl with
            line, escSeq, escP, escCont := false, hist := s₁.tinyrl.hist.histPosDown },
          s₁.hotkeys⟩ := by
      refine step_byte ?_
      unfold klishProcessChar
      rw [if_neg fun hand => absurd (hcont.symm.trans hand.1) (by simp), hends,
        tinyrlEscSeq_down hdown, hkeyDown]
      rfl
    have hrest : Runs.run (step junk signedChar unclosedQuotes) s
        ([.byte 27, .byte 91] ++ [.byte 66]) = some _ :=
      Runs.run_append.mpr ⟨s₁, hrun, Runs.run_cons.mpr ⟨_, hstep, rfl⟩⟩
    refine ⟨_, hrest, htext.trans ?_⟩
    rw [htinyrl]
    rfl

/-- From the end of the history the Up key recalls the newest entry. -/
theorem recalls_of_fresh (h : s.tinyrl.InOrder) {event : KlishTinyrlEvent}
    (hup : IsUp signedChar s event) (hpos : s.tinyrl.hist.pos = none) : ∃ s',
    step junk signedChar unclosedQuotes s event = some s' ∧
      Recalls junk signedChar unclosedQuotes s s' := by
  obtain ⟨key, t, rfl, hprocess, horder, hesc, hhist, htext⟩ :=
    @isUp_spec junk signedChar unclosedQuotes s h event hup
  obtain ⟨hgives, hsnapshot, hback⟩ := h.linked.tinyrlKeyUp_first hpos s.tinyrl.text_noNul
  have hnewest : t.text = s.tinyrl.hist.real.getLast?.getD s.tinyrl.text := by
    rw [htext, hgives]
    rfl
  refine ⟨⟨t, s.hotkeys⟩, step_byte hprocess, hnewest, ?_, ?_⟩
  · rw [hhist]
    exact hsnapshot
  · obtain ⟨s', hrun, hdown⟩ :=
      @downKey_spec junk signedChar unclosedQuotes ⟨t, s.hotkeys⟩ horder hesc
    refine ⟨s', hrun, hdown.trans ?_⟩
    rw [hnewest, hhist]
    exact hback

/-- While an entry is browsed the Up key stores no line. -/
theorem snapshot_of_browsing (h : s.tinyrl.InOrder) {event : KlishTinyrlEvent}
    (hup : IsUp signedChar s event) {addr : ℕ} (hpos : s.tinyrl.hist.pos = some addr)
    {s' : KlishTinyrl} (hstep : step junk signedChar unclosedQuotes s event = some s') :
    s'.tinyrl.hist.snapshot = s.tinyrl.hist.snapshot := by
  obtain ⟨key, t, rfl, hprocess, -, -, hhist, -⟩ :=
    @isUp_spec junk signedChar unclosedQuotes s h event hup
  obtain rfl := Option.some.inj (hstep.symm.trans (step_byte hprocess))
  obtain ⟨pos, hspec⟩ := Hist.histPosUp_spec s.tinyrl.hist
  rw [hhist, h.linked.tinyrlKeyUp_browsing hpos, hspec]
  rfl

/-- The line is empty after its end, and the position is reset or not. -/
theorem endsLine_spec (h : s.tinyrl.InOrder) {key : UInt8} (hends : EndsLine s key) : ∃ s',
    step junk signedChar unclosedQuotes s (.byte key) = some s' ∧ s'.tinyrl.InOrder ∧
      s'.tinyrl.escCont = false ∧ s'.tinyrl.line.Holds [] [] ∧
      (s'.tinyrl.hist.pos = none ↔ Resets s key) := by
  obtain ⟨hesc, hkey⟩ := hends
  suffices hline : ∃ line hist,
      s.tinyrl.klishHandler junk unclosedQuotes s.hotkeys key =
        some { s.tinyrl with line, hist } ∧
      line.Holds [] [] ∧ hist.Linked ∧ (hist.pos = none ↔ Resets s key) by
    obtain ⟨line, hist, hhandler, hholds, hlinked, hpos⟩ := hline
    obtain ⟨n, hn⟩ := noteUtf8_spec { s.tinyrl with line, hist } key
    refine ⟨⟨{ s.tinyrl with line, hist, utf8Cont := n }, s.hotkeys⟩, step_byte ?_,
      ⟨strings_of_empty h hholds, hlinked, h.escP, h.escSeq⟩, hesc, hholds, hpos⟩
    have hne : key ≠ 27 := by
      rcases hkey with rfl | rfl | rfl | ⟨-, hne, -⟩
      · decide
      · decide
      · decide
      · exact hne
    unfold klishProcessChar
    rw [if_pos ⟨hesc, hne⟩, hhandler, Option.map_some, hn]
  unfold Resets
  by_cases henter : key = 10 ∨ key = 13
  · obtain ⟨line, hist, hhandler, hholds, hlinked, hpos⟩ := klishKeyEnter_spec h
    have hetx : key ≠ 3 := by
      rintro rfl
      exact absurd henter (by decide)
    refine ⟨line, hist, ?_, hholds, hlinked, hpos.trans (by simp [henter, hetx])⟩
    unfold klishHandler
    rw [if_pos henter, hhandler]
  · by_cases hetx : key = 3
    · obtain ⟨line, hcrlf, hholds⟩ := keyCrlf_spec h
      refine ⟨line, _, ?_, hholds, h.linked.histPosReset, by simp [hetx]⟩
      rw [hetx]
      exact hcrlf
    · obtain ⟨htab, -, hbound, hhot⟩ : key ≠ 9 ∧ key ≠ 27 ∧ bound key = false ∧
          (hotkeyLine s.hotkeys key).isSome := by
        rcases hkey with hkey | hkey | hkey | hkey
        · exact absurd (.inl hkey) henter
        · exact absurd (.inr hkey) henter
        · exact absurd hkey hetx
        · exact hkey
      have hsmall : key.toNat < 32 := by
        by_contra hbig
        rw [hotkeyLine, if_pos (by omega)] at hhot
        cases hhot
      obtain ⟨line, hreset, hholds⟩ := exists_reset h s.tinyrl.hist
      obtain ⟨text, htext⟩ := Option.isSome_iff_exists.mp hhot
      refine ⟨line, s.tinyrl.hist, ?_, hholds, h.linked, by simp [henter, hetx]⟩
      have hquestion : key ≠ 63 := by
        rintro rfl
        exact absurd hsmall (by decide)
      have hcontrol : ¬(key > 31 ∨ bound key = true) := by
        rintro (hbig | hyes)
        · exact absurd (UInt8.lt_iff_toNat_lt.mp hbig) (by simp; omega)
        · exact Bool.false_ne_true (hbound.symm.trans hyes)
      unfold klishHandler klishKeyHotkey
      rw [if_neg henter, if_neg htab, if_neg hquestion, if_neg hcontrol, htext]
      exact hreset

/-- A letter is put into the line. -/
theorem letter_spec (h : s.tinyrl.InOrder) (hesc : s.tinyrl.escCont = false)
    (hholds : s.tinyrl.line.Holds [] []) {b : UInt8} (hb : b = 97 ∨ b = 98) : ∃ s',
    step junk signedChar unclosedQuotes s (.byte b) = some s' ∧ s'.tinyrl.InOrder ∧
      s'.tinyrl.escCont = false ∧ s'.tinyrl.text = [b] ∧ s'.tinyrl.hist = s.tinyrl.hist := by
  have hnoNul : (0 : UInt8) ∉ [b] := by
    rcases hb with rfl | rfl <;> decide
  have hhandler : s.tinyrl.klishHandler junk unclosedQuotes s.hotkeys b =
      s.tinyrl.withLine (s.tinyrl.line.insert junk [b]) := by
    rcases hb with rfl | rfl <;> simp +decide [klishHandler, handler, keyDefault]
  obtain ⟨line, hline, hholds'⟩ := hholds.insert junk hnoNul
  obtain ⟨n, hn⟩ := noteUtf8_spec { s.tinyrl with line } b
  refine ⟨⟨{ s.tinyrl with line, utf8Cont := n }, s.hotkeys⟩, step_byte ?_,
    ⟨⟨⟨_, _, hholds'⟩, h.strings.buffer⟩, h.linked, h.escP, h.escSeq⟩, hesc,
    text_of_holds hholds', rfl⟩
  have hne : b ≠ 27 := by
    rcases hb with rfl | rfl <;> decide
  unfold klishProcessChar
  rw [if_pos ⟨hesc, hne⟩, hhandler, hline]
  exact congrArg some hn

/-- A new line that starts at the end of the history: its first Up key recalls the newest entry. -/
theorem startsAtEnd_of_fresh (h : s.tinyrl.InOrder) (hpos : s.tinyrl.hist.pos = none) :
    StartsAtEnd junk signedChar unclosedQuotes s := by
  intro events s₁ event hrun hquiet hup
  have hinv : s₁.tinyrl.InOrder ∧ s₁.tinyrl.hist.pos = none := by
    refine Runs.run_along (I := fun s : KlishTinyrl => s.tinyrl.InOrder ∧ s.tinyrl.hist.pos = none)
      ?_ ⟨h, hpos⟩ hrun hquiet
    rintro s event t ⟨horder, hnone⟩ hnot hstep
    obtain ⟨s', hs', horder', hkeeps⟩ :=
      @step_spec junk signedChar unclosedQuotes s horder event
    obtain rfl := Option.some.inj (hs'.symm.trans hstep)
    exact ⟨horder', hkeeps hnot hnone⟩
  exact recalls_of_fresh hinv.1 hup hinv.2

/-- A new line that starts inside the history: a letter and the Up key are enough to show it. -/
theorem fresh_of_startsAtEnd (h : s.tinyrl.InOrder) (hesc : s.tinyrl.escCont = false)
    (hholds : s.tinyrl.line.Holds [] []) (hstarts : StartsAtEnd junk signedChar unclosedQuotes s) :
    s.tinyrl.hist.pos = none := by
  cases hpos : s.tinyrl.hist.pos with
  | none => rfl
  | some addr =>
    exfalso
    obtain ⟨htemp, -⟩ := h.linked.pos addr hpos
    obtain ⟨kept, last, hlist, hlast⟩ := h.linked.temp htemp
    have hsnapshot : s.tinyrl.hist.snapshot = some last.line := by
      simp [Hist.snapshot, hlist, hlast]
    obtain ⟨b, hb, hne⟩ : ∃ b : UInt8, (b = 97 ∨ b = 98) ∧ last.line ≠ [b] := by
      by_cases heq : last.line = [97]
      · exact ⟨98, .inr rfl, by rw [heq]; decide⟩
      · exact ⟨97, .inl rfl, heq⟩
    obtain ⟨s₁, hletter, horder₁, hesc₁, htext₁, hhist₁⟩ :=
      @letter_spec junk signedChar unclosedQuotes s h hesc hholds b hb
    obtain ⟨rest, s₂, hrun₂, htinyrl, hlen, hquiet⟩ :=
      @arrow_begins junk signedChar unclosedQuotes s₁ horder₁ hesc₁
    have horder₂ : s₂.tinyrl.InOrder := by
      rw [htinyrl]
      exact ⟨horder₁.strings, horder₁.linked, by simp, by simp [hlen]⟩
    have hup : IsUp signedChar s₂ (.byte 65) := by
      have hkey : s₂.tinyrl.escKey signedChar 65 = some (vt100EscDecode [91, 65]) :=
        escKey_arrow (by rw [htinyrl]) (by rw [htinyrl]) (by rw [htinyrl]) hlen (by decide)
          (by simp [endsEsc])
      exact hkey.trans (by decide)
    have hrun : Runs.run (step junk signedChar unclosedQuotes) s
        [.byte b, .byte 27, .byte 91] = some s₂ := Runs.run_cons.mpr ⟨s₁, hletter, hrun₂⟩
    have hfirst : ¬IsUp signedChar s (.byte b) := by
      simp [IsUp, escKey, hesc]
    obtain ⟨s₃, hstep, hrecalls⟩ := hstarts _ s₂ _ hrun
      ⟨hfirst, fun t ht => Option.some.inj (hletter.symm.trans ht) ▸ hquiet⟩ hup
    have hpos₂ : s₂.tinyrl.hist.pos = some addr := by
      rw [htinyrl, ← hpos, ← hhist₁]
    have hkept := snapshot_of_browsing horder₂ hup hpos₂ hstep
    have htyped : s₂.tinyrl.text = [b] := by
      rw [htinyrl]
      exact htext₁
    have hhist₂ : s₂.tinyrl.hist = s.tinyrl.hist := by
      rw [htinyrl, ← hhist₁]
    rw [hrecalls.snapshot, htyped, hhist₂, hsnapshot] at hkept
    exact hne (Option.some.inj hkept).symm

theorem new_order (fname : Option String) (file : Option Bytes) (hotkeys : ℕ → Option String) :
    (new fname file hotkeys).tinyrl.InOrder :=
  ⟨⟨⟨[], [], Line.new_holds⟩, by simp [new, Tinyrl.new]⟩, Hist.histRestore_linked fname file,
    Nat.zero_lt_succ 9, rfl⟩

theorem run_order {s t : KlishTinyrl} {events : List KlishTinyrlEvent} (h : s.tinyrl.InOrder)
    (hrun : Runs.run (step junk signedChar unclosedQuotes) s events = some t) :
    t.tinyrl.InOrder := by
  refine Runs.run_invariant (I := fun s : KlishTinyrl => s.tinyrl.InOrder) ?_ h hrun
  intro s event t h hstep
  obtain ⟨s', hs', h', -⟩ := @step_spec junk signedChar unclosedQuotes s h event
  obtain rfl := Option.some.inj (hs'.symm.trans hstep)
  exact h'

variable (fname : Option String) (file : Option Bytes) (hotkeys : ℕ → Option String) in
/-- A line that follows a submitted or abandoned one starts at the end of the history, exactly if
no entry was browsed when that one ended, or its end resets the position. -/
theorem startsAtEnd_iff {events : List KlishTinyrlEvent} {key : UInt8}
    (hrun : Runs.run (step junk signedChar unclosedQuotes) (new fname file hotkeys) events = some s)
    (hends : EndsLine s key) : ∃ s', step junk signedChar unclosedQuotes s (.byte key) = some s' ∧
      (StartsAtEnd junk signedChar unclosedQuotes s' ↔ Resets s key) := by
  have horder := run_order (new_order fname file hotkeys) hrun
  obtain ⟨s', hstep, horder', hesc, hholds, hpos⟩ :=
    @endsLine_spec junk signedChar unclosedQuotes s horder key hends
  refine ⟨s', hstep, ?_⟩
  rw [← hpos]
  exact ⟨fresh_of_startsAtEnd horder' hesc hholds, startsAtEnd_of_fresh horder'⟩

/-- The history has the lines `a` and `b`. The Up key recalls `b`, a letter is added to it, and the
line is entered. -/
theorem startsAtEnd_iff_entered : ∃ s, Runs.run (step (fun _ => 0) true fun _ => false)
      (new (some "history") (some [97, 10, 98, 10]) fun _ => none)
      [.byte 27, .byte 91, .byte 65, .byte 99] = some s ∧
    s.tinyrl.hist.pos.isSome = true ∧ s.tinyrl.text = [98, 99] ∧
    ∃ s', step (fun _ => 0) true (fun _ => false) s (.byte 13) = some s' ∧
      StartsAtEnd (fun _ => 0) true (fun _ => false) s' := by
  have hbrowsed : (Runs.run (step (fun _ => 0) true fun _ => false)
      (new (some "history") (some [97, 10, 98, 10]) fun _ => none)
      [.byte 27, .byte 91, .byte 65, .byte 99]).map (fun s => (s.tinyrl.escCont,
        s.tinyrl.hist.pos.isSome, s.tinyrl.text, s.tinyrl.line.len)) =
      some (false, true, [98, 99], 2) := by
    decide +kernel
  obtain ⟨s, hrun, heq⟩ := Option.map_eq_some_iff.mp hbrowsed
  simp only [Prod.mk.injEq] at heq
  obtain ⟨hesc, hpos, htext, hlen⟩ := heq
  obtain ⟨s', hstep, hstarts⟩ := startsAtEnd_iff (some "history") (some [97, 10, 98, 10])
    (fun _ => none) hrun ⟨hesc, .inr (.inl rfl)⟩
  refine ⟨s, hrun, hpos, htext, s', hstep, hstarts.mpr (.inr (.inr ⟨.inr rfl, ?_⟩))⟩
  rw [hlen]
  decide

/-- The history has two lines, `a` and the newer `b`. The Up key recalls `b`, it is erased with ^U,
and the empty line is entered. The first Up key on the next line recalls `a`. -/
theorem empty_line_keeps_position : ∃ s s',
    Runs.run (step (fun _ => 0) true fun _ => false)
      (new (some "history") (some [97, 10, 98, 10]) fun _ => none)
      [.byte 27, .byte 91, .byte 65, .byte 21] = some s ∧
    EndsLine s 13 ∧ step (fun _ => 0) true (fun _ => false) s (.byte 13) = some s' ∧
    ¬StartsAtEnd (fun _ => 0) true (fun _ => false) s' := by
  have hends : (Runs.run (step (fun _ => 0) true fun _ => false)
      (new (some "history") (some [97, 10, 98, 10]) fun _ => none)
      [.byte 27, .byte 91, .byte 65, .byte 21]).map (fun s => s.tinyrl.escCont) = some false := by
    decide +kernel
  have hlast : (Runs.run (step (fun _ => 0) true fun _ => false)
      (new (some "history") (some [97, 10, 98, 10]) fun _ => none)
      ([.byte 27, .byte 91, .byte 65, .byte 21] ++ [.byte 13] ++ [.byte 27, .byte 91] ++
        [.byte 65])).map (fun s => s.tinyrl.text) = some [97] := by
    decide +kernel
  have hbefore : (Runs.run (step (fun _ => 0) true fun _ => false)
      (new (some "history") (some [97, 10, 98, 10]) fun _ => none)
      ([.byte 27, .byte 91, .byte 65, .byte 21] ++ [.byte 13] ++ [.byte 27, .byte 91])).map
        (fun s => (s.tinyrl.hist.real.getLast?, s.tinyrl.escKey true 65)) =
          some (some [98], some .cursorUp) := by
    decide +kernel
  obtain ⟨s₂, hrun₂, htext⟩ := Option.map_eq_some_iff.mp hlast
  obtain ⟨s₁, hrun₁, hstep₂⟩ := Runs.run_append.mp hrun₂
  rw [hrun₁, Option.map_some, Option.some.injEq, Prod.mk.injEq] at hbefore
  obtain ⟨s', hrun', harrow⟩ := Runs.run_append.mp hrun₁
  obtain ⟨s, hrun, hstep⟩ := Runs.run_append.mp hrun'
  rw [hrun, Option.map_some, Option.some.injEq] at hends
  obtain ⟨t, ht, hnil⟩ := Runs.run_cons.mp hstep
  obtain rfl := Option.some.inj hnil
  obtain ⟨t₂, ht₂, hnil₂⟩ := Runs.run_cons.mp hstep₂
  obtain rfl := Option.some.inj hnil₂
  have hline : EndsLine s 13 := ⟨hends, .inr (.inl rfl)⟩
  obtain ⟨t', ht', horder, hesc, -, -⟩ := endsLine_spec (run_order (new_order _ _ _) hrun) hline
  obtain rfl := Option.some.inj (ht'.symm.trans ht)
  obtain ⟨-, -, -, -, -, hquiet⟩ := arrow_begins horder hesc
  refine ⟨s, t', hrun, hline, ht, fun hstarts => ?_⟩
  obtain ⟨s₃, hs₃, hrecalls⟩ := hstarts _ s₁ (.byte 65) harrow hquiet hbefore.2
  obtain rfl := Option.some.inj (ht₂.symm.trans hs₃)
  have hnewest := hrecalls.newest
  rw [htext, hbefore.1, Option.getD_some] at hnewest
  exact absurd hnewest (by decide)

end KlishTinyrl

end Klish
