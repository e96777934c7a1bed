import Klish.Lib.Runs
import Klish.TinyrlText

/-!
# The line editor after every byte

The editor gives up an escape sequence that is too long, and the byte that is too much is dropped.
If that byte is not the last one of its character, the rest of the character is taken for text.
-/

namespace Klish.Tinyrl

/-- What is said of the editor after every byte, with the number of bytes that are missing of the
character in the line. -/
structure Sound (s : Tinyrl × ℕ) : Prop where
  nul : s.1.line.str.findIdx? (· = 0) = some s.1.line.len
  size : s.1.line.size = s.1.line.str.length
  pos : s.1.line.pos ≤ s.1.line.len
  room : s.1.line.len + 1 ≤ s.1.line.size
  escP : s.1.escP < s.1.escSeq.length ∧ s.1.escSeq.length = 10
  cont : s.1.utf8Cont = s.2
  valid : s.1.utf8Cont = 0 → Utf8.Valid (s.1.line.str.take s.1.line.len) ∧
    Utf8.Valid (s.1.line.str.take s.1.line.pos) ∧
    ∀ text, s.1.buffer = some text → Utf8.Valid text

/-- An escape sequence is not given up, and does not end, in the middle of a character. -/
def Whole (signedChar : Bool) (s : Tinyrl × ℕ) : TinyrlEvent → Prop
  | .byte key left =>
    s.1.escCont = true → (s.1.escP ≥ 9 ∨ endsEsc signedChar key = true) → left = 0
  | .insert _ => True

/-- The texts are whole but for a part of a character before the cursor. -/
structure Between (t : Tinyrl) (part : Bytes) : Prop where
  line : ∃ before after, IsText before ∧ IsText after ∧ t.line.Holds (before ++ part) after
  hist : t.hist.Texts
  buffer : ∀ text, t.buffer = some text → IsText text
  utf8 : t.utf8 = true
  escP : t.escP < 10
  escSeq : t.escSeq.length = 10

/-- The editor between two characters. -/
structure Rests (s : Tinyrl × ℕ) : Prop where
  between : s.1.Between []
  cont : s.1.utf8Cont = 0
  missing : s.2 = 0

variable {junk : ℕ → UInt8} {signedChar : Bool} {t : Tinyrl} {part : Bytes} {missing : ℕ}

theorem Between.sound (h : t.Between part) (hcont : t.utf8Cont = missing)
    (hpart : missing = 0 → IsText part) : Sound (t, missing) := by
  obtain ⟨before, after, hbefore, hafter, hholds⟩ := h.line
  obtain ⟨rest, hstr⟩ := hholds.str
  have hlen := hholds.len
  have hpos := hholds.pos
  refine ⟨?_, hholds.size, ?_, hholds.len_lt, ⟨h.escSeq ▸ h.escP, h.escSeq⟩, hcont, ?_⟩
  · dsimp only
    rw [hlen, ← List.length_append, hstr, List.findIdx?_append]
    have hnone : (before ++ part ++ after).findIdx? (· = 0) = none := by
      refine List.findIdx?_eq_none_iff.mpr fun b hb => ?_
      have hne : b ≠ 0 := fun hzero => hholds.noNul (hzero ▸ hb)
      simpa using hne
    rw [hnone]
    simp [List.findIdx?_cons]
  · dsimp only
    omega
  · intro hzero
    have hwhole := hbefore.append (hpart (hcont ▸ hzero))
    refine ⟨?_, ?_, fun text htext => (h.buffer text htext).valid⟩
    · dsimp only
      rw [hlen, ← List.length_append, hstr, List.take_left]
      exact (hwhole.append hafter).valid
    · dsimp only
      rw [hpos, hstr, List.append_assoc, List.take_left]
      exact hwhole.valid

theorem Rests.sound {s : Tinyrl × ℕ} (h : Rests s) : Sound s :=
  h.between.sound (h.cont.trans h.missing.symm) fun _ => isText_nil

/-- A whole character is a part of the text. -/
theorem Between.whole (h : t.Between part) (hpart : IsText part) : t.Between [] := by
  obtain ⟨before, after, hbefore, hafter, hholds⟩ := h.line
  refine { h with line := ⟨before ++ part, after, hbefore.append hpart, hafter, ?_⟩ }
  rwa [List.append_nil]

theorem Between.texts (h : t.Between []) : Texts t.line t.hist t.buffer := by
  obtain ⟨before, after, hbefore, hafter, hholds⟩ := h.line
  rw [List.append_nil] at hholds
  exact ⟨⟨before, after, hbefore, hafter, hholds⟩, h.hist, h.buffer⟩

theorem Between.of_keeps (h : t.Between []) {result : Option Tinyrl} (hkeeps : t.Keeps result) :
    ∃ t', result = some t' ∧ t'.Between [] ∧ t'.utf8Cont = t.utf8Cont := by
  obtain ⟨line, hist, buffer, rfl, hline, hhist, hbuffer⟩ := hkeeps
  obtain ⟨before, after, hbefore, hafter, hholds⟩ := hline
  refine ⟨_, rfl, ⟨⟨before, after, hbefore, hafter, ?_⟩, hhist, hbuffer, h.utf8, h.escP,
    h.escSeq⟩, rfl⟩
  rwa [List.append_nil]

/-- A byte is put into the line. -/
theorem Between.insert (h : t.Between part) (junk : ℕ → UInt8) {b : UInt8} (hb : b ≠ 0) :
    ∃ line, t.line.insert junk [b] = some line ∧ Between { t with line } (part ++ [b]) := by
  obtain ⟨before, after, hbefore, hafter, hholds⟩ := h.line
  have hnul : 0 ∉ [b] := by simpa using hb.symm
  obtain ⟨line, hline, hholds'⟩ := hholds.insert junk hnul
  refine ⟨line, hline, { h with line := ⟨before, after, hbefore, hafter, ?_⟩ }⟩
  rwa [← List.append_assoc]

section Bytes

variable {b : UInt8}

/-- A byte that is not ASCII is put into the line. -/
theorem handler_high (hb : 128 ≤ b) :
    t.handler junk b = t.withLine (t.line.insert junk [b]) := by
  have hne : ∀ k : UInt8, k < 128 → b ≠ k := by
    rintro k hk rfl
    exact absurd (UInt8.lt_of_lt_of_le hk hb) (UInt8.lt_irrefl _)
  have hbig : b > 31 := UInt8.lt_of_lt_of_le (by decide : (31 : UInt8) < 128) hb
  simp only [handler, hne 13 (by decide), hne 10 (by decide), hne 3 (by decide),
    hne 127 (by decide), hne 8 (by decide), hne 4 (by decide), hne 12 (by decide),
    hne 21 (by decide), hne 1 (by decide), hne 5 (by decide), hne 11 (by decide),
    hne 25 (by decide), hne 9 (by decide), hne 23 (by decide), or_self, if_false, keyDefault,
    if_pos hbig]

theorem isTail_bits (hb : Utf8.isTail b = true) :
    128 ≤ b ∧ b &&& 0x80 ≠ 0 ∧ b &&& 0xC0 = 0x80 := by
  have h := Utf8.forall_byte (p := fun b => !Utf8.isTail b ||
    (decide (128 ≤ b) && decide (b &&& 0x80 ≠ 0) && decide (b &&& 0xC0 = 0x80)))
    (by decide +kernel) b
  simpa [hb, and_assoc] using h

theorem lead_bits (hb : 1 < Utf8.size b) :
    128 ≤ b ∧ b &&& 0x80 ≠ 0 ∧ b &&& 0xC0 = 0xC0 ∧ utf8Follow 6 b = Utf8.size b - 1 := by
  have h := Utf8.forall_byte (p := fun b => decide (Utf8.size b ≤ 1) ||
    (decide (128 ≤ b) && decide (b &&& 0x80 ≠ 0) && decide (b &&& 0xC0 = 0xC0) &&
      decide (utf8Follow 6 b = Utf8.size b - 1))) (by decide +kernel) b
  simpa [Nat.not_le.mpr hb, and_assoc] using h

theorem ascii_bits (hb : Utf8.size b = 1) : b &&& 0x80 = 0 := by
  have h := Utf8.forall_byte (p := fun b => decide (Utf8.size b ≠ 1) || decide (b &&& 0x80 = 0))
    (by decide +kernel) b
  simpa [hb] using h

end Bytes

section Characters

variable (junk signedChar) in
/-- The editor with the number of bytes that are missing. -/
abbrev observe : Tinyrl × ℕ → TinyrlEvent → Option (Tinyrl × ℕ) :=
  Runs.observed (step junk signedChar) note

variable (junk signedChar) in
abbrev Done (s : Tinyrl × ℕ) (events : List TinyrlEvent) : Prop :=
  Runs.Passes (observe junk signedChar) (Whole signedChar) Rests Sound s events

variable (junk signedChar) in
abbrev Broken (s : Tinyrl × ℕ) (events : List TinyrlEvent) : Prop :=
  Runs.Fails (observe junk signedChar) (Whole signedChar) Sound s events

theorem done_nil {s : Tinyrl × ℕ} (h : Rests s) : Done junk signedChar s [] :=
  ⟨h.sound, trivial, s, rfl, h⟩

theorem observe_text (hesc : t.escCont = false) {t' : Tinyrl} {b : UInt8} (left : ℕ)
    (h : t.processChar junk signedChar b = some t') :
    observe junk signedChar (t, missing) (.byte b left) = some (t', left) :=
  Runs.observed_eq_some.mpr ⟨t', h, by rw [note, hesc]; rfl⟩

theorem observe_esc (hesc : t.escCont = true) {t' : Tinyrl} {b : UInt8} (left : ℕ)
    (h : t.processChar junk signedChar b = some t') :
    observe junk signedChar (t, missing) (.byte b left) = some (t', 0) :=
  Runs.observed_eq_some.mpr ⟨t', h, by rw [note, hesc]; rfl⟩

/-- A byte outside an escape sequence goes to its handler. -/
theorem processChar_text (hesc : t.escCont = false) {b : UInt8} (hb : b ≠ 27) :
    t.processChar junk signedChar b = (t.handler junk b).map fun t => t.noteUtf8 b := by
  unfold processChar
  rw [if_neg fun h => hb h.2, if_neg (by simp [hesc])]

/-- A byte that is not ASCII, outside an escape sequence. -/
theorem processChar_high (h : t.Between part) (hesc : t.escCont = false) {b : UInt8}
    (hb : 128 ≤ b) : ∃ line, Between { t with line } (part ++ [b]) ∧
      t.processChar junk signedChar b = some (noteUtf8 { t with line } b) := by
  have hne : ∀ k : UInt8, k < 128 → b ≠ k := by
    rintro k hk rfl
    exact absurd (UInt8.lt_of_lt_of_le hk hb) (UInt8.lt_irrefl _)
  obtain ⟨line, hline, hbetween⟩ := h.insert junk (hne 0 (by decide))
  refine ⟨line, hbetween, ?_⟩
  rw [processChar_text hesc (hne 27 (by decide)), handler_high hb, hline]
  rfl

/-- The rest of a character, after its first bytes. -/
theorem tails_done {c : Char} (hc : c ≠ '\x00') {todo : Bytes} (hbetween : t.Between part)
    (hesc : t.escCont = false) (hcont : t.utf8Cont = todo.length)
    (htails : ∀ b ∈ todo, Utf8.isTail b = true)
    (hchar : part ++ todo = String.utf8EncodeChar c) :
    Done junk signedChar (t, todo.length) (charEvents todo) := by
  induction todo generalizing t part with
  | nil =>
    rw [List.append_nil] at hchar
    exact done_nil ⟨hbetween.whole (hchar ▸ isText_char hc), hcont, rfl⟩
  | cons b todo ih =>
    obtain ⟨hb, hascii, hbits⟩ := isTail_bits (htails b List.mem_cons_self)
    obtain ⟨line, hbetween', hprocess⟩ :=
      @processChar_high junk signedChar t part hbetween hesc b hb
    have hnote : noteUtf8 { t with line } b = { t with line, utf8Cont := todo.length } := by
      simp [noteUtf8, hbetween.utf8, hascii, hbits, hcont]
    rw [hnote] at hprocess
    have hstep := @observe_text junk signedChar t (b :: todo).length hesc _ b todo.length hprocess
    have hsound : Sound (t, (b :: todo).length) :=
      hbetween.sound hcont fun hzero => by simp at hzero
    have hrest := @ih { t with line, utf8Cont := todo.length } (part ++ [b]) { hbetween' with }
      hesc rfl (fun b hb => htails b (List.mem_cons_of_mem _ hb)) (by simpa using hchar)
    exact hrest.cons hsound (fun hin => absurd (hesc.symm.trans hin) Bool.false_ne_true) hstep

/-- A tail outside a character makes the line wrong. -/
theorem tail_broken {s : Tinyrl × ℕ} (h : Rests s) (hesc : s.1.escCont = false) {b : UInt8}
    (hb : Utf8.isTail b = true) (rest : Bytes) :
    ¬Runs.Always (observe junk signedChar) Sound s (charEvents (b :: rest)) := by
  obtain ⟨t, missing⟩ := s
  obtain ⟨hhigh, hascii, hbits⟩ := isTail_bits hb
  obtain ⟨line, hbetween', hprocess⟩ :=
    @processChar_high junk signedChar t [] h.between hesc b hhigh
  have hnote : noteUtf8 { t with line } b = { t with line } := by
    have hlead : b &&& 0xC0 ≠ 0xC0 := by
      rw [hbits]
      decide
    have hnone : ¬t.utf8Cont > 0 := by
      have hcont : t.utf8Cont = 0 := h.cont
      omega
    simp [noteUtf8, hascii, hlead, hnone]
  rw [hnote] at hprocess
  have hstep := @observe_text junk signedChar t missing hesc _ b rest.length hprocess
  rintro ⟨-, u, hu, hrest⟩
  obtain rfl := Option.some.inj (hu.symm.trans hstep)
  have hvalid := (hrest.first.valid h.cont).2.1
  obtain ⟨before, after, hbefore, -, hholds⟩ := hbetween'.line
  obtain ⟨tail, hstr⟩ := hholds.str
  dsimp only at hvalid hstr
  rw [hholds.pos, hstr, List.append_assoc, List.take_left] at hvalid
  exact Utf8.not_valid_concat_tail hbefore.valid hb hvalid

/-- A character outside an escape sequence. -/
theorem char_done {s : Tinyrl × ℕ} (h : Rests s) (hesc : s.1.escCont = false) (c : Char) :
    Done junk signedChar s (charEvents (String.utf8EncodeChar c)) := by
  obtain ⟨t, missing⟩ := s
  have hescaped : ∀ {b : UInt8} {left : ℕ}, Whole signedChar (t, missing) (.byte b left) :=
    fun hin => absurd (hesc.symm.trans hin) Bool.false_ne_true
  obtain ⟨lead, tails, heq, hsize, htails⟩ := Utf8.utf8EncodeChar_shape c
  rw [heq]
  cases tails with
  | nil =>
    have hascii := ascii_bits hsize
    have hend : ∀ t' : Tinyrl, t.processChar junk signedChar lead = some t' → t'.Between [] →
        t'.utf8Cont = 0 → Done junk signedChar (t, missing) (charEvents [lead]) := by
      intro t' hprocess hbetween hcont
      refine Runs.Passes.cons h.sound hescaped (observe_text hesc _ hprocess) (done_nil ?_)
      exact ⟨hbetween, hcont, rfl⟩
    by_cases hkey : lead = 27
    · refine hend { t with escCont := true, escP := 0 } ?_
        { h.between with escP := Nat.zero_lt_succ 9 } h.cont
      rw [processChar, if_pos ⟨hesc, hkey⟩]
    · have htext : lead > 31 → IsText [lead] := by
        intro hbig
        rw [← heq]
        refine isText_char fun hnul => ?_
        rw [hnul] at heq
        rw [← (List.cons.inj heq).1] at hbig
        exact absurd hbig (by decide)
      obtain ⟨t', hhandler, hbetween, hcont⟩ :=
        h.between.of_keeps (@handler_keeps t junk h.between.texts h.between.utf8 lead htext)
      have hnote : t'.noteUtf8 lead = { t' with utf8Cont := 0 } := by
        simp [noteUtf8, hbetween.utf8, hascii]
      refine hend { t' with utf8Cont := 0 } ?_ { hbetween with } rfl
      rw [processChar_text hesc hkey, hhandler, Option.map_some, hnote]
  | cons b tails =>
    have hc : c ≠ '\x00' := by
      rintro rfl
      have hone : String.utf8EncodeChar '\x00' = [0] := by decide
      rw [hone] at heq
      simp at heq
    have hmany : 1 < Utf8.size lead := by
      rw [hsize, List.length_cons]
      omega
    obtain ⟨hhigh, hascii, hbits, hfollow⟩ := lead_bits hmany
    obtain ⟨line, hbetween, hprocess⟩ :=
      @processChar_high junk signedChar t [] h.between hesc lead hhigh
    have hnote : noteUtf8 { t with line } lead =
        { t with line, utf8Cont := (b :: tails).length } := by
      have hutf8 : t.utf8 = true := h.between.utf8
      simp [noteUtf8, hutf8, hascii, hbits, hfollow, hsize]
    rw [hnote] at hprocess
    refine Runs.Passes.cons h.sound hescaped (observe_text hesc _ hprocess) ?_
    exact tails_done hc { hbetween with } hesc rfl htails heq.symm

/-- A byte of an escape sequence. The sequence goes on, or it is over. -/
theorem processChar_esc (h : t.Between []) (hcont : t.utf8Cont = 0) (hesc : t.escCont = true)
    (b : UInt8) : ∃ t', t.processChar junk signedChar b = some t' ∧ t'.Between [] ∧
      t'.utf8Cont = 0 ∧
      (t'.escCont = true ↔ ¬(t.escP ≥ 9 ∨ endsEsc signedChar b = true)) := by
  unfold processChar
  rw [if_neg fun hand => absurd (hesc.symm.trans hand.1) (by simp), if_pos hesc]
  by_cases hlong : t.escP ≥ 10 - 1
  · rw [if_pos hlong]
    refine ⟨_, rfl, { h with }, hcont, ?_⟩
    simp only [Bool.false_eq_true, false_iff, not_not]
    exact .inl hlong
  · have hfits : t.escP + [b].length ≤ t.escSeq.length := by
      rw [h.escSeq, List.length_singleton]
      omega
    obtain ⟨escSeq, hwrite, hlen⟩ := Buffer.exists_write hfits
    rw [if_neg hlong, hwrite]
    simp only [Option.bind_eq_bind, Option.bind_some]
    split
    · rename_i hends
      have hfits' : t.escP + 1 + [(0 : UInt8)].length ≤ escSeq.length := by
        rw [hlen, h.escSeq, List.length_singleton]
        omega
      obtain ⟨escSeq', hwrite', hlen'⟩ := Buffer.exists_write hfits'
      have hbetween : Between { t with escSeq := escSeq', escP := t.escP + 1 } [] :=
        { h with escP := by dsimp only; omega, escSeq := hlen'.trans (hlen.trans h.escSeq) }
      obtain ⟨t', hseq, hkept, hcont'⟩ := hbetween.of_keeps
        (@tinyrlEscSeq_keeps _ junk hbetween.texts hbetween.utf8 (cstrAt escSeq' 0))
      rw [hwrite']
      dsimp only [Option.bind_some]
      rw [hseq]
      refine ⟨_, rfl, { hkept with }, hcont'.trans hcont, ?_⟩
      simp [hends]
    · rename_i hends
      refine ⟨_, rfl, { h with
        escP := by dsimp only; omega, escSeq := hlen.trans h.escSeq }, hcont, ?_⟩
      have hshort : ¬t.escP ≥ 9 := hlong
      simp [hesc, hends, hshort]

/-- Bytes of a character in an escape sequence. The character is broken if the sequence is over
before its last byte. -/
theorem bytes_esc {bytes : Bytes} (htails : ∀ b ∈ bytes.tail, Utf8.isTail b = true)
    {s : Tinyrl × ℕ} (h : Rests s) (hesc : s.1.escCont = true) :
    Done junk signedChar s (charEvents bytes) ∨ Broken junk signedChar s (charEvents bytes) := by
  induction bytes generalizing s with
  | nil => exact .inl (done_nil h)
  | cons b bytes ih =>
    obtain ⟨t, missing⟩ := s
    obtain ⟨t', hprocess, hbetween, hcont, hgoes⟩ :=
      @processChar_esc junk signedChar t h.between h.cont hesc b
    have hstep := @observe_esc junk signedChar t missing hesc t' b bytes.length hprocess
    have hrests : Rests (t', 0) := ⟨hbetween, hcont, rfl⟩
    cases hover : t'.escCont with
    | true =>
      have hnot := hgoes.mp hover
      have hwhole : Whole signedChar (t, missing) (.byte b bytes.length) :=
        fun _ hends => absurd hends hnot
      refine (ih (fun b hb => htails b (List.mem_of_mem_tail hb)) hrests hover).imp ?_ ?_
      · exact fun hdone => hdone.cons h.sound hwhole hstep
      · exact fun hbroken => hbroken.cons hstep
    | false =>
      cases bytes with
      | nil => exact .inl ((done_nil hrests).cons h.sound (fun _ _ => rfl) hstep)
      | cons b' rest =>
        right
        have hends : t.escP ≥ 9 ∨ endsEsc signedChar b = true := by
          by_contra hnot
          exact Bool.false_ne_true (hover.symm.trans (hgoes.mpr hnot))
        refine ⟨?_, fun halong => absurd (halong.1 hesc hends) (by simp)⟩
        rintro ⟨-, u, hu, hrest⟩
        obtain rfl := Option.some.inj (hu.symm.trans hstep)
        exact tail_broken hrests hover (htails b' (by simp)) rest hrest

/-- A completion is put into the line. -/
theorem completion_done {s : Tinyrl × ℕ} (h : Rests s) (text : {cs : List Char // '\x00' ∉ cs}) :
    Done junk signedChar s [.insert (Utf8.encode text.1)] := by
  obtain ⟨t, missing⟩ := s
  have htext : IsText (Utf8.encode text.1) := ⟨text.1, text.2, rfl⟩
  obtain ⟨before, after, hbefore, hafter, hholds⟩ := h.between.texts.line
  obtain ⟨line', hline, hholds'⟩ := hholds.insert junk htext.noNul
  have hstep : observe junk signedChar (t, missing) (.insert (Utf8.encode text.1)) =
      some ({ t with line := line' }, missing) := by
    refine Runs.observed_eq_some.mpr ⟨{ t with line := line' }, ?_, rfl⟩
    rw [step, hline]
    rfl
  refine Runs.Passes.cons h.sound trivial hstep (done_nil ⟨?_, h.cont, h.missing⟩)
  refine { h.between with line := ⟨before ++ Utf8.encode text.1, after, ?_, hafter, ?_⟩ }
  · exact hbefore.append htext
  · rwa [List.append_nil]

theorem input_done {s : Tinyrl × ℕ} (input : TinyrlInput) (h : Rests s) :
    Done junk signedChar s input.events ∨ Broken junk signedChar s input.events := by
  cases input with
  | char c =>
    cases hesc : s.1.escCont with
    | false => exact .inl (char_done h hesc c)
    | true =>
      obtain ⟨lead, tails, heq, -, htails⟩ := Utf8.utf8EncodeChar_shape c
      rw [TinyrlInput.events, heq]
      exact @bytes_esc junk signedChar (lead :: tails) htails s h hesc
  | completion text => exact .inl (completion_done h text)

theorem new_rests {hist : Hist} (h : hist.Texts) : Rests (new hist, 0) := by
  refine ⟨⟨⟨[], [], isText_nil, isText_nil, Line.new_holds⟩, h, ?_, rfl, ?_, rfl⟩, rfl, rfl⟩
  · exact fun text htext => by cases htext
  · exact Nat.zero_lt_succ 9

variable (junk signedChar) in
/-- The line, the killed text and the cursor are in order after every byte, exactly if no escape
sequence is given up or ends in the middle of a character. -/
theorem sound_iff {hist : Hist} (hhist : hist.Texts) (inputs : List TinyrlInput) :
    (∀ n, ∃ s, Runs.run (Runs.observed (step junk signedChar) note) (new hist, 0)
        ((inputs.flatMap TinyrlInput.events).take n) = some s ∧ Sound s) ↔
      Runs.Along (Runs.observed (step junk signedChar) note) (Whole signedChar) (new hist, 0)
        (inputs.flatMap TinyrlInput.events) := by
  rw [← Runs.always_iff]
  exact Runs.always_iff_along_flatMap (fun _ h => h.sound) (fun _ input h => input_done input h)
    (new_rests hhist) inputs

/-- A letter of two bytes is typed, the cursor goes to its left with the Left key, and a word is
completed. -/
def sampleInputs : List TinyrlInput :=
  [.char 'é', .char '\x1b', .char '[', .char 'D', .completion ⟨['ü', 'a'], by decide⟩]

theorem sound_iff_sample :
    (∀ n, ∃ s, Runs.run (Runs.observed (step (fun _ => 0) true) note)
        (new (Hist.histNew none 5), 0) ((sampleInputs.flatMap TinyrlInput.events).take n) =
          some s ∧ Sound s) ↔
      Runs.Along (Runs.observed (step (fun _ => 0) true) note) (Whole true)
        (new (Hist.histNew none 5), 0) (sampleInputs.flatMap TinyrlInput.events) :=
  sound_iff (fun _ => 0) true (fun _ h => absurd h List.not_mem_nil) sampleInputs

/-- After the Escape key, four characters of three bytes are typed. The first byte of the fourth
is dropped, and its second byte gets into the line. -/
theorem escape_breaks_char : ∃ s,
    Runs.run (Runs.observed (step (fun _ => 0) true) note) (new (Hist.histNew none 5), 0)
      (([.char '\x1b', .char '€', .char '€', .char '€', .char '€'] : List TinyrlInput).flatMap
        TinyrlInput.events |>.take 12) = some s ∧
    s.1.line.str.take s.1.line.len = [0x82] ∧ s.1.utf8Cont = 0 ∧ ¬Sound s := by
  have hrun : (Runs.run (Runs.observed (step (fun _ => 0) true) note)
      (new (Hist.histNew none 5), 0)
      (([.char '\x1b', .char '€', .char '€', .char '€', .char '€'] : List TinyrlInput).flatMap
        TinyrlInput.events |>.take 12)).map (fun s =>
          (s.1.line.str.take s.1.line.len, s.1.utf8Cont)) = some ([0x82], 0) := by
    decide +kernel
  obtain ⟨s, hs, heq⟩ := Option.map_eq_some_iff.mp hrun
  obtain ⟨hline, hcont⟩ := Prod.mk.inj heq
  refine ⟨s, hs, hline, hcont, fun h => ?_⟩
  have hvalid := (h.valid hcont).1
  rw [hline] at hvalid
  exact Utf8.not_valid_concat_tail (Utf8.valid_encode []) (by decide : _ = true) hvalid

end Characters

end Klish.Tinyrl
