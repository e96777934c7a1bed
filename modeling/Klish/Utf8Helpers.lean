import Mathlib.Algebra.Ring.Nat
import Klish.Lib.Utf8Sequences
import Klish.Redisplay

/-!
# The helpers for UTF-8

Each helper is given a second time, with no result if it reads a byte that is not of the string or
its NUL. The two agree, and the helpers cut a text at the same places.
-/

namespace Klish

open Utf8

section Reads

variable (mem : Bytes)

/-- The loop of `utf8_to_wchar` with what it reads. The inner value is none for a broken character. -/
def readRest : ℕ → ℕ → ℕ → Option (Option ℕ)
  | 0, sym, _ => some (some sym)
  | octets + 1, sym, p => do
    let b ← mem[p]?
    if b &&& 0xC0 ≠ 0x80 then some none
    else readRest octets (sym <<< 6 ||| (b &&& 0x3F).toNat) (p + 1)

/-- `utf8_to_wchar` with what it reads. -/
def readWchar (sp : ℕ) : Option (ℕ × ℕ) := do
  let b ← mem[sp]?
  if b = 0 then some (0, 0)
  else if b &&& 0x80 = 0 then some (1, b.toNat)
  else
    match lead b with
    | none => some (1, b.toNat)
    | some (octets, bits) =>
      let sym ← readRest mem octets bits.toNat (sp + 1)
      some ((sym.map fun sym => (octets + 1, sym)).getD (1, b.toNat))

/-- `utf8_move_left` with what it reads. -/
def readMoveLeft : ℕ → Option ℕ
  | 0 => some 0
  | pos + 1 =>
    if pos > 0 then do
      let b ← mem[pos]?
      if isTail b then readMoveLeft pos else some pos
    else some pos

/-- The loop of `utf8_move_right` with what it reads. -/
def readTails (pos : ℕ) : Option ℕ :=
  if h : pos < mem.length then
    if mem[pos] ≠ 0 ∧ isTail mem[pos] = true then readTails (pos + 1) else some pos
  else none
  termination_by mem.length - pos

/-- `utf8_move_right` with what it reads. -/
def readMoveRight (curPos : ℕ) : Option ℕ := do
  let b ← mem[curPos]?
  if b = 0 then some curPos else readTails mem (curPos + 1)

/-- The loop of `utf8_nsyms` with what it reads. There is also no result when the turns do not
suffice. -/
def readNsyms (len : ℕ) : ℕ → ℕ → ℕ → Option ℕ
  | 0, _, _ => none
  | turns + 1, pos, nsym =>
    if pos < len then do
      let b ← mem[pos]?
      if b = 0 then some nsym
      else if b &&& 0x80 = 0 then readNsyms len turns (pos + 1) (nsym + 1)
      else
        let (n, sym) ← readWchar mem pos
        readNsyms len turns (pos + n) (nsym + if utf8WcharIsCjk sym then 2 else 1)
    else some nsym

end Reads

section Inside

variable {str : Bytes} {p : ℕ}

/-- What is read at a place of a string. -/
theorem exists_read (hstr : 0 ∉ str) (hp : p ≤ str.length) : ∃ b, (str ++ [0])[p]? = some b ∧
    (str ++ [0]).drop p = b :: (str ++ [0]).drop (p + 1) ∧ (b = 0 ↔ p = str.length) := by
  have hlt : p < (str ++ [0]).length := by
    rw [List.length_append, List.length_singleton]
    omega
  refine ⟨(str ++ [0])[p], List.getElem?_eq_getElem hlt, List.drop_eq_getElem_cons hlt, ?_⟩
  by_cases hend : p = str.length
  · simp [hend]
  · have hin : p < str.length := by omega
    rw [List.getElem_append_left hin]
    exact iff_of_false (fun hzero => hstr (hzero ▸ List.getElem_mem hin)) hend

/-- What is known of a byte that is no NUL. -/
theorem lt_of_read {b : UInt8} (hp : p ≤ str.length) (hnul : b = 0 ↔ p = str.length) (hb : b ≠ 0) :
    p < str.length := Nat.lt_of_le_of_ne hp fun hend => hb (hnul.mpr hend)

theorem readRest_eq (hstr : 0 ∉ str) (octets sym : ℕ) (hp : p ≤ str.length) :
    readRest (str ++ [0]) octets sym p = some (wcharRest octets sym ((str ++ [0]).drop p)) ∧
      ∀ code, wcharRest octets sym ((str ++ [0]).drop p) = some code → p + octets ≤ str.length := by
  induction octets generalizing sym p with
  | zero => exact ⟨rfl, fun _ _ => hp⟩
  | succ octets ih =>
    obtain ⟨b, hread, hdrop, hnul⟩ := exists_read hstr hp
    rw [readRest, hread, hdrop, wcharRest]
    dsimp only [Option.bind_eq_bind, Option.bind_some]
    split
    · exact ⟨rfl, fun code hcode => by cases hcode⟩
    · rename_i htail
      have hb : b ≠ 0 := by
        rintro rfl
        exact htail (by decide)
      have hlt := lt_of_read hp hnul hb
      obtain ⟨heq, hend⟩ := ih (sym <<< 6 ||| (b &&& 0x3F).toNat) hlt
      exact ⟨heq, fun code hcode => by have hle := hend code hcode; omega⟩

/-- A first byte that is not of ASCII. -/
theorem utf8ToWchar_cons {b : UInt8} (hzero : b ≠ 0) (hascii : b &&& 0x80 ≠ 0) (rest : Bytes) :
    utf8ToWchar (b :: rest) =
      match lead b with
      | none => (1, b.toNat)
      | some (octets, bits) =>
        ((wcharRest octets bits.toNat rest).map fun sym => (octets + 1, sym)).getD (1, b.toNat) := by
  have hread : utf8ToWchar (b :: rest) = (((lead b).bind fun first =>
      (wcharRest first.1 first.2.toNat rest).map fun sym => (first.1 + 1, sym))).getD
        (1, b.toNat) := by
    rw [utf8ToWchar, if_neg hzero, if_neg hascii, lead, if_neg hascii]
    cases (if b &&& 0xE0 = 0xC0 then some (1, b &&& 0x1F)
      else if b &&& 0xF0 = 0xE0 then some (2, b &&& 0xF)
      else if b &&& 0xF8 = 0xF0 then some (3, b &&& 7)
      else if b &&& 0xFC = 0xF8 then some (4, b &&& 3)
      else if b &&& 0xFE = 0xFC then some (5, b &&& 1)
      else none : Option (ℕ × UInt8)) with
    | none => rfl
    | some first =>
      dsimp only [Option.bind_some]
      cases wcharRest first.1 first.2.toNat rest <;> rfl
  rw [hread]
  cases lead b with
  | none => rfl
  | some first => rfl

/-- `utf8_to_wchar` reads only the string and its NUL, and takes a byte before the NUL. -/
theorem readWchar_eq (hstr : 0 ∉ str) (hp : p ≤ str.length) :
    readWchar (str ++ [0]) p = some (utf8ToWchar ((str ++ [0]).drop p)) ∧
      p + (utf8ToWchar ((str ++ [0]).drop p)).1 ≤ str.length ∧
      (p < str.length → 0 < (utf8ToWchar ((str ++ [0]).drop p)).1) := by
  obtain ⟨b, hread, hdrop, hnul⟩ := exists_read hstr hp
  unfold readWchar
  rw [hread, hdrop]
  dsimp only [Option.bind_eq_bind, Option.bind_some]
  by_cases hzero : b = 0
  · have hend := hnul.mp hzero
    rw [if_pos hzero, utf8ToWchar, if_pos hzero]
    exact ⟨rfl, hp, fun hlt => by omega⟩
  · have hlt := lt_of_read hp hnul hzero
    rw [if_neg hzero]
    by_cases hascii : b &&& 0x80 = 0
    · rw [if_pos hascii, utf8ToWchar, if_neg hzero, if_pos hascii]
      exact ⟨rfl, hlt, fun _ => Nat.zero_lt_one⟩
    · rw [if_neg hascii, utf8ToWchar_cons hzero hascii]
      cases hfirst : lead b with
      | none => exact ⟨rfl, hlt, fun _ => Nat.zero_lt_one⟩
      | some first =>
        obtain ⟨octets, bits⟩ := first
        obtain ⟨heq, hend⟩ := readRest_eq hstr octets bits.toNat (show p + 1 ≤ str.length from hlt)
        dsimp only
        rw [heq]
        refine ⟨rfl, ?_⟩
        cases hrest : wcharRest octets bits.toNat ((str ++ [0]).drop (p + 1)) with
        | none => exact ⟨hlt, fun _ => Nat.zero_lt_one⟩
        | some sym =>
          have hle := hend sym hrest
          refine ⟨?_, fun _ => Nat.succ_pos _⟩
          simp only [Option.map_some, Option.getD_some]
          omega

theorem readMoveLeft_eq (hp : p ≤ str.length) :
    readMoveLeft (str ++ [0]) p = some (utf8MoveLeft (str ++ [0]) p) := by
  induction p with
  | zero => rfl
  | succ pos ih =>
    have hlt : pos < (str ++ [0]).length := by
      rw [List.length_append]
      omega
    rw [readMoveLeft, utf8MoveLeft, List.getElem?_eq_getElem hlt, List.getD_eq_getElem _ _ hlt]
    dsimp only [Option.bind_eq_bind, Option.bind_some]
    by_cases hpos : pos > 0
    · by_cases htail : isTail (str ++ [0])[pos] = true
      · rw [if_pos hpos, if_pos htail, if_pos ⟨hpos, htail⟩]
        exact ih (by omega)
      · rw [if_pos hpos, if_neg htail, if_neg fun hand => htail hand.2]
    · rw [if_neg hpos, if_neg fun hand => hpos hand.1]

theorem utf8MoveLeft_le (line : Bytes) (pos : ℕ) : utf8MoveLeft line pos ≤ pos := by
  cases pos with
  | zero => exact Nat.le_refl 0
  | succ pos => exact Nat.le_of_lt (utf8MoveLeft_lt line pos)

theorem readTails_eq (hstr : 0 ∉ str) (hp : p ≤ str.length) :
    readTails (str ++ [0]) p = some (p + (((str ++ [0]).drop p).takeWhile fun b =>
      b ≠ 0 && isTail b).length) ∧
    p + (((str ++ [0]).drop p).takeWhile fun b => b ≠ 0 && isTail b).length ≤ str.length := by
  obtain ⟨n, hn⟩ : ∃ n, str.length - p = n := ⟨_, rfl⟩
  induction n generalizing p with
  | zero =>
    obtain ⟨b, hread, hdrop, hnul⟩ := exists_read hstr hp
    have hzero : b = 0 := hnul.mpr (by omega)
    obtain ⟨hlt, hget⟩ := List.getElem?_eq_some_iff.mp hread
    rw [readTails, dif_pos hlt, hget, hzero, if_neg fun hand => hand.1 rfl, hdrop, hzero]
    exact ⟨by simp, by simp; omega⟩
  | succ n ih =>
    obtain ⟨b, hread, hdrop, hnul⟩ := exists_read hstr hp
    obtain ⟨hlt, hget⟩ := List.getElem?_eq_some_iff.mp hread
    rw [readTails, dif_pos hlt, hget, hdrop]
    by_cases htail : b ≠ 0 ∧ isTail b = true
    · have hin := lt_of_read hp hnul htail.1
      obtain ⟨heq, hle⟩ := ih (show p + 1 ≤ str.length from hin) (by omega)
      rw [if_pos htail, List.takeWhile_cons_of_pos (by simp [htail.1, htail.2]), heq,
        List.length_cons]
      exact ⟨congrArg some (by omega), by omega⟩
    · have hstop : (b ≠ 0 && isTail b) = false := by
        rw [Bool.eq_false_iff, ne_eq, Bool.and_eq_true, decide_eq_true_eq]
        exact htail
      rw [if_neg htail, List.takeWhile_cons, hstop]
      exact ⟨rfl, hp⟩

/-- `utf8_move_right` reads only the string and its NUL, and moves before the NUL. -/
theorem readMoveRight_eq (hstr : 0 ∉ str) (hp : p ≤ str.length) :
    readMoveRight (str ++ [0]) p = some (utf8MoveRight (str ++ [0]) p) ∧
      utf8MoveRight (str ++ [0]) p ≤ str.length ∧
      (p < str.length → p < utf8MoveRight (str ++ [0]) p) := by
  obtain ⟨b, hread, hdrop, hnul⟩ := exists_read hstr hp
  unfold readMoveRight utf8MoveRight
  rw [hread, hdrop]
  dsimp only [Option.bind_eq_bind, Option.bind_some]
  by_cases hzero : b = 0
  · have hend := hnul.mp hzero
    rw [if_pos hzero, if_pos hzero]
    exact ⟨rfl, hp, fun hlt => by omega⟩
  · have hlt := lt_of_read hp hnul hzero
    obtain ⟨heq, hle⟩ := readTails_eq hstr (show p + 1 ≤ str.length from hlt)
    rw [if_neg hzero, if_neg hzero, heq]
    exact ⟨rfl, hle, fun _ => by omega⟩

/-- `utf8_nsyms` reads only the string and its NUL, and ends. -/
theorem readNsyms_eq (hstr : 0 ∉ str) (len : ℕ) {turns : ℕ} (hp : p ≤ str.length)
    (hturns : str.length - p < turns) (nsym : ℕ) :
    readNsyms (str ++ [0]) len turns p nsym =
      some (nsym + utf8Nsyms ((str ++ [0]).drop p) (len - p)) := by
  induction turns generalizing p nsym with
  | zero => exact absurd hturns (Nat.not_lt_zero _)
  | succ turns ih =>
    obtain ⟨b, hread, hdrop, hnul⟩ := exists_read hstr hp
    rw [readNsyms, hread, hdrop, utf8Nsyms]
    dsimp only [Option.bind_eq_bind, Option.bind_some]
    by_cases hlen : p < len
    · rw [if_pos hlen]
      by_cases hzero : b = 0
      · rw [if_pos hzero, if_pos (.inr hzero)]
        rfl
      · have hlt := lt_of_read hp hnul hzero
        have hgoes : ¬(len - p = 0 ∨ b = 0) := by
          rintro (hdone | hnone)
          · omega
          · exact hzero hnone
        rw [if_neg hzero, if_neg hgoes]
        by_cases hascii : b &&& 0x80 = 0
        · have hnext := ih (show p + 1 ≤ str.length from hlt) (by omega) (nsym + 1)
          rw [if_pos hascii, if_pos hascii, hnext, Nat.sub_sub]
          exact congrArg some (by omega)
        · obtain ⟨hwchar, hend, hmoves⟩ := readWchar_eq hstr hp
          rw [hdrop] at hwchar hend hmoves
          have hpos := hmoves hlt
          rw [if_neg hascii, if_neg hascii, hwchar]
          generalize utf8ToWchar (b :: (str ++ [0]).drop (p + 1)) = wchar at hend hpos ⊢
          obtain ⟨n, sym⟩ := wchar
          dsimp only at hend hpos ⊢
          rw [Option.bind_some]
          dsimp only
          have hskip : ((str ++ [0]).drop (p + 1)).drop (n - 1) = (str ++ [0]).drop (p + n) := by
            have hsum : p + 1 + (n - 1) = p + n := by omega
            rw [List.drop_drop, hsum]
          rw [ih hend (by omega), hskip, Nat.sub_sub]
          exact congrArg some (by omega)
    · rw [if_neg hlen, if_pos (.inl (by omega))]
      rfl

end Inside

section Sequences

variable {str seq first rest : Bytes} {seqs before after : List Bytes}

theorem wcharRest_tails {tails : Bytes} (h : ∀ b ∈ tails, isTail b = true) (sym : ℕ) (rest : Bytes) :
    wcharRest tails.length sym (tails ++ rest) =
      some (tails.foldl (fun sym b => sym <<< 6 ||| (b &&& 0x3F).toNat) sym) := by
  induction tails generalizing sym with
  | nil => rfl
  | cons b tails ih =>
    obtain ⟨hb, htails⟩ := List.forall_mem_cons.mp h
    have hbits : b &&& 0xC0 = 0x80 := of_decide_eq_true hb
    rw [List.length_cons, List.cons_append, wcharRest, if_neg (not_not.mpr hbits), ih htails,
      List.foldl_cons]

/-- `utf8_to_wchar` takes a whole sequence. -/
theorem utf8ToWchar_sequence (h : IsSequence seq) (rest : Bytes) :
    utf8ToWchar (seq ++ rest) = (seq.length, sequenceCode seq) := by
  obtain ⟨b, tails, bits, rfl, hzero, hlead, htails⟩ := h
  by_cases hascii : b &&& 0x80 = 0
  · rw [lead, if_pos hascii, Option.some.injEq, Prod.mk.injEq] at hlead
    obtain rfl := List.eq_nil_of_length_eq_zero hlead.1.symm
    rw [List.singleton_append, utf8ToWchar, if_neg hzero, if_pos hascii, sequenceCode, lead,
      if_pos hascii]
    rfl
  · rw [List.cons_append, utf8ToWchar_cons hzero hascii, hlead, sequenceCode, hlead]
    dsimp only
    rw [wcharRest_tails htails]
    rfl

/-- To the right of a sequence is the next one, or the end. -/
theorem utf8MoveRight_sequence (h : IsSequence seq) (hrest : isTail (rest.headD 0) = false) :
    utf8MoveRight (first ++ seq ++ rest) first.length = first.length + seq.length := by
  obtain ⟨b, tails, bits, rfl, hzero, -, htails⟩ := h
  have hdrop : (first ++ b :: tails ++ rest).drop first.length = b :: (tails ++ rest) := by
    rw [List.append_assoc, List.drop_left, List.cons_append]
  have htake : (tails ++ rest).takeWhile (fun b => b ≠ 0 && isTail b) = tails := by
    rw [List.takeWhile_append_of_pos]
    · cases rest with
      | nil => simp
      | cons c rest =>
        have hc : isTail c = false := hrest
        rw [List.takeWhile_cons_of_neg (by simp [hc]), List.append_nil]
    · intro c hc
      simp [htails c hc, ne_zero_of_isTail (htails c hc)]
  unfold utf8MoveRight
  rw [hdrop]
  dsimp only
  rw [if_neg hzero, htake, List.length_cons]
  omega

/-- To the left of the end of a sequence is its first byte. -/
theorem utf8MoveLeft_sequence (h : IsSequence seq) (hstr : str = first ++ seq ++ rest) :
    utf8MoveLeft str (first.length + seq.length) = first.length := by
  obtain ⟨b, tails, bits, rfl, -, hlead, htails⟩ := h
  have hfirst : isTail (str.getD first.length 0) = false := by
    rw [hstr, List.append_assoc, List.getD_append_right _ _ _ _ (Nat.le_refl _), Nat.sub_self]
    exact isTail_of_lead hlead
  have htail : ∀ n, n < tails.length → isTail (str.getD (first.length + n + 1) 0) = true := by
    intro n hn
    have hget : str.getD (first.length + n + 1) 0 = tails[n] := by
      have hle : first.length ≤ first.length + n + 1 := by omega
      have hsub : first.length + n + 1 - first.length = n + 1 := by omega
      rw [hstr, List.append_assoc, List.getD_append_right _ _ _ _ hle, hsub, List.cons_append,
        List.getD_cons_succ, List.getD_append _ _ _ _ hn, List.getD_eq_getElem _ _ hn]
    rw [hget]
    exact htails _ (List.getElem_mem hn)
  have hall : ∀ n, n ≤ tails.length → utf8MoveLeft str (first.length + n + 1) = first.length := by
    intro n
    induction n with
    | zero =>
      intro _
      rw [Nat.add_zero, utf8MoveLeft,
        if_neg fun h => Bool.false_ne_true (hfirst.symm.trans h.2)]
    | succ n ih =>
      intro hn
      have hpos : first.length + (n + 1) > 0 := by omega
      rw [utf8MoveLeft, if_pos ⟨hpos, htail n (by omega)⟩]
      exact ih (by omega)
  exact hall tails.length (Nat.le_refl _)

/-- The columns of a sequence. -/
def columns (seq : Bytes) : ℕ := if utf8WcharIsCjk (sequenceCode seq) then 2 else 1

/-- The columns of a text are those of its sequences. -/
theorem utf8Nsyms_sequences (h : ∀ seq ∈ seqs, IsSequence seq) (rest : Bytes) :
    utf8Nsyms (seqs.flatten ++ rest) seqs.flatten.length = (seqs.map columns).sum := by
  induction seqs with
  | nil =>
    cases rest with
    | nil => rw [List.flatten_nil, List.append_nil, utf8Nsyms, List.map_nil, List.sum_nil]
    | cons b rest =>
      rw [List.flatten_nil, List.nil_append, utf8Nsyms, if_pos (.inl List.length_nil), List.map_nil,
        List.sum_nil]
  | cons seq seqs ih =>
    obtain ⟨hseq, hseqs⟩ := List.forall_mem_cons.mp h
    have hwchar := utf8ToWchar_sequence hseq (seqs.flatten ++ rest)
    have hrest := ih hseqs
    obtain ⟨b, tails, bits, rfl, hzero, hlead, -⟩ := hseq
    rw [List.map_cons, List.sum_cons, ← hrest, List.flatten_cons, List.append_assoc,
      List.length_append]
    have hlen : (b :: tails).length + seqs.flatten.length ≠ 0 := by
      rw [List.length_cons]
      omega
    rw [List.cons_append, utf8Nsyms, if_neg (not_or.mpr ⟨hlen, hzero⟩)]
    by_cases hascii : b &&& 0x80 = 0
    · rw [lead, if_pos hascii, Option.some.injEq, Prod.mk.injEq] at hlead
      obtain rfl := List.eq_nil_of_length_eq_zero hlead.1.symm
      have hcode := forall_byte
        (p := fun b => b &&& 0x80 ≠ 0 || utf8WcharIsCjk (sequenceCode [b]) = false)
        (by decide +kernel) b
      have hone : columns [b] = 1 := by
        rw [columns]
        simp only [hascii, ne_eq, not_true_eq_false, decide_false, Bool.false_or,
          decide_eq_true_eq] at hcode
        rw [hcode]
        rfl
      rw [if_pos hascii, hone, List.nil_append, List.length_singleton, Nat.add_sub_cancel_left]
      omega
    · rw [List.cons_append] at hwchar
      rw [if_neg hascii, hwchar]
      dsimp only
      rw [List.length_cons, Nat.add_sub_cancel, List.drop_left, Nat.add_sub_cancel_left, columns]
      omega

/-- The helpers cut the text into its sequences. -/
structure SegmentsAlike (seqs : List Bytes) : Prop where
  right : ∀ before seq after, seqs = before ++ seq :: after →
    readMoveRight (seqs.flatten ++ [0]) before.flatten.length =
      some (before ++ [seq]).flatten.length
  wchar : ∀ before seq after, seqs = before ++ seq :: after →
    readWchar (seqs.flatten ++ [0]) before.flatten.length = some (seq.length, sequenceCode seq)
  left : ∀ before seq after, seqs = before ++ seq :: after →
    readMoveLeft (seqs.flatten ++ [0]) (before ++ [seq]).flatten.length =
      some before.flatten.length
  nsyms : ∀ before after turns, seqs = before ++ after → seqs.flatten.length < turns →
    readNsyms (seqs.flatten ++ [0]) before.flatten.length turns 0 0 = some (before.map columns).sum
  additive : ∀ before more after, seqs = before ++ more ++ after →
    utf8Nsyms (seqs.flatten ++ [0]) (before ++ more).flatten.length =
      utf8Nsyms (seqs.flatten ++ [0]) before.flatten.length +
        utf8Nsyms (more.flatten ++ [0]) more.flatten.length
  monotone : ∀ before more after, seqs = before ++ more ++ after →
    utf8Nsyms (seqs.flatten ++ [0]) before.flatten.length ≤
      utf8Nsyms (seqs.flatten ++ [0]) (before ++ more).flatten.length

/-- The helpers read only the string and its NUL, and go on before the NUL. -/
structure StaysInside (str : Bytes) : Prop where
  wchar : ∀ p ≤ str.length, ∃ n sym, readWchar (str ++ [0]) p = some (n, sym) ∧
    p + n ≤ str.length ∧ (p < str.length → 0 < n)
  right : ∀ p ≤ str.length, ∃ next, readMoveRight (str ++ [0]) p = some next ∧
    next ≤ str.length ∧ (p < str.length → p < next)
  left : ∀ p ≤ str.length, ∃ prev, readMoveLeft (str ++ [0]) p = some prev ∧ prev ≤ p
  nsyms : ∀ p ≤ str.length, ∀ len, ∃ n, ∀ turns, str.length - p < turns →
    readNsyms (str ++ [0]) len turns p 0 = some n

theorem staysInside (hstr : 0 ∉ str) : StaysInside str := by
  constructor
  · intro p hp
    obtain ⟨heq, hend, hmoves⟩ := readWchar_eq hstr hp
    exact ⟨_, _, heq, hend, hmoves⟩
  · intro p hp
    obtain ⟨heq, hend, hmoves⟩ := readMoveRight_eq hstr hp
    exact ⟨_, heq, hend, hmoves⟩
  · intro p hp
    exact ⟨_, readMoveLeft_eq hp, utf8MoveLeft_le _ _⟩
  · intro p hp len
    exact ⟨_, fun turns hturns => readNsyms_eq hstr len hp hturns 0⟩

theorem zero_notMem_flatten (h : ∀ seq ∈ seqs, IsSequence seq) : 0 ∉ seqs.flatten := by
  intro hmem
  obtain ⟨seq, hseq, hzero⟩ := List.mem_flatten.mp hmem
  obtain ⟨b, tails, bits, rfl, hb, -, htails⟩ := h seq hseq
  rcases List.mem_cons.mp hzero with rfl | htail
  · exact hb rfl
  · exact ne_zero_of_isTail (htails 0 htail) rfl

/-- The columns of the first sequences of a text. -/
theorem utf8Nsyms_first (h : ∀ seq ∈ seqs, IsSequence seq) (hsplit : seqs = before ++ after) :
    utf8Nsyms (seqs.flatten ++ [0]) before.flatten.length = (before.map columns).sum := by
  have hbefore : ∀ seq ∈ before, IsSequence seq :=
    fun seq hseq => h seq (hsplit ▸ List.mem_append_left _ hseq)
  rw [hsplit, List.flatten_append, List.append_assoc]
  exact utf8Nsyms_sequences hbefore _

theorem segmentsAlike (h : ∀ seq ∈ seqs, IsSequence seq) : SegmentsAlike seqs := by
  have hstr := zero_notMem_flatten h
  have hplace : ∀ before seq after, seqs = before ++ seq :: after →
      IsSequence seq ∧ seqs.flatten ++ [0] = before.flatten ++ seq ++ (after.flatten ++ [0]) ∧
        before.flatten.length ≤ seqs.flatten.length ∧
        (before ++ [seq]).flatten.length = before.flatten.length + seq.length ∧
        before.flatten.length + seq.length ≤ seqs.flatten.length ∧
        isTail ((after.flatten ++ [0]).headD 0) = false := by
    rintro before seq after rfl
    refine ⟨h seq (by simp), by simp, ?_, by simp, ?_, isTail_flatten fun seq' hseq' =>
      h seq' (List.mem_append_right _ (List.mem_cons_of_mem _ hseq'))⟩
    · simp
    · simp
  constructor
  · intro before seq after hsplit
    obtain ⟨hseq, hbytes, hle, hlen, -, hnext⟩ := hplace before seq after hsplit
    rw [(readMoveRight_eq hstr hle).1, hlen, hbytes, utf8MoveRight_sequence hseq hnext]
  · intro before seq after hsplit
    obtain ⟨hseq, hbytes, hle, -, -, -⟩ := hplace before seq after hsplit
    rw [(readWchar_eq hstr hle).1, hbytes, List.append_assoc, List.drop_left,
      utf8ToWchar_sequence hseq]
  · intro before seq after hsplit
    obtain ⟨hseq, hbytes, -, hlen, hle, -⟩ := hplace before seq after hsplit
    rw [hlen, readMoveLeft_eq hle, utf8MoveLeft_sequence hseq hbytes]
  · intro before after turns hsplit hturns
    rw [readNsyms_eq hstr _ (Nat.zero_le _) (by omega), List.drop_zero, Nat.sub_zero,
      utf8Nsyms_first h hsplit, Nat.zero_add]
  · intro before more after hsplit
    have hmore : ∀ seq ∈ more, IsSequence seq := fun seq hseq => h seq (by simp [hsplit, hseq])
    rw [utf8Nsyms_first h hsplit, utf8Nsyms_first h (hsplit.trans (List.append_assoc _ _ _)),
      utf8Nsyms_sequences hmore, List.map_append, List.sum_append]
  · intro before more after hsplit
    rw [utf8Nsyms_first h hsplit, utf8Nsyms_first h (hsplit.trans (List.append_assoc _ _ _)),
      List.map_append, List.sum_append]
    exact Nat.le_add_right _ _

/-- On valid text the helpers cut at the same places, and on any string they stay inside it. -/
theorem utf8_helpers_segment :
    (∀ seqs, (∀ seq ∈ seqs, IsSequence seq) → SegmentsAlike seqs) ∧
      ∀ str : Bytes, 0 ∉ str → StaysInside str :=
  ⟨fun _ h => segmentsAlike h, fun _ h => staysInside h⟩

/-- A text of one, two, three and six bytes, and a string with a truncated sequence. -/
theorem utf8_helpers_segment_sample :
    SegmentsAlike [[0x61], [0xC3, 0xA9], [0xE4, 0xB8, 0xAD], [0xFC, 0x84, 0x80, 0x80, 0x80, 0x80]] ∧
      StaysInside [0x80, 0xE4, 0xB8] := by
  refine ⟨utf8_helpers_segment.1 _ ?_, utf8_helpers_segment.2 _ (by decide)⟩
  refine List.forall_mem_cons.mpr ⟨⟨_, _, 0x61, rfl, by decide, by decide, by decide +kernel⟩, ?_⟩
  refine List.forall_mem_cons.mpr ⟨⟨_, _, 3, rfl, by decide, by decide, by decide +kernel⟩, ?_⟩
  refine List.forall_mem_cons.mpr ⟨⟨_, _, 4, rfl, by decide, by decide, by decide +kernel⟩, ?_⟩
  exact List.forall_mem_singleton.mpr ⟨_, _, 0, rfl, by decide, by decide, by decide +kernel⟩

end Sequences

end Klish
