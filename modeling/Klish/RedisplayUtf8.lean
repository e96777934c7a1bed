import Klish.Redisplay

/-!
# Bytes and columns of a text

A text of characters of one column has as many columns as characters, and the equal part of two
texts ends between two characters.
-/

namespace Klish

/-- The character is printed in one column. -/
def SingleColumn (c : Char) : Prop :=
  32 ≤ c.val.toNat ∧ ¬(127 ≤ c.val.toNat ∧ c.val.toNat < 160) ∧
    utf8WcharIsCjk c.val.toNat = false

instance (c : Char) : Decidable (SingleColumn c) := inferInstanceAs (Decidable (_ ∧ _))

theorem SingleColumn.ne_nul {c : Char} (h : SingleColumn c) : c ≠ '\x00' := by
  rintro rfl
  exact absurd h.1 (by decide)

section Wchar

/-- The bits of a byte that follows. -/
theorem wcharRest_tail {m : ℕ} (hm : m < 0x40) (n sym : ℕ) (p : Bytes) :
    wcharRest (n + 1) sym (UInt8.ofNat (m + 0x80) :: p) = wcharRest n (sym * 64 + m) p := by
  have hall : (List.range 0x40).all (fun m => decide (UInt8.ofNat (m + 0x80) &&& 0xC0 = 0x80) &&
      decide ((UInt8.ofNat (m + 0x80) &&& 0x3F).toNat = m)) = true := by decide +kernel
  have hbits := List.all_eq_true.mp hall m (List.mem_range.mpr hm)
  rw [Bool.and_eq_true, decide_eq_true_eq, decide_eq_true_eq] at hbits
  have hsym : sym <<< 6 ||| m = sym * 64 + m := by
    rw [← Nat.shiftLeft_add_eq_or_of_lt (show m < 2 ^ 6 from hm), Nat.shiftLeft_eq]
  rw [wcharRest, if_neg (not_not.mpr hbits.1), hbits.2, hsym]

/-- A first byte that announces others, with the bits that it has of the code. -/
def Announces (b : UInt8) (octets bits : ℕ) : Prop :=
  ∀ p sym, wcharRest octets bits p = some sym → utf8ToWchar (b :: p) = (octets + 1, sym)

theorem announces_two {m : ℕ} (hm : m < 0x20) : Announces (UInt8.ofNat (m + 0xC0)) 1 m := by
  have hall : (List.range 0x20).all (fun m => let b := UInt8.ofNat (m + 0xC0)
      decide (b ≠ 0 ∧ b &&& 0x80 ≠ 0 ∧ b &&& 0xE0 = 0xC0 ∧ (b &&& 0x1F).toNat = m)) = true := by
    decide +kernel
  have hbits := of_decide_eq_true (List.all_eq_true.mp hall m (List.mem_range.mpr hm))
  obtain ⟨hzero, hascii, htwo, hcode⟩ := hbits
  intro p sym h
  rw [utf8ToWchar, if_neg hzero, if_neg hascii]
  simp only [if_pos htwo, hcode, h]

theorem announces_three {m : ℕ} (hm : m < 0x10) : Announces (UInt8.ofNat (m + 0xE0)) 2 m := by
  have hall : (List.range 0x10).all (fun m => let b := UInt8.ofNat (m + 0xE0)
      decide (b ≠ 0 ∧ b &&& 0x80 ≠ 0 ∧ b &&& 0xE0 ≠ 0xC0 ∧ b &&& 0xF0 = 0xE0 ∧
        (b &&& 0xF).toNat = m)) = true := by decide +kernel
  have hbits := of_decide_eq_true (List.all_eq_true.mp hall m (List.mem_range.mpr hm))
  obtain ⟨hzero, hascii, htwo, hthree, hcode⟩ := hbits
  intro p sym h
  rw [utf8ToWchar, if_neg hzero, if_neg hascii]
  simp only [if_neg htwo, if_pos hthree, hcode, h]

theorem announces_four {m : ℕ} (hm : m < 8) : Announces (UInt8.ofNat (m + 0xF0)) 3 m := by
  have hall : (List.range 8).all (fun m => let b := UInt8.ofNat (m + 0xF0)
      decide (b ≠ 0 ∧ b &&& 0x80 ≠ 0 ∧ b &&& 0xE0 ≠ 0xC0 ∧ b &&& 0xF0 ≠ 0xE0 ∧
        b &&& 0xF8 = 0xF0 ∧ (b &&& 7).toNat = m)) = true := by decide +kernel
  have hbits := of_decide_eq_true (List.all_eq_true.mp hall m (List.mem_range.mpr hm))
  obtain ⟨hzero, hascii, htwo, hthree, hfour, hcode⟩ := hbits
  intro p sym h
  rw [utf8ToWchar, if_neg hzero, if_neg hascii]
  simp only [if_neg htwo, if_neg hthree, if_pos hfour, hcode, h]

variable {c : Char}

theorem utf8ToWchar_char (hc : c ≠ '\x00') (rest : Bytes) :
    utf8ToWchar (String.utf8EncodeChar c ++ rest) =
      ((String.utf8EncodeChar c).length, c.val.toNat) := by
  have hmod : ∀ v : ℕ, v % 0x40 < 0x40 := fun v => Nat.mod_lt _ (by decide)
  have hvalid : c.val.toNat < 0x110000 := by
    rcases c.valid with hlow | hhigh
    · have hlt : c.val.toNat < 0xd800 := hlow
      omega
    · exact hhigh.2
  have hzero : c.val.toNat ≠ 0 := fun h => hc (Char.ext (UInt32.toNat.inj h))
  unfold String.utf8EncodeChar
  dsimp only
  generalize c.val.toNat = v at hvalid hzero ⊢
  by_cases h1 : v ≤ 0x7f
  · have hall : (List.range 0x80).all (fun v => decide (UInt8.ofNat v = 0 → v = 0) &&
        decide (UInt8.ofNat v &&& 0x80 = 0) && decide ((UInt8.ofNat v).toNat = v)) = true := by
      decide +kernel
    have hbits := List.all_eq_true.mp hall v (List.mem_range.mpr (by omega))
    simp only [Bool.and_eq_true, decide_eq_true_eq] at hbits
    rw [if_pos h1, List.singleton_append, utf8ToWchar, if_neg fun h => hzero (hbits.1.1 h),
      if_pos hbits.1.2, hbits.2]
    rfl
  · rw [if_neg h1]
    by_cases h2 : v ≤ 0x7ff
    · rw [if_pos h2]
      refine announces_two (Nat.mod_lt _ (by decide)) _ _ ?_
      rw [List.append_eq, List.singleton_append, wcharRest_tail (hmod _), wcharRest]
      refine congrArg some ?_
      omega
    · rw [if_neg h2]
      by_cases h3 : v ≤ 0xffff
      · rw [if_pos h3]
        refine announces_three (Nat.mod_lt _ (by decide)) _ _ ?_
        rw [List.append_eq, List.cons_append, List.singleton_append, wcharRest_tail (hmod _),
          wcharRest_tail (hmod _), wcharRest]
        refine congrArg some ?_
        omega
      · rw [if_neg h3]
        refine announces_four (Nat.mod_lt _ (by decide)) _ _ ?_
        rw [List.append_eq, List.cons_append, List.cons_append, List.singleton_append,
          wcharRest_tail (hmod _), wcharRest_tail (hmod _), wcharRest_tail (hmod _), wcharRest]
        refine congrArg some ?_
        omega

/-- A text has as many columns as characters. -/
theorem utf8Nsyms_encode {cs : List Char} (h : ∀ c ∈ cs, SingleColumn c) (rest : Bytes) :
    utf8Nsyms (Utf8.encode cs ++ rest) (Utf8.encode cs).length = cs.length := by
  induction cs with
  | nil =>
    cases rest with
    | nil => rw [Utf8.encode_nil, List.append_nil, utf8Nsyms, List.length_nil]
    | cons b rest =>
      rw [Utf8.encode_nil, List.nil_append, utf8Nsyms, if_pos (.inl List.length_nil),
        List.length_nil]
  | cons c cs ih =>
    have hc := h c List.mem_cons_self
    have hcs := ih fun d hd => h d (List.mem_cons_of_mem _ hd)
    have hsym := utf8ToWchar_char hc.ne_nul (Utf8.encode cs ++ rest)
    have hnul : (0 : UInt8) ∉ String.utf8EncodeChar c :=
      fun hmem => hc.ne_nul (Utf8.zero_mem_utf8EncodeChar hmem)
    obtain ⟨lead, tails, heq, hsize, -⟩ := Utf8.utf8EncodeChar_shape c
    rw [Utf8.encode_cons, List.append_assoc, List.length_append]
    rw [heq] at hsym hnul ⊢
    have hlead : lead ≠ 0 := fun hzero => hnul (hzero ▸ List.mem_cons_self)
    have hlen : (lead :: tails).length + (Utf8.encode cs).length ≠ 0 := by
      rw [List.length_cons]
      omega
    rw [List.cons_append, utf8Nsyms, if_neg (not_or.mpr ⟨hlen, hlead⟩)]
    by_cases hascii : lead &&& 0x80 = 0
    · have hnil : tails = [] := by
        refine List.eq_nil_of_length_eq_zero ?_
        rw [Utf8.size, if_pos hascii] at hsize
        omega
      rw [if_pos hascii, hnil, List.nil_append, List.length_singleton, Nat.add_sub_cancel_left, hcs,
        List.length_cons]
    · rw [List.cons_append] at hsym
      rw [if_neg hascii, hsym]
      dsimp only
      rw [hc.2.2, List.length_cons, Nat.add_sub_cancel, List.drop_left, Nat.add_sub_cancel_left,
        hcs, List.length_cons]
      rfl

end Wchar

section EqualPart

variable {s first : Bytes} {m n : ℕ}

theorem skipTails_eq_zero (h : ∀ i, 1 ≤ i → i ≤ n → Utf8.isTail (s.getD i 0) = true) :
    skipTails s n = 0 := by
  induction n with
  | zero => rfl
  | succ n ih =>
    rw [skipTails, if_pos (h (n + 1) (by omega) (Nat.le_refl _))]
    exact ih fun i hi hle => h i hi (by omega)

/-- What comes before a first byte is not looked at. -/
theorem skipTails_append (h : Utf8.isTail (s.getD 0 0) = false) :
    skipTails (first ++ s) (first.length + n) = first.length + skipTails s n := by
  induction n with
  | zero =>
    rw [Nat.add_zero, skipTails, Nat.add_zero]
    cases hlen : first.length with
    | zero => rfl
    | succ k =>
      have hget : (first ++ s).getD (k + 1) 0 = s.getD 0 0 := by
        rw [List.getD_append_right _ _ _ _ (by omega), hlen, Nat.sub_self]
      rw [skipTails, hget, if_neg (by rw [h]; exact Bool.false_ne_true)]
  | succ n ih =>
    have hget : (first ++ s).getD (first.length + n + 1) 0 = s.getD (n + 1) 0 := by
      have hsub : first.length + n + 1 - first.length = n + 1 := by omega
      rw [List.getD_append_right _ _ _ _ (by omega), hsub]
    rw [← Nat.add_assoc, skipTails, hget, skipTails]
    split
    · exact ih
    · rfl

theorem equalBytes_append (h : 0 ∉ first) (s1 s2 : Bytes) :
    equalBytes (first ++ s1) (first ++ s2) = first.length + equalBytes s1 s2 := by
  induction first with
  | nil => simp
  | cons b first ih =>
    simp only [List.mem_cons, not_or] at h
    have hb : ¬(b = 0 ∨ b = 0 ∨ b ≠ b) := by
      rintro (hzero | hzero | hne)
      · exact h.1 hzero.symm
      · exact h.1 hzero.symm
      · exact hne rfl
    rw [List.cons_append, List.cons_append, equalBytes, if_neg hb, ih h.2, List.length_cons]
    omega

/-- The strings are the same up to where they are equal. -/
theorem equalBytes_take (s1 s2 : Bytes) :
    s1.take (equalBytes s1 s2) = s2.take (equalBytes s1 s2) := by
  fun_induction equalBytes s1 s2 with
  | case1 a s1 b s2 hstop => rfl
  | case2 a s1 b s2 hgo ih =>
    simp only [not_or, not_not] at hgo
    rw [List.take_succ_cons, List.take_succ_cons, ih, hgo.2.2]
  | case3 => rfl

/-- A character is not the beginning of another text than its own. -/
theorem char_eq_of_begins {c d : Char} {s1 s2 : Bytes}
    (h : String.utf8EncodeChar c ++ s1 = String.utf8EncodeChar d ++ s2) : c = d := by
  obtain ⟨lead, tails, hc, hsize, -⟩ := Utf8.utf8EncodeChar_shape c
  obtain ⟨lead', tails', hd, hsize', -⟩ := Utf8.utf8EncodeChar_shape d
  have hlead : lead = lead' := by
    rw [hc, hd] at h
    exact (List.cons.inj h).1
  have hlen : (String.utf8EncodeChar c).length = (String.utf8EncodeChar d).length := by
    rw [hc, hd, List.length_cons, List.length_cons, ← hsize, ← hsize', hlead]
  have hsame : Utf8.encode [c] = Utf8.encode [d] := by
    rw [Utf8.encode_cons, Utf8.encode_cons, (List.append_inj h hlen).1]
  have hdecode := congrArg Utf8.decode hsame
  rw [Utf8.decode_encode, Utf8.decode_encode] at hdecode
  exact (List.cons.inj hdecode).1

/-- A text and the end of the string do not begin with a tail. -/
theorem isTail_text {cs : List Char} {rest : Bytes} :
    Utf8.isTail ((Utf8.encode cs ++ 0 :: rest).getD 0 0) = false := by
  cases cs with
  | nil =>
    have hget : (Utf8.encode [] ++ 0 :: rest).getD 0 0 = 0 := rfl
    rw [hget]
    decide
  | cons c cs =>
    obtain ⟨lead, tails, heq, hsize, -⟩ := Utf8.utf8EncodeChar_shape c
    rw [Utf8.encode_cons, heq]
    exact @Utf8.isTail_of_size lead (by omega)

/-- The equal part of two texts is all characters up to the first that differs. -/
theorem tinyrlEqualPart_text {cs ds : List Char} (hcs : '\x00' ∉ cs) (rest rest' : Bytes) :
    ∃ same cs' ds', cs = same ++ cs' ∧ ds = same ++ ds' ∧
      (∀ c, cs'.head? = some c → ds'.head? ≠ some c) ∧
      tinyrlEqualPart true (Utf8.encode cs ++ 0 :: rest) (Utf8.encode ds ++ 0 :: rest') =
        (Utf8.encode same).length := by
  unfold tinyrlEqualPart
  rw [if_pos rfl]
  induction cs generalizing ds with
  | nil =>
    refine ⟨[], [], ds, rfl, rfl, fun c h => by simp at h, ?_⟩
    have hzero : equalBytes (Utf8.encode [] ++ 0 :: rest) (Utf8.encode ds ++ 0 :: rest') = 0 := by
      rw [Utf8.encode_nil, List.nil_append]
      cases hds : Utf8.encode ds ++ 0 :: rest' with
      | nil => rfl
      | cons b s2 => rw [equalBytes, if_pos (.inl rfl)]
    rw [hzero]
    rfl
  | cons c cs ih =>
    simp only [List.mem_cons, not_or] at hcs
    have hnul : (0 : UInt8) ∉ String.utf8EncodeChar c :=
      fun hmem => hcs.1 (Utf8.zero_mem_utf8EncodeChar hmem).symm
    by_cases hsame : ∃ ds', ds = c :: ds'
    · obtain ⟨ds', rfl⟩ := hsame
      obtain ⟨same, cs', ds'', rfl, rfl, hdiffer, heq⟩ := @ih ds' hcs.2
      refine ⟨c :: same, cs', ds'', rfl, rfl, hdiffer, ?_⟩
      rw [Utf8.encode_cons, Utf8.encode_cons, List.append_assoc, List.append_assoc,
        equalBytes_append hnul, skipTails_append isTail_text, heq, Utf8.encode_cons,
        List.length_append]
    · -- The strings differ before the end of the first character.
      have hdiffer : ∀ c', (c :: cs).head? = some c' → ds.head? ≠ some c' := by
        intro c' hc' hd
        obtain rfl : c = c' := Option.some.inj hc'
        exact hsame ⟨ds.tail, (List.cons_head?_tail hd).symm⟩
      refine ⟨[], c :: cs, ds, rfl, rfl, hdiffer, ?_⟩
      obtain ⟨lead, tails, hchar, hsize, htails⟩ := Utf8.utf8EncodeChar_shape c
      have htake := equalBytes_take (Utf8.encode (c :: cs) ++ 0 :: rest)
        (Utf8.encode ds ++ 0 :: rest')
      generalize equalBytes (Utf8.encode (c :: cs) ++ 0 :: rest)
        (Utf8.encode ds ++ 0 :: rest') = n at htake ⊢
      have hshort : n < (String.utf8EncodeChar c).length := by
        by_contra hlong
        have hprefix : String.utf8EncodeChar c =
            (Utf8.encode ds ++ 0 :: rest').take (String.utf8EncodeChar c).length := by
          have hfirst := congrArg (List.take (String.utf8EncodeChar c).length) htake
          rwa [List.take_take, List.take_take, Nat.min_eq_left (by omega), Utf8.encode_cons,
            List.append_assoc, List.take_left] at hfirst
        have hwhole := List.take_append_drop (String.utf8EncodeChar c).length
          (Utf8.encode ds ++ 0 :: rest')
        rw [← hprefix] at hwhole
        cases ds with
        | nil =>
          rw [hchar] at hwhole hnul
          exact hnul ((List.cons.inj hwhole).1 ▸ List.mem_cons_self)
        | cons d ds' =>
          rw [Utf8.encode_cons, List.append_assoc] at hwhole
          exact hsame ⟨ds', by rw [char_eq_of_begins hwhole]⟩
      refine skipTails_eq_zero fun i hi hle => ?_
      rw [Utf8.encode_cons, List.append_assoc, List.getD_append _ _ _ _ (by omega), hchar]
      rw [hchar, List.length_cons] at hshort
      obtain ⟨k, rfl⟩ : ∃ k, i = k + 1 := ⟨i - 1, by omega⟩
      rw [List.getD_cons_succ, List.getD_eq_getElem _ _ (by omega)]
      exact htails _ (List.getElem_mem _)

end EqualPart

end Klish
