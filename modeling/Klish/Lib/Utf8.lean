import Mathlib.Data.List.Basic

/-!
# UTF-8 by its bytes

The encoding of a character is one byte that says how many there are, and tails. A tail is known by
its two upper bits, so the characters of a text can be found from any byte of it.
-/

namespace Klish.Utf8

/-- What holds of the bytes up to 255 holds of all bytes. -/
theorem forall_byte {p : UInt8 → Bool}
    (h : (List.range 256).all (fun n => p (UInt8.ofNat n)) = true) (b : UInt8) : p b = true := by
  have hmem : b.toNat ∈ List.range 256 := List.mem_range.mpr b.toNat_lt
  have hb := List.all_eq_true.mp h b.toNat hmem
  rwa [UInt8.ofNat_toNat] at hb

/-- A byte after the first one of a character. -/
def isTail (b : UInt8) : Bool := b &&& 0xC0 = 0x80

/-- The number of bytes of a character that begins with the byte. A tail begins none. -/
def size (b : UInt8) : ℕ :=
  if b &&& 0x80 = 0 then 1
  else if b &&& 0xE0 = 0xC0 then 2
  else if b &&& 0xF0 = 0xE0 then 3
  else if b &&& 0xF8 = 0xF0 then 4
  else 0

/-- The bytes of a text. -/
def encode (cs : List Char) : List UInt8 := cs.flatMap String.utf8EncodeChar

/-- The bytes are those of some text. -/
def Valid (bytes : List UInt8) : Prop := ∃ cs, encode cs = bytes

/-- The text that has the bytes, or nothing. -/
def decode (bytes : List UInt8) : List Char :=
  (bytes.toByteArray.utf8Decode?.map Array.toList).getD []

@[simp] theorem decode_encode (cs : List Char) : decode (encode cs) = cs := by
  have h : (encode cs).toByteArray.utf8Decode? = some cs.toArray := List.utf8Decode?_utf8Encode
  rw [decode, h]
  rfl

@[simp] theorem encode_nil : encode [] = [] := rfl

@[simp] theorem encode_cons (c : Char) (cs : List Char) :
    encode (c :: cs) = String.utf8EncodeChar c ++ encode cs := rfl

@[simp] theorem encode_append (cs ds : List Char) : encode (cs ++ ds) = encode cs ++ encode ds :=
  List.flatMap_append

@[simp] theorem valid_encode (cs : List Char) : Valid (encode cs) := ⟨cs, rfl⟩

theorem isTail_of_size {b : UInt8} (h : size b ≠ 0) : isTail b = false := by
  have hb := forall_byte (p := fun b => size b = 0 || !isTail b) (by decide +kernel) b
  simpa [h] using hb

theorem size_of_isTail {b : UInt8} (h : isTail b = true) : size b = 0 := by
  have hb := forall_byte (p := fun b => size b = 0 || !isTail b) (by decide +kernel) b
  simpa [h] using hb

theorem isTail_tail {m : ℕ} (h : m < 0x40) : isTail (UInt8.ofNat (m + 0x80)) = true := by
  have hall : (List.range 0x40).all (fun m => isTail (UInt8.ofNat (m + 0x80))) = true := by
    decide +kernel
  exact List.all_eq_true.mp hall m (List.mem_range.mpr h)

theorem size_lead {n : ℕ} (base k : ℕ) {m : ℕ} (h : m < n)
    (hall : (List.range n).all (fun m => size (UInt8.ofNat (m + base)) = k) = true) :
    size (UInt8.ofNat (m + base)) = k :=
  of_decide_eq_true (List.all_eq_true.mp hall m (List.mem_range.mpr h))

/-- The first byte of a character says how many tails there are. -/
theorem utf8EncodeChar_shape (c : Char) : ∃ lead tails,
    String.utf8EncodeChar c = lead :: tails ∧ size lead = tails.length + 1 ∧
      ∀ b ∈ tails, isTail b = true := by
  have htail : ∀ v : ℕ, isTail (UInt8.ofNat (v % 0x40 + 0x80)) = true :=
    fun v => isTail_tail (Nat.mod_lt _ (by decide))
  unfold String.utf8EncodeChar
  dsimp only
  split
  · rename_i hsmall
    refine ⟨_, [], rfl, ?_, fun _ h => absurd h List.not_mem_nil⟩
    exact size_lead 0 1 (Nat.lt_succ_of_le hsmall) (by decide +kernel)
  · split
    · refine ⟨_, _, rfl, ?_, List.forall_mem_singleton.mpr (htail _)⟩
      exact size_lead 0xC0 2 (Nat.mod_lt _ (by decide)) (by decide +kernel)
    · split
      · refine ⟨_, _, rfl, ?_, List.forall_mem_cons.mpr ⟨htail _,
          List.forall_mem_singleton.mpr (htail _)⟩⟩
        exact size_lead 0xE0 3 (Nat.mod_lt _ (by decide)) (by decide +kernel)
      · refine ⟨_, _, rfl, ?_, List.forall_mem_cons.mpr ⟨htail _, List.forall_mem_cons.mpr
          ⟨htail _, List.forall_mem_singleton.mpr (htail _)⟩⟩⟩
        exact size_lead 0xF0 4 (Nat.mod_lt _ (by decide)) (by decide +kernel)

theorem utf8EncodeChar_ne_nil (c : Char) : String.utf8EncodeChar c ≠ [] := by
  obtain ⟨lead, tails, heq, -⟩ := utf8EncodeChar_shape c
  rw [heq]
  exact List.cons_ne_nil _ _

/-- The number of bytes that the first bytes of a text announce. -/
def announced : List UInt8 → ℕ
  | [] => 0
  | b :: bytes => size b + announced bytes

theorem announced_tails {tails : List UInt8} (h : ∀ b ∈ tails, isTail b = true) :
    announced tails = 0 := by
  induction tails with
  | nil => rfl
  | cons b tails ih =>
    have hb := size_of_isTail (h b List.mem_cons_self)
    have htails := ih fun b hb => h b (List.mem_cons_of_mem _ hb)
    rw [announced, hb, htails]

theorem announced_append (xs ys : List UInt8) :
    announced (xs ++ ys) = announced xs + announced ys := by
  induction xs with
  | nil => simp [announced]
  | cons x xs ih =>
    rw [List.cons_append, announced, announced, ih]
    omega

theorem announced_encode (cs : List Char) : announced (encode cs) = (encode cs).length := by
  induction cs with
  | nil => rfl
  | cons c cs ih =>
    obtain ⟨lead, tails, heq, hsize, htails⟩ := utf8EncodeChar_shape c
    have hzero := announced_tails htails
    have hcons : announced (lead :: tails) = size lead + announced tails := by simp [announced]
    rw [encode_cons, announced_append, ih, heq, hcons, hzero, hsize, List.length_append,
      List.length_cons]

/-- No text ends with more tails than were announced. -/
theorem not_valid_concat_tail {bytes : List UInt8} {b : UInt8} (h : Valid bytes)
    (hb : isTail b = true) : ¬Valid (bytes ++ [b]) := by
  rintro ⟨ds, hds⟩
  obtain ⟨cs, rfl⟩ := h
  have hlong := announced_encode ds
  have htail := announced_tails (List.forall_mem_singleton.mpr hb)
  rw [hds, announced_append, announced_encode, htail, List.length_append] at hlong
  simp at hlong

/-- A character of one byte is that byte. -/
theorem toNat_of_singleton {c : Char} {b : UInt8} (h : String.utf8EncodeChar c = [b]) :
    c.val.toNat ≤ 0x7f ∧ UInt8.ofNat c.val.toNat = b := by
  unfold String.utf8EncodeChar at h
  dsimp only at h
  split at h
  · rename_i hsmall
    exact ⟨hsmall, (List.cons.inj h).1⟩
  · split at h
    · simp at h
    · split at h <;> simp at h

/-- Only the character NUL has a zero byte. -/
theorem zero_mem_utf8EncodeChar {c : Char} (h : 0 ∈ String.utf8EncodeChar c) : c = '\x00' := by
  obtain ⟨lead, tails, heq, hsize, htails⟩ := utf8EncodeChar_shape c
  rw [heq] at h
  rcases List.mem_cons.mp h with hlead | htail
  · have hone : size (0 : UInt8) = 1 := by decide
    rw [← hlead, hone] at hsize
    have hnil : tails = [] := List.eq_nil_of_length_eq_zero (by omega)
    rw [hnil, ← hlead] at heq
    obtain ⟨hsmall, hbyte⟩ := toNat_of_singleton heq
    have htoNat := congrArg UInt8.toNat hbyte
    rw [UInt8.toNat_ofNat'] at htoNat
    have hzero : c.val.toNat = 0 := by
      have hmod : c.val.toNat % 256 = 0 := htoNat
      omega
    exact Char.ext (UInt32.toNat.inj hzero)
  · have htrue := htails 0 htail
    exact absurd htrue (by decide)

theorem zero_notMem_encode {cs : List Char} (h : '\x00' ∉ cs) : 0 ∉ encode cs := by
  intro hmem
  obtain ⟨c, hc, hzero⟩ := List.mem_flatMap.mp hmem
  exact h (zero_mem_utf8EncodeChar hzero ▸ hc)

end Klish.Utf8
