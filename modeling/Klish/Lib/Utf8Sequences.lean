import Klish.Lib.Utf8

/-!
# Sequences of UTF-8

The first form of UTF-8 has sequences of up to six bytes. A text is cut into sequences by the number
of tails that a first byte announces, or by looking for the next byte that is no tail.
-/

namespace Klish.Utf8

/-- The number of tails that a first byte announces, and the bits that it has of the code. -/
def lead (b : UInt8) : Option (ℕ × UInt8) :=
  if b &&& 0x80 = 0 then some (0, b)
  else if b &&& 0xE0 = 0xC0 then some (1, b &&& 0x1F)
  else if b &&& 0xF0 = 0xE0 then some (2, b &&& 0xF)
  else if b &&& 0xF8 = 0xF0 then some (3, b &&& 7)
  else if b &&& 0xFC = 0xF8 then some (4, b &&& 3)
  else if b &&& 0xFE = 0xFC then some (5, b &&& 1)
  else none

/-- The code of a sequence has six bits of each tail. -/
def code (bits : UInt8) (tails : List UInt8) : ℕ :=
  tails.foldl (fun sym b => sym <<< 6 ||| (b &&& 0x3F).toNat) bits.toNat

/-- The code of a sequence. -/
def sequenceCode : List UInt8 → ℕ
  | [] => 0
  | b :: tails => ((lead b).map fun first => code first.2 tails).getD 0

/-- A first byte with the tails that it announces. No sequence has a NUL. -/
def IsSequence (seq : List UInt8) : Prop :=
  ∃ b tails bits, seq = b :: tails ∧ b ≠ 0 ∧ lead b = some (tails.length, bits) ∧
    ∀ c ∈ tails, isTail c = true

theorem isTail_of_lead {b : UInt8} {first : ℕ × UInt8} (h : lead b = some first) :
    isTail b = false := by
  have hb := forall_byte (p := fun b => (lead b).isNone || !isTail b) (by decide +kernel) b
  simpa [h] using hb

theorem not_isTail_zero : isTail 0 = false := by decide

theorem ne_zero_of_isTail {b : UInt8} (h : isTail b = true) : b ≠ 0 := by
  rintro rfl
  exact Bool.false_ne_true (not_isTail_zero.symm.trans h)

variable {seq : List UInt8} {seqs : List (List UInt8)}

theorem IsSequence.ne_nil (h : IsSequence seq) : seq ≠ [] := by
  obtain ⟨b, tails, -, rfl, -⟩ := h
  exact List.cons_ne_nil _ _

/-- What comes after a sequence does not begin with a tail. -/
theorem isTail_flatten (h : ∀ seq ∈ seqs, IsSequence seq) {rest : List UInt8} :
    isTail ((seqs.flatten ++ 0 :: rest).headD 0) = false := by
  cases seqs with
  | nil => exact not_isTail_zero
  | cons seq seqs =>
    obtain ⟨b, tails, bits, rfl, -, hlead, -⟩ := h seq List.mem_cons_self
    exact isTail_of_lead hlead

/-- The encoding of a character is a sequence. -/
theorem isSequence_char {c : Char} (hc : 0 ∉ String.utf8EncodeChar c) :
    IsSequence (String.utf8EncodeChar c) := by
  obtain ⟨b, tails, heq, hsize, htails⟩ := utf8EncodeChar_shape c
  rw [heq] at hc ⊢
  have hlead := forall_byte
    (p := fun b => size b = 0 || (lead b).map (fun first => first.1 + 1) = some (size b))
    (by decide +kernel) b
  rw [Bool.or_eq_true, decide_eq_true_eq, decide_eq_true_eq] at hlead
  obtain ⟨⟨n, bits⟩, hfirst, hn⟩ := Option.map_eq_some_iff.mp (hlead.resolve_left (by omega))
  dsimp only at hn
  have hlen : n = tails.length := by omega
  exact ⟨b, tails, bits, rfl, fun hzero => hc (hzero ▸ List.mem_cons_self), hlen ▸ hfirst, htails⟩

end Klish.Utf8
