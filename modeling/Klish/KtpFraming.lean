import Mathlib.Algebra.Ring.Nat
import Klish.Ktp
import Klish.Lib.Framing

/-!
# The frames of KTP

The read callbacks of the server and of the client are the same: a header is checked, and then as
many bytes are read as it says.
-/

namespace Klish

/-- The messages of libfaux, and what KTP relies on. A header has 24 bytes. -/
structure FauxMsg (μ : Type) where
  magic : Bytes → UInt32
  major : Bytes → UInt8
  minor : Bytes → UInt8
  /-- The field with the length of the whole message. -/
  len : Bytes → UInt32
  serialize : μ → Bytes
  /-- `faux_msg_deserialize_parts` -/
  deserializeParts : Bytes → Bytes → Option μ
  length_serialize : ∀ m, 24 ≤ (serialize m).length
  len_serialize : ∀ m, (len ((serialize m).take 24)).toNat = (serialize m).length
  deserialize_serialize : ∀ m,
    deserializeParts ((serialize m).take 24) ((serialize m).drop 24) = some m

/-- What the read callback uses of a session. Both read limits are the same number. -/
structure KtpReader (σ : Type) where
  session : σ
  hdr : Option Bytes
  limit : ℕ

/-- `ktpd_session_new` and `ktp_session_new` -/
def KtpReader.start {σ : Type} (session : σ) : KtpReader σ := ⟨session, none, 24⟩

namespace FauxMsg

variable {μ σ : Type} (faux : FauxMsg μ)

/-- `faux_hdr_len`, which gives an int. -/
def hdrLen (hdr : Bytes) : ℤ := (faux.len hdr).toBitVec.toInt

/-- `ktp_check_header` -/
def ktpCheckHeader (hdr : Bytes) : Bool :=
  if faux.magic hdr ≠ 0x4b545020 then false
  else if faux.major hdr ≠ 1 then false
  else if faux.minor hdr ≠ 0 then false
  else if faux.hdrLen hdr < 24 then false
  else true

/-- `msg_wo_hdr`. The length becomes a `size_t`, and so is the difference. -/
def msgWoHdr (hdr : Bytes) : ℕ := ((faux.len hdr).toBitVec.signExtend 64 - 24#64).toNat

/-- A read callback with the function that messages are dispatched to. The second value is what it
returns. -/
def readCb (dispatch : σ → Option μ → σ) (ktp : KtpReader σ) (data : Bytes) : KtpReader σ × Bool :=
  match ktp.hdr with
  | none =>
    if faux.ktpCheckHeader data then
      if faux.msgWoHdr data > 0 then
        ({ ktp with hdr := some data, limit := faux.msgWoHdr data }, true)
      -- The body has zero length.
      else (.start (dispatch ktp.session (faux.deserializeParts data [])), true)
    else (ktp, false)
  | some hdr => (.start (dispatch ktp.session (faux.deserializeParts hdr data)), true)

/-- `ktpd_session_read_cb` -/
def ktpdSessionReadCb (ktpdSessionDispatch : σ → Option μ → σ) :
    KtpReader σ → Bytes → KtpReader σ × Bool := faux.readCb ktpdSessionDispatch

/-- `ktp_session_read_cb` -/
def ktpSessionReadCb (ktpSessionDispatch : σ → Option μ → σ) :
    KtpReader σ → Bytes → KtpReader σ × Bool := faux.readCb ktpSessionDispatch

/-- The callback gets the bytes of the wire, each time as many as the limits say. There is no result
if it fails. -/
def receive (cb : KtpReader σ → Bytes → KtpReader σ × Bool) :
    ℕ → KtpReader σ → Bytes → Option (KtpReader σ × Bytes)
  | 0, ktp, bytes => some (ktp, bytes)
  | turns + 1, ktp, bytes =>
    if bytes.length < ktp.limit then some (ktp, bytes)
    else
      match cb ktp (bytes.take ktp.limit) with
      | (ktp', true) => receive cb turns ktp' (bytes.drop ktp.limit)
      | (_, false) => none

/-- A header that is none of KTP, or whose length is less than its own as an int. -/
def Broken (hdr : Bytes) : Prop :=
  faux.magic hdr ≠ 0x4b545020 ∨ faux.major hdr ≠ 1 ∨ faux.minor hdr ≠ 0 ∨ faux.hdrLen hdr < 24

def ValidHeader (m : μ) : Prop := ¬faux.Broken ((faux.serialize m).take 24)

/-- A read callback takes the messages of the wire, and no broken header. -/
structure Frames (dispatch : σ → Option μ → σ) (cb : KtpReader σ → Bytes → KtpReader σ × Bool) :
    Prop where
  messages : ∀ msgs : List μ, (∀ m ∈ msgs, faux.ValidHeader m) → ∀ session turns,
    (msgs.flatMap faux.serialize).length ≤ turns →
    receive cb turns (.start session) (msgs.flatMap faux.serialize) =
      some (.start (msgs.foldl (fun session m => dispatch session (some m)) session), [])
  broken : ∀ session limit hdr, faux.Broken hdr →
    cb ⟨session, none, limit⟩ hdr = (⟨session, none, limit⟩, false)
  huge : ∀ hdr, 2 ^ 31 ≤ (faux.len hdr).toNat → faux.Broken hdr
  noUnderflow : ∀ hdr, ¬faux.Broken hdr → faux.msgWoHdr hdr + 24 = (faux.len hdr).toNat

section Header

variable {hdr : Bytes}

theorem ktpCheckHeader_iff : faux.ktpCheckHeader hdr = true ↔ ¬faux.Broken hdr := by
  unfold ktpCheckHeader Broken
  by_cases hmagic : faux.magic hdr = 0x4b545020
  · by_cases hmajor : faux.major hdr = 1
    · by_cases hminor : faux.minor hdr = 0
      · simp [hmagic, hmajor, hminor]
      · simp [hmagic, hmajor, hminor]
    · simp [hmagic, hmajor]
  · simp [hmagic]

/-- The length is a signed number. -/
theorem hdrLen_lt_iff : faux.hdrLen hdr < 24 ↔
    (faux.len hdr).toNat < 24 ∨ 2 ^ 31 ≤ (faux.len hdr).toNat := by
  unfold hdrLen
  rw [BitVec.toInt_eq_toNat_cond, UInt32.toNat_toBitVec]
  have hlt := (faux.len hdr).toNat_lt
  split <;> omega

theorem huge_broken (h : 2 ^ 31 ≤ (faux.len hdr).toNat) : faux.Broken hdr :=
  .inr (.inr (.inr (faux.hdrLen_lt_iff.mpr (.inr h))))

theorem msgWoHdr_eq (h : ¬faux.Broken hdr) :
    faux.msgWoHdr hdr + 24 = (faux.len hdr).toNat := by
  have hlen : ¬faux.hdrLen hdr < 24 := fun hshort => h (.inr (.inr (.inr hshort)))
  rw [hdrLen_lt_iff, not_or, Nat.not_lt, Nat.not_le] at hlen
  have hsign : ((faux.len hdr).toBitVec.signExtend 64).toNat = (faux.len hdr).toNat := by
    have hmsb : (faux.len hdr).toBitVec.msb = false := by
      rw [BitVec.msb_eq_false_iff_two_mul_lt, UInt32.toNat_toBitVec]
      omega
    rw [BitVec.toNat_signExtend, hmsb]
    simp
  unfold msgWoHdr
  rw [BitVec.toNat_sub, hsign]
  have hconst : (24#64).toNat = 24 := rfl
  rw [hconst]
  omega

end Header

/-- The messages in the terms of the library. There is no message for a broken body. -/
def framing : Framing UInt8 (Option μ) where
  hdrLen := 24
  wholeLen hdr := if faux.ktpCheckHeader hdr then some (faux.len hdr).toNat else none
  encode m := (m.map faux.serialize).getD []
  decode := faux.deserializeParts
  Fits m := ∃ msg, m = some msg ∧ faux.ValidHeader msg
  hdrLen_pos := Nat.zero_lt_succ 23
  hdrLen_le := by
    rintro _ ⟨msg, rfl, -⟩
    exact faux.length_serialize msg
  wholeLen_encode := by
    rintro _ ⟨msg, rfl, hvalid⟩
    simp only [Option.map_some, Option.getD_some, faux.ktpCheckHeader_iff.mpr hvalid, if_true,
      faux.len_serialize msg]
  decode_encode := by
    rintro _ ⟨msg, rfl, -⟩
    exact faux.deserialize_serialize msg

variable {faux} {dispatch : σ → Option μ → σ}

/-- One call of the callback is one of the library's reader. -/
theorem readCb_framing (session : σ) (r : Reader UInt8) :
    faux.readCb dispatch ⟨session, r.hdr, faux.framing.limit r⟩
        (r.buf.take (faux.framing.limit r)) =
      match faux.framing.readCb r with
      | none => (⟨session, r.hdr, faux.framing.limit r⟩, false)
      | some (r', out) =>
        (⟨out.toList.foldl dispatch session, r'.hdr, faux.framing.limit r'⟩, true) := by
  obtain ⟨_ | hdr, buf⟩ := r
  · have hlimit : faux.framing.limit ⟨none, buf⟩ = 24 := rfl
    unfold readCb Framing.readCb
    rw [hlimit]
    dsimp only
    by_cases hchecked : faux.ktpCheckHeader (buf.take 24) = true
    · have hwhole : faux.framing.wholeLen (buf.take 24) =
          some (faux.len (buf.take 24)).toNat := if_pos hchecked
      have hbody := faux.msgWoHdr_eq (faux.ktpCheckHeader_iff.mp hchecked)
      have hhdrLen : faux.framing.hdrLen = 24 := rfl
      rw [if_pos hchecked, hwhole, Option.map_some, hhdrLen]
      dsimp only
      by_cases hmore : faux.msgWoHdr (buf.take 24) > 0
      · rw [if_pos hmore, if_pos (by omega)]
        dsimp only [Option.toList, List.foldl_nil, Framing.limit]
        rw [hwhole, Option.getD_some, hhdrLen, ← hbody, Nat.add_sub_cancel]
      · rw [if_neg hmore, if_neg (by omega)]
        rfl
    · have hwhole : faux.framing.wholeLen (buf.take 24) = none := if_neg hchecked
      rw [if_neg hchecked, hwhole]
      rfl
  · rfl

variable (dispatch) in
/-- The calls of the callback are those of the library's reader. -/
theorem receive_drain (turns : ℕ) (session : σ) {r r' : Reader UInt8} {out : List (Option μ)}
    (h : faux.framing.drain turns r = some (r', out)) :
    receive (faux.readCb dispatch) turns ⟨session, r.hdr, faux.framing.limit r⟩ r.buf =
      some (⟨out.foldl dispatch session, r'.hdr, faux.framing.limit r'⟩, r'.buf) := by
  induction turns generalizing r session out with
  | zero =>
    obtain ⟨rfl, rfl⟩ := Prod.mk.inj (Option.some.inj h)
    rfl
  | succ turns ih =>
    rw [Framing.drain] at h
    rw [receive]
    dsimp only
    by_cases hshort : r.buf.length < faux.framing.limit r
    · rw [if_pos hshort] at h
      rw [if_pos hshort]
      obtain ⟨rfl, rfl⟩ := Prod.mk.inj (Option.some.inj h)
      rfl
    · rw [if_neg hshort] at h
      rw [if_neg hshort, readCb_framing]
      obtain ⟨⟨mid, first⟩, hcb, hrest⟩ := Option.bind_eq_some_iff.mp h
      obtain ⟨⟨last, later⟩, hdrain, hend⟩ := Option.map_eq_some_iff.mp hrest
      obtain ⟨rfl, rfl⟩ := Prod.mk.inj hend
      have hbuf : mid.buf = r.buf.drop (faux.framing.limit r) := by
        unfold Framing.readCb at hcb
        cases hhdr : r.hdr with
        | none =>
          rw [hhdr] at hcb
          obtain ⟨len, -, hlen⟩ := Option.map_eq_some_iff.mp hcb
          split at hlen
          · rw [← (Prod.mk.inj hlen).1]
          · rw [← (Prod.mk.inj hlen).1]
        | some hdr =>
          rw [hhdr] at hcb
          rw [← (Prod.mk.inj (Option.some.inj hcb)).1]
      rw [hcb]
      dsimp only
      rw [← hbuf, ih _ hdrain, List.foldl_append]

variable (faux dispatch) in
theorem readCb_frames : faux.Frames dispatch (faux.readCb dispatch) where
  messages := by
    intro msgs hvalid session turns hturns
    have hstream : faux.framing.stream (msgs.map some) = msgs.flatMap faux.serialize := by
      rw [Framing.stream, List.flatMap_map]
      rfl
    have hawaits : faux.framing.Awaits ⟨none, msgs.flatMap faux.serialize⟩ [] (msgs.map some) := by
      refine ⟨by simpa using hstream.symm, fun _ hhdr => (by cases hhdr), fun m hm => ?_⟩
      obtain ⟨msg, hmsg, rfl⟩ := List.mem_map.mp hm
      exact ⟨msg, rfl, hvalid msg hmsg⟩
    obtain ⟨r, out, left, hdrain, hsplit, hawaits', hidle⟩ :=
      Framing.drain_spec turns hawaits hturns
    -- Nothing is left: less than a message was, and a message has all its bytes.
    have hnone : left = [] := by
      cases left with
      | nil => rfl
      | cons m left =>
        have hless := hawaits'.incomplete hidle (m := m) rfl
        have hbytes := congrArg List.length hawaits'.stream
        rw [List.append_nil, Framing.stream_cons, @List.length_append _ (faux.framing.encode m)]
          at hbytes
        omega
    subst hnone
    rw [List.append_nil] at hsplit
    have hempty := hawaits'.stream
    rw [List.append_nil, Framing.stream_nil, List.append_eq_nil_iff] at hempty
    have hhdr : r.hdr = none := by
      cases hr : r.hdr with
      | none => rfl
      | some hdr =>
        obtain ⟨m, msgs', hcons, -⟩ := hawaits'.hdr hdr hr
        cases hcons
    have hreceive := receive_drain dispatch turns session hdrain
    rw [hhdr, hempty.2, ← hsplit, List.foldl_map] at hreceive
    have hlimit : faux.framing.limit r = 24 := by
      unfold Framing.limit
      rw [hhdr]
      rfl
    rw [hlimit] at hreceive
    exact hreceive
  broken := by
    intro session limit hdr hbroken
    have hchecked : ¬faux.ktpCheckHeader hdr = true := fun h =>
      faux.ktpCheckHeader_iff.mp h hbroken
    unfold readCb
    dsimp only
    rw [if_neg hchecked]
  huge := fun _ h => faux.huge_broken h
  noUnderflow := fun _ h => faux.msgWoHdr_eq h

/-- Both sides take the frames. -/
theorem ktpReadCbs_frames {ρ : Type} (faux : FauxMsg μ) (ktpdSessionDispatch : σ → Option μ → σ)
    (ktpSessionDispatch : ρ → Option μ → ρ) :
    faux.Frames ktpdSessionDispatch (faux.ktpdSessionReadCb ktpdSessionDispatch) ∧
      faux.Frames ktpSessionDispatch (faux.ktpSessionReadCb ktpSessionDispatch) :=
  ⟨readCb_frames faux ktpdSessionDispatch, readCb_frames faux ktpSessionDispatch⟩

/-- A number of the header, with its high byte first. -/
def sampleNumber (hdr : Bytes) (i : ℕ) : UInt32 :=
  UInt32.ofNat ((((hdr.getD i 0).toNat * 256 + (hdr.getD (i + 1) 0).toNat) * 256 +
    (hdr.getD (i + 2) 0).toNat) * 256 + (hdr.getD (i + 3) 0).toNat)

def sampleHdr (len : ℕ) : Bytes :=
  [0x4b, 0x54, 0x50, 0x20, 1, 0, 0, 0, 0, 0, 0, 0, 0, 0, 0, 0, 0, 0, 0, 0,
    UInt8.ofNat (len / 2 ^ 24), UInt8.ofNat (len / 2 ^ 16), UInt8.ofNat (len / 2 ^ 8),
    UInt8.ofNat len]

theorem sampleNumber_hdr {len : ℕ} (h : len < 2 ^ 32) :
    (sampleNumber (sampleHdr len) 20).toNat = len := by
  have hbytes : sampleNumber (sampleHdr len) 20 =
      UInt32.ofNat ((((UInt8.ofNat (len / 2 ^ 24)).toNat * 256 +
        (UInt8.ofNat (len / 2 ^ 16)).toNat) * 256 + (UInt8.ofNat (len / 2 ^ 8)).toNat) * 256 +
        (UInt8.ofNat len).toNat) := rfl
  rw [hbytes, UInt32.toNat_ofNat']
  simp only [UInt8.toNat_ofNat']
  omega

/-- Messages that have bodies only. -/
def sampleFaux : FauxMsg { body : Bytes // body.length + 24 < 2 ^ 32 } where
  magic hdr := sampleNumber hdr 0
  major hdr := hdr.getD 4 0
  minor hdr := hdr.getD 5 0
  len hdr := sampleNumber hdr 20
  serialize m := sampleHdr (m.val.length + 24) ++ m.val
  deserializeParts _ body := if h : body.length + 24 < 2 ^ 32 then some ⟨body, h⟩ else none
  length_serialize m := by
    rw [List.length_append]
    exact Nat.le_add_right 24 _
  len_serialize m := by
    have hhdr : (sampleHdr (m.val.length + 24) ++ m.val).take 24 = sampleHdr (m.val.length + 24) :=
      rfl
    rw [hhdr, sampleNumber_hdr m.property, List.length_append]
    exact Nat.add_comm _ 24
  deserialize_serialize m := dif_pos m.property

/-- The second of the messages has no body. -/
theorem ktpReadCbs_frames_sample :
    receive (sampleFaux.ktpdSessionReadCb fun session msg => session ++ [msg]) 51 (.start [])
      (sampleHdr 27 ++ [1, 2, 3] ++ sampleHdr 24) =
      some (.start [some ⟨[1, 2, 3], by decide⟩, some ⟨[], by decide⟩], []) :=
  (ktpReadCbs_frames sampleFaux (fun session msg => session ++ [msg])
    fun session msg => session ++ [msg]).1.messages [⟨[1, 2, 3], by decide⟩, ⟨[], by decide⟩]
    (by
      rintro m (_ | ⟨_, _ | ⟨_, ⟨⟩⟩⟩)
      all_goals exact sampleFaux.ktpCheckHeader_iff.mp (by decide))
    [] 51 (by decide)

end FauxMsg

end Klish
