import Mathlib.Data.List.Basic

/-!
# Messages with a header in a stream of bytes

A message is a header of a fixed length, which tells the length of the whole message, and a body.
A reader gets the stream in pieces of any size, and completes one message after another.
-/

namespace Klish

structure Framing (β μ : Type) where
  hdrLen : ℕ
  /-- The length of the whole message, if the header is not broken. -/
  wholeLen : List β → Option ℕ
  encode : μ → List β
  /-- The message with a header and a body. -/
  decode : List β → List β → μ
  /-- The message is one that can be sent. Its length has to fit into the header. -/
  Fits : μ → Prop
  hdrLen_pos : 0 < hdrLen
  hdrLen_le : ∀ m, Fits m → hdrLen ≤ (encode m).length
  wholeLen_encode : ∀ m, Fits m → wholeLen ((encode m).take hdrLen) = some (encode m).length
  decode_encode : ∀ m, Fits m → decode ((encode m).take hdrLen) ((encode m).drop hdrLen) = m

/-- The header whose body has not arrived yet, and the bytes that wait. -/
structure Reader (β : Type) where
  hdr : Option (List β)
  buf : List β

namespace Framing

variable {β μ : Type} (F : Framing β μ)

/-- The bytes of messages that are sent one after another. -/
def stream (msgs : List μ) : List β := msgs.flatMap F.encode

/-- The number of bytes that the next call of the callback gets. -/
def limit (r : Reader β) : ℕ :=
  match r.hdr with
  | none => F.hdrLen
  | some hdr => (F.wholeLen hdr).getD 0 - F.hdrLen

/-- The callback of the reader. It fails on a broken header. -/
def readCb (r : Reader β) : Option (Reader β × Option μ) :=
  let data := r.buf.take (F.limit r)
  let buf := r.buf.drop (F.limit r)
  match r.hdr with
  | none => (F.wholeLen data).map fun len =>
    if F.hdrLen < len then (⟨some data, buf⟩, none)
    -- The body has no bytes.
    else (⟨none, buf⟩, some (F.decode data []))
  | some hdr => some (⟨none, buf⟩, some (F.decode hdr data))

/-- The callback is called as long as there are bytes for it. -/
def drain : ℕ → Reader β → Option (Reader β × List μ)
  | 0, r => some (r, [])
  | n + 1, r =>
    if r.buf.length < F.limit r then some (r, [])
    else (F.readCb r).bind fun s => (drain n s.1).map fun t => (t.1, s.2.toList ++ t.2)

/-- The messages that are completed by some more bytes. -/
def feed (r : Reader β) (bytes : List β) : Option (Reader β × List μ) :=
  F.drain (r.buf ++ bytes).length ⟨r.hdr, r.buf ++ bytes⟩

/-- What the reader holds and the bytes that come are the messages. -/
structure Awaits (r : Reader β) (rest : List β) (msgs : List μ) : Prop where
  stream : r.hdr.getD [] ++ (r.buf ++ rest) = F.stream msgs
  hdr : ∀ hdr, r.hdr = some hdr → ∃ m msgs', msgs = m :: msgs' ∧
    hdr = (F.encode m).take F.hdrLen ∧ F.hdrLen < (F.encode m).length
  fits : ∀ m ∈ msgs, F.Fits m

variable {F} {r r' : Reader β} {rest : List β} {msgs msgs' : List μ}

@[simp] theorem stream_nil : F.stream [] = [] := rfl

@[simp] theorem stream_cons (m : μ) : F.stream (m :: msgs) = F.encode m ++ F.stream msgs := rfl

@[simp] theorem stream_append : F.stream (msgs ++ msgs') = F.stream msgs ++ F.stream msgs' :=
  List.flatMap_append

theorem Awaits.new (F : Framing β μ) : F.Awaits ⟨none, []⟩ [] [] :=
  ⟨rfl, by simp, by simp⟩

/-- More messages are sent. -/
theorem Awaits.append (h : F.Awaits r rest msgs) {out : List μ} (hout : ∀ m ∈ out, F.Fits m) :
    F.Awaits r (rest ++ F.stream out) (msgs ++ out) where
  stream := by
    rw [stream_append, ← h.stream]
    simp
  hdr hdr hhdr := by
    obtain ⟨m, msgs', rfl, heq, hlt⟩ := h.hdr hdr hhdr
    exact ⟨m, msgs' ++ out, rfl, heq, hlt⟩
  fits m hm := (List.mem_append.mp hm).elim (h.fits m) (hout m)

theorem limit_pos (h : F.Awaits r rest msgs) : 0 < F.limit r := by
  unfold limit
  cases hr : r.hdr with
  | none => exact F.hdrLen_pos
  | some hdr =>
    obtain ⟨m, msgs', rfl, rfl, hlt⟩ := h.hdr hdr hr
    dsimp only
    rw [F.wholeLen_encode m (h.fits m List.mem_cons_self)]
    exact Nat.sub_pos_of_lt hlt

/-- The bytes of a message that are not in the header. -/
theorem limit_some {m : μ} (hm : F.Fits m) (hr : r.hdr = some ((F.encode m).take F.hdrLen)) :
    F.limit r = ((F.encode m).drop F.hdrLen).length := by
  unfold limit
  rw [hr]
  dsimp only
  rw [F.wholeLen_encode m hm, List.length_drop]
  rfl

/-- There is a message as long as there are bytes. -/
theorem exists_cons {bytes : List β} (h : bytes = F.stream msgs) (hne : 0 < bytes.length) :
    ∃ m msgs', msgs = m :: msgs' := by
  cases msgs with
  | nil =>
    subst h
    exact absurd hne (Nat.lt_irrefl 0)
  | cons m msgs' => exact ⟨m, msgs', rfl⟩

/-- The first bytes of a list whose beginning is known. -/
theorem take_of_append {a b c d : List β} (h : a ++ b = c ++ d) (hlen : c.length ≤ a.length) :
    a.take c.length = c ∧ a.drop c.length ++ b = d := by
  have htake := congrArg (List.take c.length) h
  have hdrop := congrArg (List.drop c.length) h
  rw [List.take_append_of_le_length hlen, List.take_left] at htake
  rw [List.drop_append_of_le_length hlen, List.drop_left] at hdrop
  exact ⟨htake, hdrop⟩

/-- One call of the callback, which gets a header or a body. -/
theorem readCb_spec (h : F.Awaits r rest msgs) (hlen : F.limit r ≤ r.buf.length) :
    ∃ r' out msgs', F.readCb r = some (r', out) ∧ msgs = out.toList ++ msgs' ∧
      F.Awaits r' rest msgs' ∧ r'.buf.length < r.buf.length := by
  have hpos := limit_pos h
  have hdrop : (r.buf.drop (F.limit r)).length < r.buf.length := by
    rw [List.length_drop]
    omega
  cases hr : r.hdr with
  | none =>
    have hlimit : F.limit r = F.hdrLen := by rw [limit, hr]
    have hstream : r.buf ++ rest = F.stream msgs := by simpa [hr] using h.stream
    obtain ⟨m, msgs', rfl⟩ := exists_cons hstream (by simp; omega)
    have hm : F.Fits m := h.fits m List.mem_cons_self
    rw [stream_cons, ← List.take_append_drop F.hdrLen (F.encode m), List.append_assoc] at hstream
    have hhdr : ((F.encode m).take F.hdrLen).length = F.hdrLen := by
      rw [List.length_take]
      exact Nat.min_eq_left (F.hdrLen_le m hm)
    obtain ⟨htake, hrest⟩ := take_of_append hstream (by omega)
    rw [hhdr, ← hlimit] at htake hrest
    have hcb : F.readCb r = some (if F.hdrLen < (F.encode m).length then
        (⟨some (r.buf.take (F.limit r)), r.buf.drop (F.limit r)⟩, none)
        else (⟨none, r.buf.drop (F.limit r)⟩, some (F.decode (r.buf.take (F.limit r)) []))) := by
      unfold readCb
      rw [hr]
      dsimp only
      rw [htake, hlimit, F.wholeLen_encode m hm]
      rfl
    rw [hcb, htake, hlimit]
    rw [hlimit] at hrest hdrop
    by_cases hlt : F.hdrLen < (F.encode m).length
    · rw [if_pos hlt]
      refine ⟨_, none, m :: msgs', rfl, rfl, ⟨?_, ?_, h.fits⟩, hdrop⟩
      · dsimp only
        rw [hrest, Option.getD_some, ← List.append_assoc, List.take_append_drop, stream_cons]
      · rintro hdr ⟨⟩
        exact ⟨m, msgs', rfl, rfl, hlt⟩
    · rw [if_neg hlt]
      have hbody : (F.encode m).drop F.hdrLen = [] := List.drop_eq_nil_of_le (by omega)
      have hdecode := F.decode_encode m hm
      rw [hbody] at hrest hdecode
      refine ⟨_, some m, msgs', by rw [hdecode], rfl, ⟨by simpa using hrest, fun _ h => ?_,
        fun m hm => h.fits m (List.mem_cons_of_mem _ hm)⟩, hdrop⟩
      cases h
  | some hdr =>
    obtain ⟨m, msgs', rfl, rfl, hlt⟩ := h.hdr hdr hr
    have hm : F.Fits m := h.fits m List.mem_cons_self
    have hlimit := limit_some hm hr
    have hstream : r.buf ++ rest = (F.encode m).drop F.hdrLen ++ F.stream msgs' := by
      have hstream := h.stream
      rw [hr, Option.getD_some, stream_cons] at hstream
      nth_rewrite 2 [← List.take_append_drop F.hdrLen (F.encode m)] at hstream
      rw [List.append_assoc] at hstream
      exact List.append_cancel_left hstream
    obtain ⟨htake, hrest⟩ := take_of_append hstream (by omega)
    rw [← hlimit] at htake hrest
    refine ⟨⟨none, r.buf.drop (F.limit r)⟩, some m, msgs', ?_, rfl, ⟨by simpa using hrest, ?_,
      fun m hm => h.fits m (List.mem_cons_of_mem _ hm)⟩, hdrop⟩
    · unfold readCb
      rw [hr]
      dsimp only
      rw [htake, F.decode_encode m hm]
    · intro _ h
      cases h

/-- The reader gives the first of the messages, and what is left is less than a message. -/
theorem drain_spec (n : ℕ) (h : F.Awaits r rest msgs) (hn : r.buf.length ≤ n) :
    ∃ r' out msgs', F.drain n r = some (r', out) ∧ msgs = out ++ msgs' ∧
      F.Awaits r' rest msgs' ∧ r'.buf.length < F.limit r' := by
  induction n generalizing r msgs with
  | zero =>
    have hpos := limit_pos h
    exact ⟨r, [], msgs, rfl, rfl, h, by omega⟩
  | succ n ih =>
    by_cases hlen : r.buf.length < F.limit r
    · refine ⟨r, [], msgs, ?_, rfl, h, hlen⟩
      rw [drain, if_pos hlen]
    · obtain ⟨mid, out, msgs', hcb, rfl, hmid, hless⟩ := readCb_spec h (by omega)
      obtain ⟨r', out', msgs'', hdrain, rfl, hr', hlast⟩ := ih hmid (by omega)
      refine ⟨r', out.toList ++ out', msgs'', ?_, ?_, hr', hlast⟩
      · rw [drain, if_neg hlen, hcb, Option.bind_some, hdrain]
        rfl
      · rw [List.append_assoc]

theorem feed_spec {bytes : List β} (h : F.Awaits r (bytes ++ rest) msgs) :
    ∃ r' out msgs', F.feed r bytes = some (r', out) ∧ msgs = out ++ msgs' ∧
      F.Awaits r' rest msgs' ∧ r'.buf.length < F.limit r' := by
  have hstart : F.Awaits ⟨r.hdr, r.buf ++ bytes⟩ rest msgs := by
    refine ⟨?_, h.hdr, h.fits⟩
    rw [← h.stream]
    simp
  exact drain_spec _ hstart (Nat.le_refl _)

/-- The bytes that the reader holds are less than the first of the messages it waits for. -/
theorem Awaits.incomplete (h : F.Awaits r rest msgs) (hlen : r.buf.length < F.limit r) {m : μ}
    (hm : msgs.head? = some m) : (r.hdr.getD [] ++ r.buf).length < (F.encode m).length := by
  have hfits : F.Fits m := h.fits m (List.mem_of_head? hm)
  cases hr : r.hdr with
  | none =>
    have hlimit : F.limit r = F.hdrLen := by rw [limit, hr]
    have hle := F.hdrLen_le m hfits
    simp
    omega
  | some hdr =>
    obtain ⟨m', msgs', rfl, rfl, hlt⟩ := h.hdr hdr hr
    obtain rfl := Option.some.inj hm
    rw [limit_some hfits hr, List.length_drop] at hlen
    rw [Option.getD_some, List.length_append, List.length_take]
    omega

/-- Messages whose bytes have all been read have been completed. -/
theorem Awaits.prefix_of_le (h : F.Awaits r rest msgs) (hlen : r.buf.length < F.limit r)
    {done p : List μ} (hp : p <+: done ++ msgs)
    (hle : (F.stream p).length ≤ (F.stream done).length + (r.hdr.getD [] ++ r.buf).length) :
    p <+: done := by
  rcases List.prefix_or_prefix_of_prefix hp (List.prefix_append done msgs) with hdone | ⟨q, rfl⟩
  · exact hdone
  · cases q with
    | nil => simp
    | cons m q =>
      obtain ⟨tail, htail⟩ := (List.prefix_append_right_inj done).mp hp
      have hless := h.incomplete hlen (m := m) (by rw [← htail]; rfl)
      rw [stream_append, stream_cons, List.length_append, List.length_append] at hle
      omega

end Framing

end Klish
