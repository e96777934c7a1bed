import Klish.Lib.CommonPrefix
import Klish.RedisplayUtf8
import Klish.TinyrlText

/-!
# The common part of the completions

The answer to a completion has the suffixes of the word. The editor gets the only one, or what all
of them begin with.
-/

namespace Klish.Tinyrl

/-- The loop of `completion_ack_cb` over the other completions. It ends when there is no equal part
any more. -/
def eqPart (utf8 : Bool) (str : Bytes) : List Bytes → ℕ → ℕ
  | [], eq => eq
  | compl :: rest, eq =>
    if eq > 0 then
      let curEq := tinyrlEqualPart utf8 (str ++ [0]) (compl ++ [0])
      eqPart utf8 str rest (if curEq < eq then curEq else eq)
    else eq

section Definitions

variable (junk : ℕ → UInt8) (t : Tinyrl) (msg : KtpMsg)

/-- The completions of an answer. The copy of one ends at a NUL. -/
def completions : List Bytes :=
  msg.params.filterMap fun param =>
    if param.1 = .line then some (param.2.takeWhile (· ≠ 0)) else none

/-- `completion_ack_cb`, what it does with the line. The second value tells that the completions
are displayed. -/
def completionAckCb : Option (Tinyrl × Bool) :=
  match completions msg with
  | [] => some (t, false)
  | [compl] => do
    let line ← t.line.insert junk compl
    let line ← line.insert junk [32]
    some ({ t with line }, false)
  | str :: rest =>
    let eq := eqPart t.utf8 str rest str.length
    if eq > 0 then (t.line.insert junk (str.take eq)).map fun line => ({ t with line }, false)
    else some (t, true)

end Definitions

variable {junk : ℕ → UInt8} {t : Tinyrl} {msg : KtpMsg} {suffix common before after : List Char}
  {suffixes done : List (List Char)}

theorem encode_eq_nil {cs : List Char} (h : Utf8.encode cs = []) : cs = [] := by
  cases cs with
  | nil => rfl
  | cons c cs =>
    rw [Utf8.encode_cons] at h
    exact absurd (List.append_eq_nil_iff.mp h).1 (Utf8.utf8EncodeChar_ne_nil c)

/-- Of two texts that begin a third one, the one with fewer bytes begins the other. -/
theorem prefix_of_encode_lt {cs ds : List Char} (h : cs <+: suffix) (h' : ds <+: suffix)
    (hlt : (Utf8.encode cs).length < (Utf8.encode ds).length) : cs <+: ds := by
  rcases List.prefix_or_prefix_of_prefix h h' with hle | ⟨more, rfl⟩
  · exact hle
  · rw [Utf8.encode_append, List.length_append] at hlt
    omega

/-- The loop keeps the longest common prefix of what it has seen. -/
theorem eqPart_spec (hsuffix : '\x00' ∉ suffix) (h : IsCommonPrefix common done)
    (hmem : suffix ∈ done) : ∃ common', IsCommonPrefix common' (done ++ suffixes) ∧
      eqPart true (Utf8.encode suffix) (suffixes.map Utf8.encode) (Utf8.encode common).length =
        (Utf8.encode common').length := by
  induction suffixes generalizing done common with
  | nil =>
    rw [List.append_nil]
    exact ⟨common, h, rfl⟩
  | cons compl suffixes ih =>
    have hbegins := h.prefix_of_mem hmem
    rw [List.map_cons, eqPart]
    split
    · obtain ⟨same, rest, rest', hsplit, hsplit', hdiffer, hequal⟩ :=
        @tinyrlEqualPart_text suffix compl hsuffix [] []
      have hsame : IsCommonPrefix same [suffix, compl] := by
        rw [hsplit, hsplit']
        exact IsCommonPrefix.of_differ hdiffer
      have hbegins' := hsame.prefix_of_mem List.mem_cons_self
      have hassoc : done ++ compl :: suffixes = done ++ [compl] ++ suffixes := by simp
      dsimp only
      rw [hequal, hassoc]
      split
      · rename_i hlt
        have hshort := prefix_of_encode_lt hbegins' hbegins hlt
        exact ih (h.concat hsame hmem (.inl ⟨rfl, hshort⟩)) (List.mem_append_left _ hmem)
      · rename_i hle
        refine ih (h.concat hsame hmem (.inr ⟨rfl, ?_⟩)) (List.mem_append_left _ hmem)
        rcases List.prefix_or_prefix_of_prefix hbegins hbegins' with hshort | ⟨more, rfl⟩
        · exact hshort
        · -- They have as many bytes, so they are the same text.
          rw [Utf8.encode_append, List.length_append] at hle
          have hnil : more = [] := encode_eq_nil (List.eq_nil_of_length_eq_zero (by omega))
          rw [hnil]
          simp
    · rename_i hzero
      have hnil : common = [] := encode_eq_nil (List.eq_nil_of_length_eq_zero (by omega))
      refine ⟨common, fun text => ⟨fun htext => ?_, fun htext => ?_⟩, rfl⟩
      · rw [hnil, List.prefix_nil] at htext
        rw [htext]
        exact fun l _ => List.nil_prefix
      · exact (h text).mpr fun l hl => htext l (List.mem_append_left _ hl)

/-- Two or more completions: what all of them begin with is put before the cursor, and they are
displayed if that is nothing. -/
theorem completionAckCb_common (hutf8 : t.utf8 = true)
    (hholds : t.line.Holds (Utf8.encode before) (Utf8.encode after))
    (hmsg : completions msg = suffixes.map Utf8.encode) (htwo : 2 ≤ suffixes.length) :
    ∃ common line, IsCommonPrefix common suffixes ∧
      completionAckCb junk t msg = some ({ t with line }, decide (common = [])) ∧
      line.Holds (Utf8.encode (before ++ common)) (Utf8.encode after) := by
  obtain ⟨first, second, rest, rfl⟩ : ∃ first second rest, suffixes = first :: second :: rest := by
    match suffixes, htwo with
    | first :: second :: rest, _ => exact ⟨first, second, rest, rfl⟩
  have hnoNul : 0 ∉ Utf8.encode first := by
    have hmem : Utf8.encode first ∈ completions msg := by
      rw [hmsg]
      exact List.mem_cons_self
    obtain ⟨param, -, hparam⟩ := List.mem_filterMap.mp hmem
    split at hparam
    · rw [← Option.some.inj hparam]
      intro hzero
      have hall := List.all_eq_true.mp List.all_takeWhile 0 hzero
      simp at hall
    · cases hparam
  have hnul : '\x00' ∉ first := by
    intro hzero
    exact hnoNul (List.mem_flatMap.mpr ⟨_, hzero, by decide⟩)
  obtain ⟨common, hcommon, hpart⟩ :=
    @eqPart_spec first first (second :: rest) [first] hnul (IsCommonPrefix.singleton first)
      List.mem_cons_self
  rw [List.singleton_append] at hcommon
  obtain ⟨tail, htail⟩ := hcommon.prefix_of_mem List.mem_cons_self
  have htake : (Utf8.encode first).take (Utf8.encode common).length = Utf8.encode common := by
    rw [← htail, Utf8.encode_append, List.take_left]
  have hcommonNul : 0 ∉ Utf8.encode common := fun hzero =>
    hnoNul (List.mem_of_mem_take (htake.symm ▸ hzero))
  unfold completionAckCb
  rw [hmsg, List.map_cons, List.map_cons]
  rw [List.map_cons, ← hutf8] at hpart
  dsimp only
  rw [hpart, htake]
  split
  · rename_i hpos
    obtain ⟨line', hline, hholds'⟩ := hholds.insert junk hcommonNul
    have hne : common ≠ [] := by
      rintro rfl
      exact absurd hpos (by simp)
    rw [hline]
    refine ⟨common, line', hcommon, by simp [hne], ?_⟩
    rw [Utf8.encode_append]
    exact hholds'
  · have hnil : common = [] := encode_eq_nil (List.eq_nil_of_length_eq_zero (by omega))
    refine ⟨common, t.line, hcommon, by simp [hnil], ?_⟩
    rw [hnil, List.append_nil]
    exact hholds

/-- Three completions of a word. -/
def sampleAnswer : KtpMsg :=
  ⟨.completionAck, {}, [(.prefx, [97]), (.line, Utf8.encode ['é', 'a', 'b']),
    (.line, Utf8.encode ['é', 'a']), (.line, Utf8.encode ['é', 'a', 'c'])]⟩

theorem completionAckCb_common_three : ∃ common line,
    IsCommonPrefix common [['é', 'a', 'b'], ['é', 'a'], ['é', 'a', 'c']] ∧
      completionAckCb (fun _ => 0) (new (Hist.histNew none 100)) sampleAnswer =
        some ({ new (Hist.histNew none 100) with line }, decide (common = [])) ∧
      line.Holds (Utf8.encode ([] ++ common)) (Utf8.encode []) :=
  completionAckCb_common rfl Line.new_holds (by decide +kernel) (by decide)

end Klish.Tinyrl
