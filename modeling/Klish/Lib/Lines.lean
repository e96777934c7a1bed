import Mathlib.Data.List.Basic

/-!
# The lines of a stream, and a reader that reads ahead

A line ends at a separator, which is not a part of it. The last line need not end with one.
-/

namespace Klish

section Lines

variable {β : Type*} [DecidableEq β] (sep : β)

/-- The lines of a stream. -/
def lines : List β → List (List β)
  | [] => []
  | b :: data =>
    if b = sep then [] :: lines data
    else
      match lines data with
      | [] => [[b]]
      | line :: rest => (b :: line) :: rest

/-- The first line. -/
def firstLine (data : List β) : List β := data.takeWhile (· ≠ sep)

/-- What comes after the first line and its separator. -/
def afterLine (data : List β) : List β := data.drop ((firstLine sep data).length + 1)

@[simp] theorem lines_nil : lines sep [] = [] := rfl

@[simp] theorem firstLine_sep (data : List β) : firstLine sep (sep :: data) = [] := by
  simp [firstLine]

variable {sep} in
theorem firstLine_cons {b : β} (hb : b ≠ sep) (data : List β) :
    firstLine sep (b :: data) = b :: firstLine sep data := by
  simp [firstLine, hb]

theorem lines_eq_cons {data : List β} (h : data ≠ []) :
    lines sep data = firstLine sep data :: lines sep (afterLine sep data) := by
  induction data with
  | nil => exact absurd rfl h
  | cons b data ih =>
    by_cases hb : b = sep
    · simp [lines, afterLine, hb]
    · have hfirst := firstLine_cons hb data
      have hafter : afterLine sep (b :: data) = afterLine sep data := by simp [afterLine, hfirst]
      rw [hfirst, hafter, lines, if_neg hb]
      by_cases hdata : data = []
      · simp [hdata, firstLine, afterLine]
      · rw [ih hdata]

theorem firstLine_append {data : List β} (h : sep ∈ data) (rest : List β) :
    firstLine sep (data ++ rest) = firstLine sep data := by
  induction data with
  | nil => exact absurd h List.not_mem_nil
  | cons b data ih =>
    by_cases hb : b = sep
    · simp [hb]
    · have hmem : sep ∈ data := (List.mem_cons.mp h).resolve_left fun hsep => hb hsep.symm
      rw [List.cons_append, firstLine_cons hb, firstLine_cons hb, ih hmem]

theorem firstLine_length_lt {data : List β} (h : sep ∈ data) :
    (firstLine sep data).length < data.length := by
  induction data with
  | nil => exact absurd h List.not_mem_nil
  | cons b data ih =>
    by_cases hb : b = sep
    · simp [hb]
    · have hmem : sep ∈ data := (List.mem_cons.mp h).resolve_left fun hsep => hb hsep.symm
      have hlt := ih hmem
      rw [firstLine_cons hb, List.length_cons, List.length_cons]
      omega

theorem firstLine_eq_self {data : List β} (h : sep ∉ data) : firstLine sep data = data := by
  induction data with
  | nil => rfl
  | cons b data ih =>
    have hb : b ≠ sep := fun hsep => h (hsep ▸ List.mem_cons_self)
    rw [firstLine_cons hb, ih fun hmem => h (List.mem_cons_of_mem _ hmem)]

theorem mem_take_firstLine {data : List β} (h : sep ∈ data) {n : ℕ}
    (hn : (firstLine sep data).length < n) : sep ∈ data.take n := by
  induction data generalizing n with
  | nil => exact absurd h List.not_mem_nil
  | cons b data ih =>
    obtain ⟨n, rfl⟩ : ∃ k, n = k + 1 := ⟨n - 1, by omega⟩
    rw [List.take_succ_cons]
    by_cases hb : b = sep
    · exact List.mem_cons.mpr (.inl hb.symm)
    · have hmem : sep ∈ data := (List.mem_cons.mp h).resolve_left fun hsep => hb hsep.symm
      rw [firstLine_cons hb, List.length_cons] at hn
      exact List.mem_cons_of_mem _ (ih hmem (by omega))

theorem lines_line {line : List β} (h : sep ∉ line) (data : List β) :
    lines sep (line ++ sep :: data) = line :: lines sep data := by
  induction line with
  | nil => simp [lines]
  | cons b line ih =>
    have hb : b ≠ sep := fun hsep => h (hsep ▸ List.mem_cons_self)
    rw [List.cons_append, lines, if_neg hb, ih fun hmem => h (List.mem_cons_of_mem _ hmem)]

theorem afterLine_append {data : List β} (h : sep ∈ data) (rest : List β) :
    afterLine sep (data ++ rest) = afterLine sep data ++ rest := by
  have hlt := firstLine_length_lt sep h
  unfold afterLine
  rw [firstLine_append sep h, List.drop_append_of_le_length (by omega)]

end Lines

/-- A stream that is read line by line: what has been read, and what is still to be read. -/
structure LineReader (β : Type*) where
  buf : List β
  rest : List β

namespace LineReader

variable {β : Type*} [DecidableEq β] (sep : β) (r : LineReader β) (ahead : ℕ)

/-- All that has not been given out. -/
def all : List β := r.buf ++ r.rest

/-- The number of elements that a reader takes to have the first separator, or all of them. -/
def needed : ℕ := (firstLine sep r.rest).length + 1

/-- The stream is read until there is a separator, and somewhat more. -/
def fill : LineReader β :=
  if sep ∈ r.buf then r
  else ⟨r.buf ++ r.rest.take (r.needed sep + ahead), r.rest.drop (r.needed sep + ahead)⟩

/-- The next line is given out, or nothing at the end. -/
def getline : Option (List β) × LineReader β :=
  let r := r.fill sep ahead
  if r.buf = [] then (none, r) else (some (firstLine sep r.buf), ⟨afterLine sep r.buf, r.rest⟩)

/-- Some elements that have not been read yet are read by somebody else. -/
def skip (n : ℕ) : LineReader β := { r with rest := r.rest.drop n }

@[simp] theorem fill_all : (r.fill sep ahead).all = r.all := by
  unfold fill
  split
  · rfl
  · simp [all]

/-- After it has read, the buffer has a whole line, or there is no more to read. -/
theorem fill_spec : sep ∈ (r.fill sep ahead).buf ∨ (r.fill sep ahead).rest = [] := by
  unfold fill
  split
  · exact .inl ‹_›
  · by_cases h : sep ∈ r.rest
    · exact .inl (List.mem_append_right _ (mem_take_firstLine sep h (by unfold needed; omega)))
    · refine .inr (List.drop_eq_nil_of_le ?_)
      have hall := firstLine_eq_self sep h
      unfold needed
      rw [hall]
      omega

/-- The reader gives out the lines one after another. How far it reads ahead makes no difference. -/
theorem getline_spec :
    (r.all = [] ∧ (r.getline sep ahead).1 = none ∧ (r.getline sep ahead).2.all = []) ∨
      ∃ line r', r.getline sep ahead = (some line, r') ∧
        lines sep r.all = line :: lines sep r'.all := by
  have hall := r.fill_all sep ahead
  unfold getline
  dsimp only
  by_cases hbuf : (r.fill sep ahead).buf = []
  · left
    have hrest : (r.fill sep ahead).rest = [] := by
      refine (r.fill_spec sep ahead).resolve_left fun hmem => ?_
      rw [hbuf] at hmem
      exact List.not_mem_nil hmem
    have hnil : (r.fill sep ahead).all = [] := by
      unfold all
      rw [hbuf, hrest]
      rfl
    rw [if_pos hbuf]
    exact ⟨hall ▸ hnil, rfl, hnil⟩
  · right
    rw [if_neg hbuf]
    refine ⟨_, _, rfl, ?_⟩
    have hne : (r.fill sep ahead).all ≠ [] := fun h => hbuf (List.append_eq_nil_iff.mp h).1
    rw [← hall, lines_eq_cons sep hne]
    rcases r.fill_spec sep ahead with hmem | hrest
    · unfold all
      rw [firstLine_append sep hmem, afterLine_append sep hmem]
    · unfold all
      rw [hrest, List.append_nil, List.append_nil]

end LineReader

end Klish
