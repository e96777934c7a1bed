import Klish.Kpargv

/-!
# The session path

The levels of the path, the base level first. The path knows that its length fits the
`size_t` its list counts nodes with.
-/

namespace Klish

@[ext] structure Kpath where
  levels : List EntryId
  length_le : levels.length ≤ sizeMax

namespace Kpath

def len (path : Kpath) : ℕ := path.levels.length

/-- `kpath_push`. There is no room for more than `SIZE_MAX` nodes. -/
def push (path : Kpath) (e : EntryId) : Option Kpath :=
  if h : path.levels.length < sizeMax then
    some ⟨path.levels ++ [e], by simp only [List.length_append, List.length_singleton]; omega⟩
  else none

/-- `kpath_pop` -/
def pop (path : Kpath) : Option Kpath :=
  if path.levels.isEmpty then none
  else some ⟨path.levels.dropLast, by have := path.length_le; simp only [List.length_dropLast]; omega⟩

/-- The levels up to a given number of them. -/
def take (path : Kpath) (n : ℕ) : Kpath :=
  ⟨path.levels.take n, by have := path.length_le; simp only [List.length_take]; omega⟩

@[simp] theorem take_levels (path : Kpath) (n : ℕ) : (path.take n).levels = path.levels.take n := rfl

theorem take_of_len_le {path : Kpath} {n : ℕ} (h : path.len ≤ n) : path.take n = path :=
  Kpath.ext (List.take_of_length_le h)

theorem pop_eq_some {path path' : Kpath} :
    path.pop = some path' ↔ path.levels ≠ [] ∧ path' = path.take (path.len - 1) := by
  unfold pop
  split <;> rename_i h
  · simp_all
  · simp only [Option.some.injEq]
    constructor
    · rintro rfl
      exact ⟨by simpa using h, Kpath.ext (by simp [len, List.dropLast_eq_take])⟩
    · rintro ⟨-, rfl⟩
      exact Kpath.ext (by simp [len, List.dropLast_eq_take])

theorem push_eq_some {path path' : Kpath} {e : EntryId} :
    path.push e = some path' ↔ path.len < sizeMax ∧ path'.levels = path.levels ++ [e] := by
  unfold push len
  split <;> rename_i h
  · simp only [Option.some.injEq, h, true_and]
    constructor
    · rintro rfl; rfl
    · intro h'
      exact Kpath.ext h'.symm
  · simp [h]

end Kpath

/-- `ksession_t`, without the data of the peer. -/
structure Ksession where
  path : Kpath
  done : Bool
  isattyStdin : Bool
  isattyStdout : Bool
  isattyStderr : Bool
  termWidth : ℕ
  termHeight : ℕ

end Klish
