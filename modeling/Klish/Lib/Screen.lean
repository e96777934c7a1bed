import Mathlib.Data.List.Basic
import Mathlib.Data.List.GetD
import Mathlib.Data.Int.Notation

/-!
# A screen of cells with a cursor

The cells of a screen are numbered row by row. A character that is put into the last column leaves
the cursor there, and the next one goes to the next row.
-/

namespace Klish

structure Screen (α : Type*) where
  cells : ℕ → α
  row : ℕ
  col : ℕ
  /-- The next character goes to the next row. -/
  wrap : Bool

/-- What a terminal is told. -/
inductive ScreenCommand (α : Type*) where
  | print (text : List α)
  | cursorForward (n : ℕ)
  | cursorBack (n : ℕ)
  | cursorUp (n : ℕ)
  | cursorDown (n : ℕ)
  | nextLine
  | eraseDown
  deriving DecidableEq, Repr

namespace Screen

variable {α : Type*} (blank : α) (width : ℕ) (screen : Screen α)

/-- The number of the cell under the cursor. -/
def index : ℕ := screen.row * width + screen.col

/-- The cursor is in the first column of the next row. -/
def nextRow : Screen α := { screen with row := screen.row + 1, col := 0, wrap := false }

def put (x : α) : Screen α :=
  let screen := if screen.wrap then screen.nextRow else screen
  { screen with
    cells := fun i => if i = screen.index width then x else screen.cells i
    col := if screen.col + 1 < width then screen.col + 1 else screen.col
    wrap := decide (width ≤ screen.col + 1) }

def exec : ScreenCommand α → Screen α
  | .print text => text.foldl (put width) screen
  | .cursorForward n => { screen with col := min (screen.col + n) (width - 1), wrap := false }
  | .cursorBack n => { screen with col := screen.col - n, wrap := false }
  | .cursorUp n => { screen with row := screen.row - n, wrap := false }
  | .cursorDown n => { screen with row := screen.row + n, wrap := false }
  | .nextLine => screen.nextRow
  | .eraseDown =>
    { screen with cells := fun i => if screen.index width ≤ i then blank else screen.cells i }

def execAll (commands : List (ScreenCommand α)) : Screen α :=
  commands.foldl (exec blank width) screen

/-- The cursor stands on the cell. -/
structure At (i : ℕ) : Prop where
  col : screen.col < width
  index : screen.index width = i
  wrap : screen.wrap = false

/-- The next character goes to the cell. -/
def Next (i : ℕ) : Prop :=
  screen.At width i ∨
    (screen.wrap = true ∧ screen.col + 1 = width ∧ screen.index width + 1 = i)

variable {blank width screen}

theorem At.next {i : ℕ} (h : screen.At width i) : screen.Next width i := .inl h

theorem At.eq_div {i : ℕ} (h : screen.At width i) :
    screen.row = i / width ∧ screen.col = i % width := by
  have hindex := h.index
  unfold Screen.index at hindex
  have hpos : 0 < width := Nat.lt_of_le_of_lt (Nat.zero_le _) h.col
  constructor
  · rw [← hindex, Nat.mul_comm, Nat.mul_add_div hpos, Nat.div_eq_of_lt h.col, Nat.add_zero]
  · rw [← hindex, Nat.mul_comm, Nat.mul_add_mod, Nat.mod_eq_of_lt h.col]

theorem at_of_div {i : ℕ} (hpos : 0 < width) (hrow : screen.row = i / width)
    (hcol : screen.col = i % width) (hwrap : screen.wrap = false) : screen.At width i := by
  refine ⟨hcol ▸ Nat.mod_lt _ hpos, ?_, hwrap⟩
  unfold Screen.index
  rw [hrow, hcol, Nat.mul_comm]
  exact Nat.div_add_mod _ _

/-- After the last column there is the first one of the next row. -/
theorem Next.nextRow {i : ℕ} (h : screen.Next width i) (hwrap : screen.wrap = true) :
    screen.nextRow.At width i := by
  rcases h with hat | ⟨-, hcol, hindex⟩
  · exact absurd (hat.wrap.symm.trans hwrap) Bool.false_ne_true
  · unfold Screen.index at hindex
    refine ⟨by simp [Screen.nextRow]; omega, ?_, rfl⟩
    simp only [Screen.nextRow, Screen.index, Nat.add_mul]
    omega

theorem succ_mod_eq_zero (hpos : 0 < width) (i : ℕ) :
    (i + 1) % width = 0 ↔ width ≤ i % width + 1 := by
  have hlt := Nat.mod_lt i hpos
  have hsplit : (i + 1) % width = (i % width + 1) % width := by
    rw [← Nat.mul_add_mod width (i / width) (i % width + 1), ← Nat.add_assoc, Nat.div_add_mod]
  rw [hsplit]
  by_cases hlast : i % width + 1 = width
  · rw [hlast, Nat.mod_self]
    simp
  · rw [Nat.mod_eq_of_lt (by omega)]
    omega

/-- A character goes to the next cell, and the cursor to the one after it. -/
theorem put_spec {i : ℕ} (h : screen.Next width i) (x : α) :
    (∀ j, (put width screen x).cells j = if j = i then x else screen.cells j) ∧
      (put width screen x).Next width (i + 1) ∧
      ((put width screen x).wrap = true ↔ (i + 1) % width = 0) := by
  obtain ⟨screen', hput, hcells, hat⟩ : ∃ screen' : Screen α,
      put width screen x = put width screen' x ∧ screen'.cells = screen.cells ∧
        screen'.At width i := by
    cases hwrap : screen.wrap with
    | true =>
      refine ⟨screen.nextRow, ?_, rfl, h.nextRow hwrap⟩
      simp [put, hwrap, Screen.nextRow]
    | false =>
      refine ⟨screen, rfl, rfl, h.resolve_right fun hnext => ?_⟩
      exact Bool.false_ne_true (hwrap.symm.trans hnext.1)
  have hindex := hat.index
  have hcol := hat.col
  rw [hput, ← hcells]
  unfold put
  rw [hat.wrap]
  refine ⟨fun j => by simp [hindex], ?_, ?_⟩
  · unfold Screen.index at hindex
    by_cases hlast : screen'.col + 1 < width
    · left
      refine ⟨by simp [hlast], ?_, by simp; omega⟩
      simp only [Screen.index, Bool.false_eq_true, if_false, if_pos hlast]
      omega
    · right
      simp only [Screen.index, Bool.false_eq_true, if_false, if_neg hlast, decide_eq_true_eq]
      omega
  · simp only [Bool.false_eq_true, if_false, decide_eq_true_eq]
    rw [hat.eq_div.2]
    exact (succ_mod_eq_zero (Nat.lt_of_le_of_lt (Nat.zero_le _) hcol) i).symm

theorem exec_print_cons (x : α) (text : List α) : exec blank width screen (.print (x :: text)) =
    exec blank width (put width screen x) (.print text) := rfl

/-- Characters go to the next cells. -/
theorem print_spec {i : ℕ} (h : screen.Next width i) (text : List α) :
    (∀ j, (exec blank width screen (.print text)).cells j =
      if i ≤ j then text.getD (j - i) (screen.cells j) else screen.cells j) ∧
      (exec blank width screen (.print text)).Next width (i + text.length) ∧
      (text ≠ [] → ((exec blank width screen (.print text)).wrap = true ↔
        (i + text.length) % width = 0)) := by
  induction text generalizing screen i with
  | nil =>
    have hnil : exec blank width screen (.print []) = screen := rfl
    rw [hnil]
    exact ⟨fun j => by simp, h, fun hne => absurd rfl hne⟩
  | cons x text ih =>
    obtain ⟨hcells, hnext, hwrap⟩ := put_spec h x
    obtain ⟨hcells', hnext', hwrap'⟩ := ih hnext
    have hlen : i + (x :: text).length = i + 1 + text.length := by
      rw [List.length_cons]
      omega
    rw [exec_print_cons, hlen]
    refine ⟨fun j => ?_, hnext', fun _ => ?_⟩
    · rw [hcells' j, hcells j]
      rcases Nat.lt_trichotomy j i with hlt | rfl | hgt
      · rw [if_neg (by omega), if_neg (by omega), if_neg (by omega)]
      · rw [if_neg (by omega), if_pos rfl, if_pos (Nat.le_refl _), Nat.sub_self]
        rfl
      · obtain ⟨k, rfl⟩ : ∃ k, j = i + 1 + k := ⟨j - (i + 1), by omega⟩
        have hsub : i + 1 + k - i = k + 1 := by omega
        rw [if_pos (by omega), if_neg (by omega), if_pos (by omega), hsub,
          Nat.add_sub_cancel_left, List.getD_cons_succ]
    · by_cases hnil : text = []
      · rw [hnil]
        exact hwrap
      · exact hwrap' hnil

/-- All cells from the cursor on are erased. -/
theorem eraseDown_cells (j : ℕ) : (exec blank width screen .eraseDown).cells j =
    if screen.index width ≤ j then blank else screen.cells j := rfl

theorem eraseDown_at {i : ℕ} (h : screen.At width i) :
    (exec blank width screen .eraseDown).At width i := ⟨h.col, h.index, h.wrap⟩

@[simp] theorem execAll_nil : execAll blank width screen [] = screen := rfl

@[simp] theorem execAll_cons (command : ScreenCommand α) (commands : List (ScreenCommand α)) :
    execAll blank width screen (command :: commands) =
      execAll blank width (exec blank width screen command) commands := rfl

theorem execAll_append (first last : List (ScreenCommand α)) :
    execAll blank width screen (first ++ last) =
      execAll blank width (execAll blank width screen first) last :=
  List.foldl_append

end Screen

end Klish
