import Klish.Lib.Runs
import Mathlib.Data.Multiset.Count
import Mathlib.Algebra.Order.Group.Multiset
import Mathlib.Tactic.Common

/-!
# Counted handles

An object can be opened several times. It stays until it has been closed as often, and only until
then it can be used. A list of events goes from some handles to others whatever else is held.
-/

namespace Klish

inductive HandleEvent (α : Type*) where
  | opened (a : α)
  | closed (a : α)
  | used (a : α)
  deriving DecidableEq, Repr

namespace Handles

variable {α : Type*} [DecidableEq α] {refs refs' : α → ℕ} {es es' : List (HandleEvent α)}
  {m m' m'' : Multiset α} {a : α}

/-- A handle that nobody holds can be neither closed nor used. -/
def step (refs : α → ℕ) : HandleEvent α → Option (α → ℕ)
  | .opened a => some (Function.update refs a (refs a + 1))
  | .closed a => if refs a = 0 then none else some (Function.update refs a (refs a - 1))
  | .used a => if refs a = 0 then none else some refs

/-- What is held with the handles. -/
def hold (refs : α → ℕ) (m : Multiset α) : α → ℕ := fun a => refs a + m.count a

theorem hold_zero (refs : α → ℕ) : hold refs 0 = refs := by
  funext a
  simp [hold]

theorem hold_add (refs : α → ℕ) (m m' : Multiset α) : hold refs (m + m') = hold (hold refs m) m' := by
  funext a
  simp [hold, Nat.add_assoc]

/-- The events go from some handles to others. -/
def Moves (es : List (HandleEvent α)) (m m' : Multiset α) : Prop :=
  ∀ refs, Runs.run step (hold refs m) es = some (hold refs m')

theorem Moves.nil (m : Multiset α) : Moves [] m m := fun _ => rfl

theorem Moves.append (h : Moves es m m') (h' : Moves es' m' m'') : Moves (es ++ es') m m'' :=
  fun refs => Runs.run_append.mpr ⟨_, h refs, h' refs⟩

/-- Handles that the events are not about stay as they are. -/
theorem Moves.frame (h : Moves es m m') (k : Multiset α) : Moves es (k + m) (k + m') := by
  intro refs
  rw [hold_add, hold_add]
  exact h (hold refs k)

theorem Moves.frame_right (h : Moves es m m') (k : Multiset α) : Moves es (m + k) (m' + k) := by
  rw [add_comm m, add_comm m']
  exact h.frame k

/-- Events about different handles, one after the other. -/
theorem Moves.both {k k' : Multiset α} (h : Moves es m k) (h' : Moves es' m' k') :
    Moves (es ++ es') (m + m') (k + k') :=
  (h.frame_right m').append (h'.frame k)

theorem moves_opened (a : α) : Moves [.opened a] 0 {a} := by
  intro refs
  rw [hold_zero]
  apply congrArg some
  funext b
  by_cases hb : b = a
  · subst hb
    simp [hold]
  · simp [hold, hb]

theorem moves_closed (a : α) : Moves [.closed a] {a} 0 := by
  intro refs
  have hstep : step (hold refs {a}) (.closed a) = some refs := by
    rw [step, if_neg (by simp [hold])]
    apply congrArg some
    funext b
    by_cases hb : b = a
    · subst hb
      simp [hold]
    · simp [hold, hb]
  rw [hold_zero]
  exact Runs.run_cons.mpr ⟨refs, hstep, rfl⟩

theorem moves_used (a : α) : Moves [.used a] {a} {a} := by
  intro refs
  refine Runs.run_cons.mpr ⟨_, ?_, rfl⟩
  rw [step, if_neg (by simp [hold])]

theorem Moves.run (h : Moves es 0 0) (refs : α → ℕ) : Runs.run step refs es = some refs := by
  have hrun := h refs
  rwa [hold_zero] at hrun

/-- Uses of what is held change nothing. -/
theorem moves_uses {as : List α} (h : ∀ a ∈ as, a ∈ m) : Moves (as.map .used) m m := by
  induction as with
  | nil => exact .nil m
  | cons a as ih =>
    obtain ⟨ha, has⟩ := List.forall_mem_cons.mp h
    have hone := (moves_used a).frame_right (m.erase a)
    rw [Multiset.singleton_add, Multiset.cons_erase ha] at hone
    exact hone.append (ih has)

/-- What has been opened more often than closed is held at the end. -/
theorem run_count (h : Runs.run step refs es = some refs') (a : α) :
    refs' a + es.count (.closed a) = refs a + es.count (.opened a) := by
  induction es generalizing refs with
  | nil =>
    cases h
    rfl
  | cons e es ih =>
    obtain ⟨next, hstep, h⟩ := Runs.run_cons.mp h
    have hrest := ih h
    cases e with
    | opened b =>
      cases hstep
      by_cases hb : b = a
      · subst hb
        simp at hrest ⊢
        omega
      · simp [hb, Ne.symm hb] at hrest ⊢
        exact hrest
    | closed b =>
      rw [step] at hstep
      split at hstep
      · cases hstep
      · rename_i hne
        cases hstep
        by_cases hb : b = a
        · subst hb
          simp at hrest ⊢
          omega
        · simp [hb, Ne.symm hb] at hrest ⊢
          exact hrest
    | used b =>
      rw [step] at hstep
      split at hstep
      · cases hstep
      · cases hstep
        simpa using hrest

end Handles

end Klish
