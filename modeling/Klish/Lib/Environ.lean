import Mathlib.Data.List.Basic

/-!
# The environment of a process

Variables are set one after another, and the last value of a variable is the one that counts. A
variable may be one of many whose names differ in their numbers.
-/

namespace Klish

/-- What can be the name of a variable. -/
def IsVariable (name : String) : Prop := name ≠ "" ∧ '=' ∉ name.toList

instance (name : String) : Decidable (IsVariable name) := inferInstanceAs (Decidable (_ ∧ _))

structure Environ where
  getenv : String → Option String
  getenv_eq_none : ∀ name, ¬IsVariable name → getenv name = none

namespace Environ

def empty : Environ := ⟨fun _ => none, fun _ _ => rfl⟩

/-- It fails for what cannot be a name. -/
def setenv (env : Environ) (name value : String) : Environ :=
  if h : IsVariable name then
    { getenv := fun other => if other = name then some value else env.getenv other
      getenv_eq_none := by
        intro other hother
        have hne : other ≠ name := by
          rintro rfl
          exact hother h
        rw [if_neg hne]
        exact env.getenv_eq_none other hother }
  else env

/-- The variables are set in the order of the list. -/
def setAll (env : Environ) (sets : List (String × String)) : Environ :=
  sets.foldl (fun env set => env.setenv set.1 set.2) env

variable {env : Environ} {name other value : String} {sets : List (String × String)}

theorem getenv_setenv_self (h : IsVariable name) :
    (env.setenv name value).getenv name = some value := by
  unfold setenv
  rw [dif_pos h]
  exact if_pos rfl

theorem getenv_setenv_of_ne (h : other ≠ name) :
    (env.setenv name value).getenv other = env.getenv other := by
  unfold setenv
  split
  · exact if_neg h
  · rfl

@[simp] theorem setAll_nil : env.setAll [] = env := rfl

@[simp] theorem setAll_cons : env.setAll ((name, value) :: sets) =
    (env.setenv name value).setAll sets := rfl

theorem setAll_append (sets' : List (String × String)) :
    env.setAll (sets ++ sets') = (env.setAll sets).setAll sets' := List.foldl_append

/-- A variable keeps its value unless it is set. -/
theorem getenv_setAll_of_notMem (h : ∀ value, (other, value) ∉ sets) :
    (env.setAll sets).getenv other = env.getenv other := by
  induction sets generalizing env with
  | nil => rfl
  | cons set sets ih =>
    have hne : other ≠ set.1 := by
      rintro rfl
      exact h set.2 List.mem_cons_self
    have hrest : ∀ value, (other, value) ∉ sets := fun value hmem =>
      h value (List.mem_cons_of_mem _ hmem)
    rw [setAll_cons, ih hrest, getenv_setenv_of_ne hne]

/-- A variable that is set has one of the values that it is set to. -/
theorem getenv_setAll_of_mem (env : Environ) (hname : IsVariable name)
    (h : (name, value) ∈ sets) :
    ∃ last, (name, last) ∈ sets ∧ (env.setAll sets).getenv name = some last := by
  induction sets generalizing env value with
  | nil => cases h
  | cons set sets ih =>
    by_cases hlater : ∃ later, (name, later) ∈ sets
    · obtain ⟨later, hmem⟩ := hlater
      obtain ⟨last, hlast, hget⟩ := ih (env.setenv set.1 set.2) hmem
      exact ⟨last, List.mem_cons_of_mem _ hlast, hget⟩
    · rcases List.mem_cons.mp h with rfl | hmem
      · refine ⟨value, List.mem_cons_self, ?_⟩
        rw [setAll_cons, getenv_setAll_of_notMem fun later hmem => hlater ⟨later, hmem⟩,
          getenv_setenv_self hname]
      · exact absurd ⟨value, hmem⟩ hlater

end Environ

/-- A name with a number. -/
def numbered (name : String) (num : ℕ) : String := name ++ "_" ++ toString num

/-- The name and the number are found at the last underscore. -/
theorem numbered_inj {name name' : String} {num num' : ℕ} :
    numbered name num = numbered name' num' ↔ name = name' ∧ num = num' := by
  constructor
  · intro h
    have hdigits : ∀ n : ℕ, (toString n).toList = Nat.toDigits 10 n := fun n => Nat.toList_repr
    have hchars := congrArg String.toList h
    simp only [numbered, String.toList_append, hdigits, List.append_assoc] at hchars
    have hbar : "_".toList = ['_'] := rfl
    rw [hbar, List.singleton_append, List.singleton_append] at hchars
    have hsplit : name.toList = name'.toList ∧ Nat.toDigits 10 num = Nat.toDigits 10 num' := by
      rcases List.append_eq_append_iff.mp hchars with ⟨mid, hname, hrest⟩ | ⟨mid, hname, hrest⟩
      · cases mid with
        | nil => exact ⟨by simpa using hname.symm, (List.cons.inj hrest).2⟩
        | cons c mid =>
          -- The number would have an underscore in it.
          have hmem : '_' ∈ Nat.toDigits 10 num := by
            rw [(List.cons.inj hrest).2]
            simp
          exact absurd hmem Nat.underscore_not_in_toDigits
      · cases mid with
        | nil => exact ⟨by simpa using hname, (List.cons.inj hrest).2.symm⟩
        | cons c mid =>
          have hmem : '_' ∈ Nat.toDigits 10 num' := by
            rw [(List.cons.inj hrest).2]
            simp
          exact absurd hmem Nat.underscore_not_in_toDigits
    refine ⟨String.toList_inj.mp hsplit.1, ?_⟩
    have hnumber := congrArg (fun digits => Nat.ofDigitChars 10 digits 0) hsplit.2
    simpa only [Nat.ofDigitChars_ten_toDigits] using hnumber
  · rintro ⟨rfl, rfl⟩
    rfl

/-- The numbers do not bring a `=` into a name. -/
theorem isVariable_numbered {name : String} (num : ℕ) :
    IsVariable (numbered name num) ↔ '=' ∉ name.toList := by
  have hdigits : '=' ∉ (toString num).toList := by
    intro hmem
    have hdigit := Nat.isDigit_of_mem_toDigits (by decide) (by decide)
      (show '=' ∈ Nat.toDigits 10 num from Nat.toList_repr ▸ hmem)
    exact absurd hdigit (by decide)
  have hchars : (numbered name num).toList = name.toList ++ '_' :: (toString num).toList := by
    unfold numbered
    rw [String.toList_append, String.toList_append, List.append_assoc]
    rfl
  have hne : numbered name num ≠ "" := by
    intro hempty
    rw [hempty] at hchars
    simp at hchars
  unfold IsVariable
  rw [hchars, List.mem_append, List.mem_cons, not_or, not_or]
  exact ⟨fun h => h.2.1, fun h => ⟨hne, h, by decide, hdigits⟩⟩

end Klish
