import Mathlib.Data.List.Basic

/-!
# Runs of a partial, event-driven step function

A system is given by `step : σ → α → Option σ`: the state it moves to on an event, or
`none` when the event cannot happen there. Safety results are stated over whole runs and
proved from one lemma about a single step. `Along` carries a condition that every step of
a run has to meet, for systems that keep their invariant only on such runs. `observed`
carries a history along that the system itself does not see.
-/

namespace Klish.Runs

variable {σ α : Type*} {step : σ → α → Option σ} {s t u : σ} {as bs : List α}

/-- The state reached by the events of a list, taken in order. -/
def run (step : σ → α → Option σ) : σ → List α → Option σ
  | s, [] => some s
  | s, a :: as => (step s a).bind fun t => run step t as

@[simp] theorem run_nil : run step s [] = some s := rfl

theorem run_cons {a : α} :
    run step s (a :: as) = some u ↔ ∃ t, step s a = some t ∧ run step t as = some u := by
  simp [run, Option.bind_eq_some_iff]

theorem run_append :
    run step s (as ++ bs) = some u ↔ ∃ t, run step s as = some t ∧ run step t bs = some u := by
  induction as generalizing s with
  | nil => simp
  | cons a as ih =>
    simp only [List.cons_append, run_cons, ih]
    constructor
    · rintro ⟨m, hm, t, ht, hu⟩
      exact ⟨t, ⟨m, hm, ht⟩, hu⟩
    · rintro ⟨t, ⟨m, hm, ht⟩, hu⟩
      exact ⟨m, hm, t, ht, hu⟩

/-- Every step of the run from `s` over `as` starts in a state that meets `ok`. -/
def Along (step : σ → α → Option σ) (ok : σ → α → Prop) : σ → List α → Prop
  | _, [] => True
  | s, a :: as => ok s a ∧ ∀ t, step s a = some t → Along step ok t as

variable (s as) in
/-- A system that can always step has all runs. -/
theorem exists_run (hstep : ∀ s a, ∃ t, step s a = some t) : ∃ t, run step s as = some t := by
  induction as generalizing s with
  | nil => exact ⟨s, rfl⟩
  | cons a as ih =>
    obtain ⟨m, hm⟩ := hstep s a
    obtain ⟨t, ht⟩ := ih m
    exact ⟨t, run_cons.mpr ⟨m, hm, ht⟩⟩

variable {ok : σ → α → Prop} {I : σ → Prop}

/-- What every step preserves holds at the end of every run. -/
theorem run_invariant (hstep : ∀ s a t, I s → step s a = some t → I t)
    (hs : I s) (hr : run step s as = some t) : I t := by
  induction as generalizing s with
  | nil =>
    cases hr
    exact hs
  | cons a as ih =>
    obtain ⟨m, hm, ht⟩ := run_cons.mp hr
    exact ih (hstep s a m hs hm) ht

/-- What every admissible step preserves holds at the end of every admissible run. -/
theorem run_along (hstep : ∀ s a t, I s → ok s a → step s a = some t → I t)
    (hs : I s) (hr : run step s as = some t) (ha : Along step ok s as) : I t := by
  induction as generalizing s with
  | nil =>
    cases hr
    exact hs
  | cons a as ih =>
    obtain ⟨m, hm, ht⟩ := run_cons.mp hr
    exact ih (hstep s a m hs ha.1 hm) ht (ha.2 m hm)

theorem Along.take (ha : Along step ok s as) (n : ℕ) : Along step ok s (as.take n) := by
  induction as generalizing s n with
  | nil =>
    rw [List.take_nil]
    exact ha
  | cons a as ih =>
    cases n with
    | zero => exact trivial
    | succ n => exact ⟨ha.1, fun t ht => ih (ha.2 t ht) n⟩

/-- A property that no step establishes holds before a state that has it. -/
theorem run_backward {G : σ → Prop} (hG : ∀ s a t, step s a = some t → G t → G s)
    (hr : run step s as = some t) (ht : G t) : G s := by
  induction as generalizing s with
  | nil =>
    cases hr
    exact ht
  | cons a as ih =>
    obtain ⟨m, hm, hr⟩ := run_cons.mp hr
    exact hG s a m hm (ih hr)

/-- Admissible runs are those whose states all have the property, if a step to a state that has it
is admissible and an admissible one preserves the invariant. This may depend on a property of the
last state that no step establishes. -/
theorem forall_states_iff_along_of {P G : σ → Prop}
    (hG : ∀ s a t, step s a = some t → G t → G s) (hI : ∀ s, I s → P s)
    (hstep : ∀ s a t, I s → G t → ok s a → step s a = some t → I t)
    (hok : ∀ s a t, I s → G t → step s a = some t → P t → ok s a)
    (hs : I s) (hr : run step s as = some u) (hu : G u) :
    (∀ n t, run step s (as.take n) = some t → P t) ↔ Along step ok s as := by
  induction as generalizing s with
  | nil =>
    refine ⟨fun _ => trivial, fun _ n t ht => ?_⟩
    rw [List.take_nil] at ht
    cases ht
    exact hI _ hs
  | cons a as ih =>
    obtain ⟨m, hm, hr⟩ := run_cons.mp hr
    have hmG : G m := run_backward hG hr hu
    constructor
    · intro hP
      have hfirst : ok s a := hok s a m hs hmG hm (hP 1 m (run_cons.mpr ⟨m, hm, rfl⟩))
      refine ⟨hfirst, fun t ht => ?_⟩
      obtain rfl : m = t := Option.some.inj (hm.symm.trans ht)
      exact (ih (hstep s a m hs hmG hfirst hm) hr).mp fun n t ht =>
        hP (n + 1) t (run_cons.mpr ⟨m, hm, ht⟩)
    · rintro ⟨hfirst, hrest⟩ n t ht
      cases n with
      | zero =>
        cases ht
        exact hI _ hs
      | succ n =>
        obtain ⟨m', hm', ht⟩ := run_cons.mp ht
        obtain rfl : m = m' := Option.some.inj (hm.symm.trans hm')
        exact (ih (hstep s a m hs hmG hfirst hm) hr).mpr (hrest m hm) n t ht

/-- The same without such a property. -/
theorem forall_states_iff_along {P : σ → Prop} (hI : ∀ s, I s → P s)
    (hstep : ∀ s a t, I s → ok s a → step s a = some t → I t)
    (hok : ∀ s a t, I s → step s a = some t → P t → ok s a)
    (hs : I s) (hr : run step s as = some u) :
    (∀ n t, run step s (as.take n) = some t → P t) ↔ Along step ok s as :=
  forall_states_iff_along_of (G := fun _ => True) (fun _ _ _ _ h => h) hI
    (fun s a t h _ => hstep s a t h) (fun s a t h _ => hok s a t h) hs hr trivial

/-- The system can take all steps of the run, and all states have the property. -/
def Always (step : σ → α → Option σ) (P : σ → Prop) : σ → List α → Prop
  | s, [] => P s
  | s, a :: as => P s ∧ ∃ t, step s a = some t ∧ Always step P t as

section Always

variable {P : σ → Prop}

theorem always_iff :
    Always step P s as ↔ ∀ n, ∃ t, run step s (as.take n) = some t ∧ P t := by
  induction as generalizing s with
  | nil => simp [Always]
  | cons a as ih =>
    constructor
    · rintro ⟨hs, m, hm, hrest⟩ n
      cases n with
      | zero => exact ⟨s, rfl, hs⟩
      | succ n =>
        obtain ⟨t, ht, hP⟩ := ih.mp hrest n
        exact ⟨t, run_cons.mpr ⟨m, hm, ht⟩, hP⟩
    · intro h
      obtain ⟨_, hzero, hs⟩ := h 0
      cases hzero
      obtain ⟨_, hone, -⟩ := h 1
      obtain ⟨m, hm, -⟩ := run_cons.mp hone
      refine ⟨hs, m, hm, ih.mpr fun n => ?_⟩
      obtain ⟨t, ht, hP⟩ := h (n + 1)
      obtain ⟨m', hm', ht⟩ := run_cons.mp ht
      obtain rfl : m = m' := Option.some.inj (hm.symm.trans hm')
      exact ⟨t, ht, hP⟩

theorem Always.first (h : Always step P s as) : P s := by
  cases as with
  | nil => exact h
  | cons a as => exact h.1

theorem Always.left (h : Always step P s (as ++ bs)) : Always step P s as := by
  induction as generalizing s with
  | nil => exact h.first
  | cons a as ih =>
    obtain ⟨hs, m, hm, hrest⟩ := h
    exact ⟨hs, m, hm, ih hrest⟩

theorem Along.left (h : Along step ok s (as ++ bs)) : Along step ok s as := by
  induction as generalizing s with
  | nil => trivial
  | cons a as ih => exact ⟨h.1, fun t ht => ih (h.2 t ht)⟩

theorem always_append (hr : run step s as = some t) :
    Always step P s (as ++ bs) ↔ Always step P s as ∧ Always step P t bs := by
  induction as generalizing s with
  | nil =>
    cases hr
    exact ⟨fun h => ⟨h.first, h⟩, fun h => h.2⟩
  | cons a as ih =>
    obtain ⟨m, hm, hr⟩ := run_cons.mp hr
    constructor
    · rintro ⟨hs, m', hm', hrest⟩
      obtain rfl : m = m' := Option.some.inj (hm.symm.trans hm')
      obtain ⟨hfirst, hlast⟩ := (ih hr).mp hrest
      exact ⟨⟨hs, m, hm, hfirst⟩, hlast⟩
    · rintro ⟨⟨hs, m', hm', hfirst⟩, hlast⟩
      obtain rfl : m = m' := Option.some.inj (hm.symm.trans hm')
      exact ⟨hs, m, hm, (ih hr).mpr ⟨hfirst, hlast⟩⟩

theorem along_append (hr : run step s as = some t) :
    Along step ok s (as ++ bs) ↔ Along step ok s as ∧ Along step ok t bs := by
  induction as generalizing s with
  | nil =>
    cases hr
    exact ⟨fun h => ⟨trivial, h⟩, fun h => h.2⟩
  | cons a as ih =>
    obtain ⟨m, hm, hr⟩ := run_cons.mp hr
    constructor
    · rintro ⟨hs, hrest⟩
      obtain ⟨hfirst, hlast⟩ := (ih hr).mp (hrest m hm)
      refine ⟨⟨hs, fun m' hm' => ?_⟩, hlast⟩
      obtain rfl : m = m' := Option.some.inj (hm.symm.trans hm')
      exact hfirst
    · rintro ⟨⟨hs, hfirst⟩, hlast⟩
      refine ⟨hs, fun m' hm' => ?_⟩
      obtain rfl : m = m' := Option.some.inj (hm.symm.trans hm')
      exact (ih hr).mpr ⟨hfirst m hm, hlast⟩

variable (step ok I P) in
/-- The steps are admissible, all states have the property, and the last one has the invariant. -/
structure Passes (s : σ) (as : List α) : Prop where
  always : Always step P s as
  along : Along step ok s as
  last : ∃ t, run step s as = some t ∧ I t

variable (step ok P) in
/-- Some step is not admissible, and some state is missing or does not have the property. -/
structure Fails (s : σ) (as : List α) : Prop where
  always : ¬Always step P s as
  along : ¬Along step ok s as

theorem Passes.cons {a : α} (hs : P s) (hok : ok s a) (hstep : step s a = some t)
    (h : Passes step ok I P t as) : Passes step ok I P s (a :: as) := by
  obtain ⟨u, hu, hI⟩ := h.last
  refine ⟨⟨hs, t, hstep, h.always⟩, ⟨hok, fun t' ht' => ?_⟩, u, run_cons.mpr ⟨t, hstep, hu⟩, hI⟩
  obtain rfl : t = t' := Option.some.inj (hstep.symm.trans ht')
  exact h.along

theorem Fails.cons {a : α} (hstep : step s a = some t) (h : Fails step ok P t as) :
    Fails step ok P s (a :: as) := by
  refine ⟨?_, fun halong => h.along (halong.2 t hstep)⟩
  rintro ⟨-, t', ht', hrest⟩
  obtain rfl : t = t' := Option.some.inj (hstep.symm.trans ht')
  exact h.always hrest

/-- When each block of events passes or fails, a run over blocks has the property throughout
exactly if it is admissible. -/
theorem always_iff_along_flatMap {γ : Type*} {events : γ → List α} (hI : ∀ s, I s → P s)
    (hblock : ∀ s b, I s → Passes step ok I P s (events b) ∨ Fails step ok P s (events b))
    (hs : I s) (blocks : List γ) :
    Always step P s (blocks.flatMap events) ↔ Along step ok s (blocks.flatMap events) := by
  induction blocks generalizing s with
  | nil => exact ⟨fun _ => trivial, fun _ => hI s hs⟩
  | cons b blocks ih =>
    rw [List.flatMap_cons]
    rcases hblock s b hs with hpass | hfail
    · obtain ⟨t, ht, hIt⟩ := hpass.last
      rw [always_append ht, along_append ht, ih hIt]
      exact ⟨fun h => ⟨hpass.along, h.2⟩, fun h => ⟨hpass.always, h.2⟩⟩
    · exact ⟨fun h => absurd h.left hfail.always, fun h => absurd h.left hfail.along⟩

end Always

/-- The system together with a history of its steps. -/
def observed {η : Type*} (step : σ → α → Option σ) (note : σ → α → σ → η → η) (s : σ × η) (a : α) :
    Option (σ × η) :=
  (step s.1 a).map fun t => (t, note s.1 a t s.2)

section Observed

variable {η : Type*} {note : σ → α → σ → η → η} {h : η}

theorem observed_eq_some {a : α} {p : σ × η} :
    observed step note (s, h) a = some p ↔ ∃ t, step s a = some t ∧ p = (t, note s a t h) := by
  unfold observed
  rw [Option.map_eq_some_iff]
  constructor
  · rintro ⟨t, ht, rfl⟩
    exact ⟨t, ht, rfl⟩
  · rintro ⟨t, ht, rfl⟩
    exact ⟨t, ht, rfl⟩

variable (note) in
/-- Every run of the system has a history. -/
theorem exists_run_observed (h : η) (hr : run step s as = some t) :
    ∃ h', run (observed step note) (s, h) as = some (t, h') := by
  induction as generalizing s h with
  | nil =>
    cases hr
    exact ⟨h, rfl⟩
  | cons a as ih =>
    obtain ⟨m, hm, ht⟩ := run_cons.mp hr
    obtain ⟨h', hrun⟩ := ih (note s a m h) ht
    exact ⟨h', run_cons.mpr ⟨_, observed_eq_some.mpr ⟨m, hm, rfl⟩, hrun⟩⟩

end Observed

end Klish.Runs
