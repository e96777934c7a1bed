import Mathlib.Data.Option.Basic
import Mathlib.Data.Nat.Notation

/-!
# An event loop that polls descriptors

The loop is known by its operations and by what they do to the table of watched descriptors.
-/

namespace Klish

inductive PollEvent where
  | pollin | pollout
  deriving DecidableEq, Repr

/-- A watched descriptor: who is called, and for which events. -/
structure Watch (κ : Type) where
  callback : κ
  events : PollEvent → Bool

namespace Watch

variable {κ : Type}

def set (w : Watch κ) (ev : PollEvent) (on : Bool) : Watch κ :=
  { w with events := fun ev' => if ev' = ev then on else w.events ev' }

/-- A descriptor that is not polled for anything yet. -/
def idle (callback : κ) : Watch κ := ⟨callback, fun _ => false⟩

end Watch

structure EventLoop (κ : Type) where
  State : Type
  watch : State → ℕ → Option (Watch κ)
  /-- A descriptor that is watched already stays as it is. -/
  addFd : State → ℕ → κ → State
  delFd : State → ℕ → State
  includeFdEvent : State → ℕ → PollEvent → State
  excludeFdEvent : State → ℕ → PollEvent → State
  watch_addFd : ∀ s fd callback fd', watch (addFd s fd callback) fd' =
    if fd' = fd then (watch s fd).or (some (.idle callback)) else watch s fd'
  watch_delFd : ∀ s fd fd', watch (delFd s fd) fd' = if fd' = fd then none else watch s fd'
  watch_includeFdEvent : ∀ s fd ev fd', watch (includeFdEvent s fd ev) fd' =
    if fd' = fd then (watch s fd).map (·.set ev true) else watch s fd'
  watch_excludeFdEvent : ∀ s fd ev fd', watch (excludeFdEvent s fd ev) fd' =
    if fd' = fd then (watch s fd).map (·.set ev false) else watch s fd'

namespace EventLoop

variable {κ : Type} (L : EventLoop κ) (s : L.State) (fd : ℕ) (ev : PollEvent) (callback : κ)

def watched : Bool := (L.watch s fd).isSome

/-- The callback of a watched descriptor. -/
def callbackOf : Option κ := (L.watch s fd).map Watch.callback

/-- The descriptor is polled for the event. -/
def polls : Bool := (L.watch s fd).any fun w => w.events ev

variable {L s fd ev callback} {fd' : ℕ} {ev' : PollEvent}

theorem watched_of_polls (h : L.polls s fd ev = true) : L.watched s fd = true := by
  unfold polls at h
  unfold watched
  cases hw : L.watch s fd with
  | none => simp [hw] at h
  | some w => rfl

theorem watched_of_callbackOf (h : L.callbackOf s fd = some callback) :
    L.watched s fd = true := by
  obtain ⟨w, hw, -⟩ := Option.map_eq_some_iff.mp h
  simp [watched, hw]

@[simp] theorem watched_addFd :
    L.watched (L.addFd s fd callback) fd' = (decide (fd' = fd) || L.watched s fd') := by
  unfold watched
  rw [L.watch_addFd]
  by_cases h : fd' = fd <;> simp [h]

@[simp] theorem watched_delFd :
    L.watched (L.delFd s fd) fd' = (!decide (fd' = fd) && L.watched s fd') := by
  unfold watched
  rw [L.watch_delFd]
  by_cases h : fd' = fd <;> simp [h]

@[simp] theorem watched_includeFdEvent :
    L.watched (L.includeFdEvent s fd ev) fd' = L.watched s fd' := by
  unfold watched
  rw [L.watch_includeFdEvent]
  by_cases h : fd' = fd <;> simp [h]

@[simp] theorem watched_excludeFdEvent :
    L.watched (L.excludeFdEvent s fd ev) fd' = L.watched s fd' := by
  unfold watched
  rw [L.watch_excludeFdEvent]
  by_cases h : fd' = fd <;> simp [h]

theorem callbackOf_addFd (hne : fd' ≠ fd) :
    L.callbackOf (L.addFd s fd callback) fd' = L.callbackOf s fd' := by
  simp [callbackOf, L.watch_addFd, hne]

theorem callbackOf_addFd_self (h : L.watched s fd = false) :
    L.callbackOf (L.addFd s fd callback) fd = some callback := by
  cases hw : L.watch s fd with
  | none => simp [callbackOf, L.watch_addFd, hw, Watch.idle]
  | some w => simp [watched, hw] at h

theorem callbackOf_delFd (hne : fd' ≠ fd) :
    L.callbackOf (L.delFd s fd) fd' = L.callbackOf s fd' := by
  simp [callbackOf, L.watch_delFd, hne]

@[simp] theorem callbackOf_includeFdEvent :
    L.callbackOf (L.includeFdEvent s fd ev) fd' = L.callbackOf s fd' := by
  unfold callbackOf
  rw [L.watch_includeFdEvent]
  by_cases h : fd' = fd
  · subst h
    cases L.watch s fd' <;> simp [Watch.set]
  · simp [h]

@[simp] theorem callbackOf_excludeFdEvent :
    L.callbackOf (L.excludeFdEvent s fd ev) fd' = L.callbackOf s fd' := by
  unfold callbackOf
  rw [L.watch_excludeFdEvent]
  by_cases h : fd' = fd
  · subst h
    cases L.watch s fd' <;> simp [Watch.set]
  · simp [h]

/-- A new descriptor is not polled, and an old one is polled as before. -/
@[simp] theorem polls_addFd : L.polls (L.addFd s fd callback) fd' ev' = L.polls s fd' ev' := by
  unfold polls
  rw [L.watch_addFd]
  by_cases h : fd' = fd
  · subst h
    cases hw : L.watch s fd' <;> simp [Watch.idle]
  · simp [h]

@[simp] theorem polls_delFd :
    L.polls (L.delFd s fd) fd' ev' = (!decide (fd' = fd) && L.polls s fd' ev') := by
  unfold polls
  rw [L.watch_delFd]
  by_cases h : fd' = fd <;> simp [h]

theorem polls_includeFdEvent : L.polls (L.includeFdEvent s fd ev) fd' ev' =
    (L.polls s fd' ev' || (decide (fd' = fd ∧ ev' = ev) && L.watched s fd)) := by
  unfold polls watched
  rw [L.watch_includeFdEvent]
  by_cases h : fd' = fd
  · subst h
    cases hw : L.watch s fd' with
    | none => simp
    | some w => by_cases he : ev' = ev <;> simp [Watch.set, he]
  · simp [h]

theorem polls_excludeFdEvent : L.polls (L.excludeFdEvent s fd ev) fd' ev' =
    (L.polls s fd' ev' && !decide (fd' = fd ∧ ev' = ev)) := by
  unfold polls
  rw [L.watch_excludeFdEvent]
  by_cases h : fd' = fd
  · subst h
    cases hw : L.watch s fd' with
    | none => simp
    | some w => by_cases he : ev' = ev <;> simp [Watch.set, he]
  · simp [h]

/-- A loop that is the table itself. -/
def table (κ : Type) : EventLoop κ where
  State := ℕ → Option (Watch κ)
  watch s := s
  addFd s fd callback fd' := if fd' = fd then (s fd).or (some (.idle callback)) else s fd'
  delFd s fd fd' := if fd' = fd then none else s fd'
  includeFdEvent s fd ev fd' := if fd' = fd then (s fd).map (·.set ev true) else s fd'
  excludeFdEvent s fd ev fd' := if fd' = fd then (s fd).map (·.set ev false) else s fd'
  watch_addFd _ _ _ _ := rfl
  watch_delFd _ _ _ := rfl
  watch_includeFdEvent _ _ _ _ := rfl
  watch_excludeFdEvent _ _ _ _ := rfl

end EventLoop

end Klish
