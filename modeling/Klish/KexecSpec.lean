import Klish.Kexec

/-!
# What the steps of a pipeline do

One lemma for each function of `kexec`: what the preparation opens, how a launch can go, and
how far the path is popped.
-/

namespace Klish

namespace Kexec

variable {scheme : Kscheme} {env : KexecEnv}

theorem linkContexts_spec {globalStderr lastStdout stdin : Fd} {contexts contexts' : List Kcontext}
    {w w' : World}
    (h : linkContexts env globalStderr lastStdout stdin contexts w = some (contexts', w')) :
    contexts'.map Kcontext.withoutStreams = contexts.map Kcontext.withoutStreams ∧
      w' = { w with fds := w'.fds } := by
  induction contexts generalizing stdin w contexts' with
  | nil =>
    cases h
    exact ⟨rfl, rfl⟩
  | cons context contexts ih =>
    cases contexts with
    | nil =>
      cases h
      exact ⟨rfl, rfl⟩
    | cons next contexts =>
      rw [linkContexts] at h
      cases hpipe : env.pipe w with
      | none => simp [hpipe] at h
      | some ends =>
        simp only [hpipe] at h
        obtain ⟨⟨rest, w₁⟩, hrest, heq⟩ := Option.map_eq_some_iff.mp h
        cases heq
        obtain ⟨hmap, hw⟩ := ih hrest
        refine ⟨?_, ?_⟩
        · rw [List.map_cons, hmap, List.map_cons]
          rfl
        · rw [hw]
          rfl

theorem streamEnds_spec {tty : Option (Fd × Fd)} {ends : Fd × Fd} {w w' : World}
    (h : streamEnds env tty w = some (ends, w')) : w' = { w with fds := w'.fds } := by
  unfold streamEnds at h
  split at h
  · cases h
    rfl
  · obtain ⟨_, _, heq⟩ := Option.map_eq_some_iff.mp h
    cases heq
    rfl

/-- The preparation opens descriptors and gives every context its streams. -/
theorem kexecPrepare_spec {exec exec' : Kexec} {w w' : World}
    (h : kexecPrepare scheme env exec w = some (exec', w')) :
    exec.contexts ≠ [] ∧ exec'.dryRun = exec.dryRun ∧
      exec'.contexts.map Kcontext.withoutStreams = exec.contexts.map Kcontext.withoutStreams ∧
      w' = { w with fds := w'.fds } := by
  unfold kexecPrepare at h
  split at h
  · simp at h
  · rename_i hne
    obtain ⟨⟨pty, w₁⟩, hpty, h⟩ := Option.bind_eq_some_iff.mp h
    obtain ⟨⟨e₁, w₂⟩, h₁, h⟩ := Option.bind_eq_some_iff.mp h
    obtain ⟨⟨e₂, w₃⟩, h₂, h⟩ := Option.bind_eq_some_iff.mp h
    obtain ⟨⟨e₃, w₄⟩, h₃, h⟩ := Option.bind_eq_some_iff.mp h
    obtain ⟨⟨contexts, w₅⟩, h₄, heq⟩ := Option.map_eq_some_iff.mp h
    cases heq
    have hw₁ : w₁ = { w with fds := w₁.fds } := by
      split at hpty
      · obtain ⟨_, _, heq⟩ := Option.map_eq_some_iff.mp hpty
        cases heq
        rfl
      · cases hpty
        rfl
    obtain ⟨hmap, hw₅⟩ := linkContexts_spec h₄
    refine ⟨by simpa using hne, rfl, hmap, ?_⟩
    rw [hw₅, streamEnds_spec h₃, streamEnds_spec h₂, streamEnds_spec h₁, hw₁]

variable (env) in
/-- The ways a launch can go. -/
inductive LaunchSpec (context : Kcontext) (action : Kaction) (exitstatus : ℤ) (w : World) :
    Launch → Prop
  | silent (value : ℤ) (session : Ksession) (hsync : action.isSync = true) :
      LaunchSpec context action exitstatus w
        ⟨none, value, .returned value none, { w with session }⟩
  | sync (value : ℤ) (session : Ksession) (pid : Pid) (hsync : action.isSync = true)
      (hfresh : pid ∉ w.live) :
      LaunchSpec context action exitstatus w
        ⟨some pid, value, .returned value (some pid), { w with session, live := pid :: w.live }⟩
  | async (pid : Pid) (hsync : action.isSync = false) (hfresh : pid ∉ w.live) :
      LaunchSpec context action exitstatus w
        ⟨some pid, exitstatus, .started pid, { w with live := pid :: w.live }⟩
  | refused (hrefused : env.refused w context action = true) :
      LaunchSpec context action exitstatus w ⟨none, exitstatus, .refused, w⟩

variable (env) in
theorem execAction_spec (context : Kcontext) (action : Kaction) (exitstatus : ℤ) (w : World) :
    LaunchSpec env context action exitstatus w (execAction env context action exitstatus w) := by
  unfold execAction execActionSync execActionAsync
  by_cases hsync : action.isSync = true
  · rw [if_pos hsync]
    split
    · exact .silent _ _ hsync
    · split
      · rename_i hrefused
        exact .refused hrefused
      · exact .sync _ _ _ hsync (env.newPid_fresh w)
  · rw [if_neg hsync]
    split
    · rename_i hrefused
      exact .refused hrefused
    · exact .async _ (by simpa using hsync) (env.newPid_fresh w)

/-- A started pipeline has been prepared and its path restored before any ACTION ran. -/
theorem kexecExec_eq_some {exec : Kexec} {w : World} {r : Kexec × World} :
    kexecExec scheme env exec w = some r ↔ ∃ exec₁ w₁,
      kexecPrepare scheme env exec w = some (exec₁, w₁) ∧
        kexecContinueCommandExecution scheme env exec₁ none .zero
          (restoreWorld scheme exec₁ w₁) = r := by
  rw [kexecExec, Option.map_eq_some_iff]
  exact Prod.exists

@[simp] theorem restoreWorld_log (exec : Kexec) (w : World) :
    (restoreWorld scheme exec w).log = w.log := by
  unfold restoreWorld
  split <;> rfl

@[simp] theorem restoreWorld_live (exec : Kexec) (w : World) :
    (restoreWorld scheme exec w).live = w.live := by
  unfold restoreWorld
  split <;> rfl

theorem popLevels_eq {limit n : ℕ} {path : Kpath} (h : path.len ≤ n) :
    popLevels limit n path = path.take limit := by
  induction n generalizing path with
  | zero =>
    rw [popLevels, Kpath.take_of_len_le (by omega)]
  | succ n ih =>
    rw [popLevels]
    split
    · rename_i hlen
      have hne : path.levels ≠ [] := by
        intro hnil
        simp [Kpath.len, hnil] at hlen
      obtain ⟨path', hpop⟩ : ∃ path', path.pop = some path' :=
        ⟨_, Kpath.pop_eq_some.mpr ⟨hne, rfl⟩⟩
      obtain ⟨-, rfl⟩ := Kpath.pop_eq_some.mp hpop
      simp only [hpop]
      have hlen' : (path.take (path.len - 1)).len = path.len - 1 := by
        simp only [Kpath.len, Kpath.take_levels, List.length_take]
        omega
      rw [ih (by omega)]
      apply Kpath.ext
      simp only [Kpath.take_levels, List.take_take]
      congr 1
      omega
    · rename_i hlen
      exact (Kpath.take_of_len_le (by omega)).symm

/-- A number that is not in use. -/
def freshNumber (used : List ℕ) : ℕ := used.foldr max 0 + 1

theorem lt_freshNumber {used : List ℕ} {n : ℕ} (h : n ∈ used) : n < freshNumber used := by
  unfold freshNumber
  induction used with
  | nil => simp at h
  | cons m used ih =>
    simp only [List.foldr_cons]
    rcases List.mem_cons.mp h with rfl | h
    · omega
    · have := ih h
      omega

/-- The two next descriptors. -/
def freshPair (w : World) : Option (Fd × Fd) := some (freshNumber w.fds, freshNumber w.fds + 1)

theorem freshPair_fresh (w : World) (r s : Fd) (h : freshPair w = some (r, s)) :
    r ∉ w.fds ∧ s ∉ w.fds ∧ r ≠ s := by
  obtain ⟨rfl, rfl⟩ : freshNumber w.fds = r ∧ freshNumber w.fds + 1 = s := by
    simpa [freshPair] using h
  refine ⟨fun hmem => ?_, fun hmem => ?_, Nat.ne_of_lt (Nat.lt_succ_self _)⟩
  · exact Nat.lt_irrefl _ (lt_freshNumber hmem)
  · have := lt_freshNumber hmem
    omega

/-- A system that gives out numbers in order, with symbols that return 0. -/
def sampleEnv (refused : Kaction → Bool) : KexecEnv where
  refused _ _ action := refused action
  newPid w := freshNumber w.live
  newPid_fresh _ hmem := Nat.lt_irrefl _ (lt_freshNumber hmem)
  symResult _ _ _ := 0
  symEffect w _ _ := w.session
  pipe := freshPair
  pipe_fresh := freshPair_fresh
  openPty := freshPair
  openPty_fresh := freshPair_fresh

/-- A pipeline of one command. -/
def samplePipeline (e : EntryId) : Kexec :=
  { Kexec.new true with
    contexts := [Kcontext.new { Kpargv.new with command := some e, status := .ok } 0 true] }

end Kexec

end Klish
