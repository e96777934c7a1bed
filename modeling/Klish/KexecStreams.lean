import Klish.KexecSpec

/-!
# Descriptors of a pipeline

The descriptors that the server holds for a pipeline are new ones, and no context has one of
them. So the ACTIONs close their own ends of the streams only.
-/

namespace Klish.Kexec

variable {scheme : Kscheme} {env : KexecEnv} {fd : Fd}

/-- The context does not have the descriptor. -/
structure Avoids (fd : Fd) (context : Kcontext) : Prop where
  stdin : context.stdin ≠ some fd
  stdout : context.stdout ≠ some fd
  stderr : context.stderr ≠ some fd

/-- The descriptor is open and none of the contexts can close it. -/
structure Held (fd : Fd) (contexts : List Kcontext) (w : World) : Prop where
  isOpen : fd ∈ w.fds
  avoids : ∀ context ∈ contexts, Avoids fd context

theorem mem_close {w : World} {other : Option Fd} (h : fd ∈ w.fds) (hne : other ≠ some fd) :
    fd ∈ (w.close other).fds := by
  cases other with
  | none => exact h
  | some other =>
    refine List.mem_filter.mpr ⟨h, ?_⟩
    simp only [ne_eq, decide_not, Bool.not_eq_eq_eq_not, Bool.not_true, decide_eq_false_iff_not]
    intro heq
    exact hne (heq ▸ rfl)

theorem not_mem_close {w : World} : fd ∉ (w.close (some fd)).fds := by
  intro h
  simp [World.close] at h

theorem execAction_fds (env : KexecEnv) (context : Kcontext) (action : Kaction) (exitstatus : ℤ) (w : World) :
    (execAction env context action exitstatus w).world.fds = w.fds := by
  have hspec := execAction_spec env context action exitstatus w
  generalize execAction env context action exitstatus w = r at hspec
  cases hspec <;> rfl

theorem actionLoop_held {dryRun : Bool} {actions : List Kaction} {exitstatus : ℤ}
    {context : Kcontext} {w : World} (hopen : fd ∈ w.fds) (havoids : Avoids fd context) :
    fd ∈ (actionLoop env dryRun actions exitstatus context w).2.fds ∧
      Avoids fd (actionLoop env dryRun actions exitstatus context w).1 := by
  induction actions generalizing exitstatus context w with
  | nil =>
    refine ⟨mem_close (mem_close hopen havoids.stdout) havoids.stdin, ?_⟩
    exact ⟨by simp [actionLoop, finish], by simp [actionLoop, finish], havoids.stderr⟩
  | cons action rest ih =>
    rw [actionLoop]
    dsimp only
    have hcurrent : Avoids fd { context with actionIter := action :: rest } :=
      ⟨havoids.stdin, havoids.stdout, havoids.stderr⟩
    split
    · exact ih hopen hcurrent
    split
    · exact ih hopen ⟨havoids.stdin, havoids.stdout, havoids.stderr⟩
    · have hfds := execAction_fds env { context with actionIter := action :: rest } action
        exitstatus w
      split
      · exact ⟨by simpa [World.record, hfds] using hopen,
          ⟨havoids.stdin, havoids.stdout, havoids.stderr⟩⟩
      · refine ih ?_ ⟨havoids.stdin, havoids.stdout, havoids.stderr⟩
        simpa [World.record, hfds] using hopen

theorem execActionSequence_held (scheme : Kscheme) (env : KexecEnv) (dryRun : Bool)
    (pid : Option Pid) (status : WaitStatus) {context : Kcontext} {w : World} (hopen : fd ∈ w.fds) (havoids : Avoids fd context) :
    fd ∈ (execActionSequence scheme env dryRun context pid status w).2.2.fds ∧
      Avoids fd (execActionSequence scheme env dryRun context pid status w).2.1 := by
  unfold execActionSequence
  split
  · exact ⟨hopen, havoids⟩
  · have hnote : fd ∈ (noteTermination context status w).2.fds ∧
        Avoids fd (noteTermination context status w).1 := by
      unfold noteTermination
      split
      · exact ⟨hopen, havoids⟩
      · exact ⟨hopen, ⟨havoids.stdin, havoids.stdout, havoids.stderr⟩⟩
    exact actionLoop_held hnote.1 hnote.2

theorem continueContexts_held {dryRun : Bool} {pid : Option Pid} {status : WaitStatus}
    {contexts : List Kcontext} {w : World} (h : Held fd contexts w) :
    Held fd (continueContexts scheme env dryRun pid status contexts w).1
      (continueContexts scheme env dryRun pid status contexts w).2 := by
  induction contexts generalizing w with
  | nil => exact h
  | cons context contexts ih =>
    have hhead : Avoids fd context := h.avoids context List.mem_cons_self
    have htail : ∀ c ∈ contexts, Avoids fd c := fun c hc => h.avoids c (List.mem_cons_of_mem _ hc)
    obtain ⟨hopen, hcontext⟩ := execActionSequence_held scheme env dryRun pid status
      h.isOpen hhead
    rw [continueContexts]
    dsimp only
    split
    · exact ⟨hopen, List.forall_mem_cons.mpr ⟨hcontext, htail⟩⟩
    · have hrest := ih ⟨hopen, htail⟩
      exact ⟨hrest.isOpen, List.forall_mem_cons.mpr ⟨hcontext, hrest.avoids⟩⟩

/-- The end of a child leaves the descriptor open. -/
theorem childEnded_held {exec : Kexec} {pid : Pid} {status : WaitStatus} {w : World}
    (h : Held fd exec.contexts w) :
    Held fd (childEnded scheme env exec pid status w).1.contexts
      (childEnded scheme env exec pid status w).2 :=
  continueContexts_held ⟨h.isOpen, h.avoids⟩

theorem close_subset {w : World} {other : Option Fd} : (w.close other).fds ⊆ w.fds := by
  cases other with
  | none => exact fun _ h => h
  | some other => exact fun _ h => List.mem_of_mem_filter h

theorem actionLoop_subset {dryRun : Bool} {actions : List Kaction} {exitstatus : ℤ}
    {context : Kcontext} {w : World} :
    (actionLoop env dryRun actions exitstatus context w).2.fds ⊆ w.fds := by
  induction actions generalizing exitstatus context w with
  | nil => exact fun _ h => close_subset (close_subset h)
  | cons action rest ih =>
    rw [actionLoop]
    dsimp only
    split
    · exact ih
    split
    · exact ih
    · have hfds := execAction_fds env { context with actionIter := action :: rest } action
        exitstatus w
      rw [← hfds]
      split
      · exact fun _ h => h
      · exact ih

theorem continueContexts_subset {dryRun : Bool} {pid : Option Pid} {status : WaitStatus}
    {contexts : List Kcontext} {w : World} :
    (continueContexts scheme env dryRun pid status contexts w).2.fds ⊆ w.fds := by
  induction contexts generalizing w with
  | nil => exact fun _ h => h
  | cons context contexts ih =>
    have hhead : (execActionSequence scheme env dryRun context pid status w).2.2.fds ⊆ w.fds := by
      unfold execActionSequence
      split
      · exact fun _ h => h
      · have hnote : (noteTermination context status w).2.fds ⊆ w.fds := by
          unfold noteTermination
          split <;> exact fun _ h => h
        exact fun _ h => hnote (actionLoop_subset h)
    rw [continueContexts]
    dsimp only
    split
    · exact hhead
    · exact fun _ h => hhead (ih h)

/-- The end of a child opens no descriptor. -/
theorem childEnded_subset {exec : Kexec} {pid : Pid} {status : WaitStatus} {w : World} :
    (childEnded scheme env exec pid status w).2.fds ⊆ w.fds := continueContexts_subset

theorem streamEnds_fds {tty : Option (Fd × Fd)} {ends : Fd × Fd} {w w' : World}
    (h : streamEnds env tty w = some (ends, w')) :
    w.fds ⊆ w'.fds ∧ (tty = some ends ∨
      (ends.1 ∉ w.fds ∧ ends.2 ∉ w.fds ∧ ends.1 ≠ ends.2 ∧ ends.1 ∈ w'.fds ∧ ends.2 ∈ w'.fds)) := by
  cases tty with
  | some tty =>
    cases h
    exact ⟨fun _ h => h, .inl rfl⟩
  | none =>
    obtain ⟨_, hpipe, heq⟩ := Option.map_eq_some_iff.mp h
    cases heq
    obtain ⟨hr, hs, hne⟩ := env.pipe_fresh w ends.1 ends.2 hpipe
    refine ⟨fun fd hfd => ?_, .inr ⟨hr, hs, hne, ?_, ?_⟩⟩
    · exact List.mem_cons_of_mem _ (List.mem_cons_of_mem _ hfd)
    · exact List.mem_cons_self
    · exact List.mem_cons_of_mem _ List.mem_cons_self

/-- The contexts get the ends they are given and new ones. -/
theorem linkContexts_fds {globalStderr lastStdout stdin : Fd} {contexts contexts' : List Kcontext}
    {w w' : World}
    (h : linkContexts env globalStderr lastStdout stdin contexts w = some (contexts', w')) :
    w.fds ⊆ w'.fds ∧ ∀ fd ∈ w.fds, fd ≠ stdin → fd ≠ lastStdout → fd ≠ globalStderr →
      ∀ context ∈ contexts', Avoids fd context := by
  induction contexts generalizing stdin w contexts' with
  | nil =>
    cases h
    exact ⟨fun _ h => h, by simp⟩
  | cons context contexts ih =>
    cases contexts with
    | nil =>
      cases h
      refine ⟨fun _ h => h, fun fd _ hin hout herr c hc => ?_⟩
      obtain rfl := List.mem_singleton.mp hc
      exact ⟨by simpa using hin.symm, by simpa using hout.symm, by simpa using herr.symm⟩
    | cons next contexts =>
      rw [linkContexts] at h
      cases hpipe : env.pipe w with
      | none => simp [hpipe] at h
      | some ends =>
        simp only [hpipe] at h
        obtain ⟨⟨rest, w₁⟩, hrest, heq⟩ := Option.map_eq_some_iff.mp h
        cases heq
        obtain ⟨hr, hs, hne⟩ := env.pipe_fresh w ends.1 ends.2 hpipe
        obtain ⟨hsub, havoids⟩ := ih hrest
        have hold : w.fds ⊆ (w.openPair ends).fds := fun fd hfd =>
          List.mem_cons_of_mem _ (List.mem_cons_of_mem _ hfd)
        refine ⟨fun fd hfd => hsub (hold hfd), fun fd hfd hin hout herr => ?_⟩
        refine List.forall_mem_cons.mpr ⟨⟨?_, ?_, ?_⟩, ?_⟩
        · simpa using hin.symm
        · intro heq
          exact hs ((Option.some.inj heq) ▸ hfd)
        · simpa using herr.symm
        · exact havoids fd (hold hfd) (fun heq => hr (heq ▸ hfd)) hout herr

/-- The server's ends of the streams are new, and what is open is held. -/
structure StreamsHeld (exec : Kexec) (w w' : World) : Prop where
  old : ∀ fd ∈ w.fds, Held fd exec.contexts w'
  fresh : ∃ i o e, exec.stdin = some i ∧ exec.stdout = some o ∧ exec.stderr = some e ∧
    i ∉ w.fds ∧ o ∉ w.fds ∧ e ∉ w.fds ∧ Held i exec.contexts w'

/-- The descriptors that were open before the preparation stay so, and the server's end of
stdin is a new one that the contexts do not have. -/
theorem kexecPrepare_streams {exec exec' : Kexec} {w w' : World}
    (h : kexecPrepare scheme env exec w = some (exec', w')) : StreamsHeld exec' w w' := by
  unfold kexecPrepare at h
  split at h
  · simp at h
  obtain ⟨⟨pty, w₁⟩, hpty, h⟩ := Option.bind_eq_some_iff.mp h
  obtain ⟨⟨inEnds, w₂⟩, h₂, h⟩ := Option.bind_eq_some_iff.mp h
  obtain ⟨⟨outEnds, w₃⟩, h₃, h⟩ := Option.bind_eq_some_iff.mp h
  obtain ⟨⟨errEnds, w₄⟩, h₄, h⟩ := Option.bind_eq_some_iff.mp h
  obtain ⟨⟨contexts, w₅⟩, h₅, heq⟩ := Option.map_eq_some_iff.mp h
  cases heq
  -- The two sides of the terminal are new descriptors.
  have hterm : w.fds ⊆ w₁.fds ∧ ∀ m s, pty = some (m, s) →
      m ∉ w.fds ∧ s ∉ w.fds ∧ m ≠ s ∧ m ∈ w₁.fds ∧ s ∈ w₁.fds := by
    split at hpty
    · obtain ⟨pair, hopen, heq⟩ := Option.map_eq_some_iff.mp hpty
      cases heq
      refine ⟨fun fd hfd => List.mem_cons_of_mem _ (List.mem_cons_of_mem _ hfd), ?_⟩
      rintro m s ⟨⟩
      obtain ⟨hm, hs, hne⟩ := env.openPty_fresh w m s hopen
      exact ⟨hm, hs, hne, List.mem_cons_self, List.mem_cons_of_mem _ List.mem_cons_self⟩
    · cases hpty
      exact ⟨fun _ h => h, by simp⟩
  obtain ⟨hsub₁, hterm⟩ := hterm
  obtain ⟨hsub₂, hin⟩ := streamEnds_fds h₂
  obtain ⟨hsub₃, hout⟩ := streamEnds_fds h₃
  obtain ⟨hsub₄, herr⟩ := streamEnds_fds h₄
  obtain ⟨hsub₅, hlink⟩ := linkContexts_fds h₅
  have hstdin : inEnds.1 ∉ w.fds ∧ inEnds.2 ∉ w.fds ∧ inEnds.2 ≠ inEnds.1 ∧
      inEnds.2 ∈ w₂.fds ∧ ∀ m s, pty = some (m, s) → s ≠ inEnds.2 := by
    rcases hin with hin | ⟨hr, hs, hne, -, hmem⟩
    · have hpty : pty = some (inEnds.2, inEnds.1) := by
        split at hin
        · obtain ⟨pair, hpair, heq⟩ := Option.map_eq_some_iff.mp hin
          rw [hpair, ← heq]
        · cases hin
      obtain ⟨hm, hs, hne, hmem, -⟩ := hterm _ _ hpty
      refine ⟨hs, hm, hne, hsub₂ hmem, fun m s h => ?_⟩
      cases hpty.symm.trans h
      exact hne.symm
    · refine ⟨fun h => hr (hsub₁ h), fun h => hs (hsub₁ h), hne.symm, hmem, fun m s h heq => ?_⟩
      obtain ⟨-, -, -, -, hmem⟩ := hterm m s h
      exact hs (heq ▸ hmem)
  obtain ⟨hin₁, hin₂, hne, hmem, hslave⟩ := hstdin
  -- The other streams have the sides of the terminal or ends that are newer than those of stdin.
  have hother : ∀ (ends : Fd × Fd) (tty : Bool) (v : World), w₂.fds ⊆ v.fds →
      ((if tty then pty else none) = some ends ∨ (ends.1 ∉ v.fds ∧ ends.2 ∉ v.fds)) →
        ends.1 ∉ w.fds ∧ ends.2 ∉ w.fds ∧ ends.2 ≠ inEnds.2 := by
    rintro ⟨r, s⟩ tty v hv (htty | ⟨hr, hs⟩)
    · have hpty : pty = some (r, s) := by
        cases tty with
        | true => exact htty
        | false => cases htty
      obtain ⟨hm, hs, -⟩ := hterm r s hpty
      exact ⟨hm, hs, hslave r s hpty⟩
    · exact ⟨fun h => hr (hv (hsub₂ (hsub₁ h))), fun h => hs (hv (hsub₂ (hsub₁ h))),
        fun h => hs (hv (h ▸ hmem))⟩
  obtain ⟨hout₁, hout₂, hout₃⟩ := hother outEnds _ w₂ (fun _ h => h)
    (hout.imp_right fun h => ⟨h.1, h.2.1⟩)
  obtain ⟨herr₁, herr₂, herr₃⟩ := hother errEnds _ w₃ hsub₃ (herr.imp_right fun h => ⟨h.1, h.2.1⟩)
  constructor
  · intro fd hfd
    have hfd₄ : fd ∈ w₄.fds := hsub₄ (hsub₃ (hsub₂ (hsub₁ hfd)))
    refine ⟨hsub₅ hfd₄, hlink fd hfd₄ ?_ ?_ ?_⟩
    · exact fun heq => hin₁ (heq ▸ hfd)
    · exact fun heq => hout₂ (heq ▸ hfd)
    · exact fun heq => herr₂ (heq ▸ hfd)
  · have hin₄ : inEnds.2 ∈ w₄.fds := hsub₄ (hsub₃ hmem)
    exact ⟨inEnds.2, outEnds.1, errEnds.1, rfl, rfl, rfl, hin₂, hout₁, herr₁, hsub₅ hin₄,
      hlink _ hin₄ hne hout₃.symm herr₃.symm⟩

/-- The same when the first ACTIONs have been started. -/
theorem kexecExec_streams {exec exec' : Kexec} {w w' : World}
    (h : kexecExec scheme env exec w = some (exec', w')) : StreamsHeld exec' w w' := by
  obtain ⟨exec₁, w₁, hprepare, hcontinue⟩ := kexecExec_eq_some.mp h
  obtain ⟨hold, i, o, e, hi, ho, he, hi', ho', he', hheld⟩ := kexecPrepare_streams hprepare
  have hrestore : ∀ fd, Held fd exec₁.contexts w₁ →
      Held fd exec₁.contexts (restoreWorld scheme exec₁ w₁) := by
    intro fd hfd
    refine ⟨?_, hfd.avoids⟩
    unfold restoreWorld
    split
    · exact hfd.isOpen
    · exact hfd.isOpen
  cases hcontinue
  exact ⟨fun fd hfd => continueContexts_held (hrestore fd (hold fd hfd)),
    i, o, e, hi, ho, he, hi', ho', he', continueContexts_held (hrestore i hheld)⟩

end Klish.Kexec
