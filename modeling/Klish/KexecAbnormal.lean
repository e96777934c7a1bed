import Klish.KexecFold

/-!
# Abnormal outcomes

An ACTION may be killed by a signal, or the system may refuse to launch it. The retcode the
context has then is 0 or a status that some other step of the same stage has left behind.
-/

namespace Klish

namespace ActionRecord

/-- A selected, really executed ACTION that sets the retcode came to a bad end. -/
def Abnormal (r : ActionRecord) : Prop :=
  r.action.updateRetcode = true ∧ (r.outcome = .refused ∨
    (r.action.isSync = false ∧ ∃ signal core, r.outcome = .ended (.signaled signal core)))

/-- The status a step produces. -/
def status (r : ActionRecord) : Option ℤ :=
  match r.outcome with
  | .simulated => some 0
  | .returned value _ => some value
  | .ended status => some status.exitstatus
  | .started _ | .refused => none

end ActionRecord

namespace Kexec

/-- The statuses the steps of a stage have produced. -/
def statuses (log : List ActionRecord) (stage : ℕ) : List ℤ :=
  (stageLog log stage).filterMap ActionRecord.status

/-- The retcode 0, or one that an earlier step of the stage has left. -/
def IsLeftover (log : List ActionRecord) (stage : ℕ) (retcode : ℤ) : Prop :=
  retcode = 0 ∨ retcode ∈ statuses log stage

/-- The outcome of the step counts as a failure: its retcode is its own and not 0, no ACTION
that is to run on success runs because of it, and the command is not reported to have
succeeded when nothing has set the retcode since. -/
structure CountsAsFailure (before : List ActionRecord) (r : ActionRecord)
    (after : List ActionRecord) (reported : Option ℤ) : Prop where
  nonzero : r.retcode ≠ 0
  own : r.retcode ∉ statuses before r.stage
  notSuccess : ∀ mid next rest, after = mid ++ next :: rest → next.stage = r.stage →
    next.outcome.launches = true → next.action.execOn = .success →
      ∃ u ∈ mid, u.stage = r.stage ∧ u.action.updateRetcode = true
  notReported : reported = some 0 →
    ∃ u ∈ after, u.stage = r.stage ∧ u.action.updateRetcode = true

/-- Every abnormal outcome of the record counts as a failure. -/
def NoFalseSuccess (log : List ActionRecord) (reported : Option ℤ) : Prop :=
  ∀ before r after, log = before ++ r :: after → r.Abnormal →
    CountsAsFailure before r after reported

/-- Every abnormal outcome of the record left 0 or an old status behind. -/
def AllLeftover (log : List ActionRecord) : Prop :=
  ∀ before r after, log = before ++ r :: after → r.Abnormal →
    IsLeftover before r.stage r.retcode

section Append

variable {log : List ActionRecord} {r : ActionRecord} {stage : ℕ} {retcode : ℤ}

theorem IsLeftover.append (h : IsLeftover log stage retcode) :
    IsLeftover (log ++ [r]) stage retcode := by
  rcases h with h | h
  · exact .inl h
  · right
    rw [statuses, stageLog, List.filter_append, List.filterMap_append]
    exact List.mem_append_left _ h

theorem isLeftover_of_status (hr : r.stage = stage) (h : r.status = some retcode) :
    IsLeftover (log ++ [r]) stage retcode := by
  right
  rw [statuses, stageLog_append_own hr, List.filterMap_append]
  simp [h]

theorem AllLeftover.append (h : AllLeftover log)
    (hr : r.Abnormal → IsLeftover log r.stage r.retcode) : AllLeftover (log ++ [r]) := by
  intro before x after heq hx
  rcases List.eq_nil_or_concat after with rfl | ⟨after', last, rfl⟩
  · obtain ⟨rfl, hlast⟩ := List.append_inj' heq rfl
    obtain rfl : r = x := by simpa using hlast
    exact hr hx
  · have heq' : log ++ [r] = (before ++ x :: after') ++ [last] := by simpa using heq
    obtain ⟨rfl, -⟩ := List.append_inj' heq' rfl
    exact h before x after' rfl hx

end Append

/-- What every context of a pipeline keeps. -/
structure LeftoverInv (context : Kcontext) (log : List ActionRecord) : Prop where
  retcode : IsLeftover log context.pipelineStage context.retcode
  current : context.done = false → context.pid ≠ none → context.actionIter ≠ []

variable {scheme : Kscheme} {env : KexecEnv} {dryRun : Bool}

theorem LeftoverInv.mono {context : Kcontext} {log log' : List ActionRecord}
    (h : LeftoverInv context log) (hlog : log <+: log') : LeftoverInv context log' := by
  refine ⟨?_, h.current⟩
  obtain ⟨new, rfl⟩ := hlog
  rcases h.retcode with h | h
  · exact .inl h
  · right
    rw [statuses, stageLog, List.filter_append, List.filterMap_append]
    exact List.mem_append_left _ h

theorem actionLoop_leftover {todo : List Kaction} {exitstatus : ℤ} {context : Kcontext} {w : World}
    (hlog : AllLeftover w.log) (hretcode : IsLeftover w.log context.pipelineStage context.retcode)
    (hexit : IsLeftover w.log context.pipelineStage exitstatus) {context' : Kcontext} {w' : World}
    (h : actionLoop env dryRun todo exitstatus context w = (context', w')) :
    AllLeftover w'.log ∧ LeftoverInv context' w'.log ∧ w.log <+: w'.log := by
  induction todo generalizing exitstatus context w with
  | nil =>
    cases h
    simp only [World.close_log]
    exact ⟨hlog, ⟨by simpa using hretcode, by simp⟩, List.prefix_refl _⟩
  | cons action rest ih =>
    rw [actionLoop] at h
    by_cases hcond : action.meetExecConditions context.retcode = true
    · by_cases hdry : (dryRun && !action.isPermanent) = true
      · simp only [hcond, hdry, Bool.not_true, Bool.false_eq_true, ↓reduceIte] at h
        have hrest : AllLeftover w'.log ∧ LeftoverInv context' w'.log ∧ _ <+: w'.log :=
          ih ?_ ?_ ?_ h
        · exact ⟨hrest.1, hrest.2.1, (List.prefix_append _ _).trans hrest.2.2⟩
        · apply hlog.append
          intro habnormal
          simp [ActionRecord.Abnormal] at habnormal
        · cases action.updateRetcode with
          | true => exact .inl rfl
          | false => exact hretcode.append
        · exact .inl rfl
      · have hdry' : (dryRun && !action.isPermanent) = false := by simpa using hdry
        have hspec := execAction_spec env { context with actionIter := action :: rest } action
          exitstatus w
        simp only [hcond, hdry', Bool.not_true, Bool.false_eq_true, ↓reduceIte] at h
        generalize execAction env { context with actionIter := action :: rest } action exitstatus
          w = launch at hspec h
        cases hspec with
        | silent value session hsync =>
          simp only [hsync, Bool.true_and] at h
          have hrest : AllLeftover w'.log ∧ LeftoverInv context' w'.log ∧ _ <+: w'.log :=
            ih ?_ ?_ ?_ h
          · exact ⟨hrest.1, hrest.2.1, (List.prefix_append _ _).trans hrest.2.2⟩
          · apply hlog.append
            intro habnormal
            simp [ActionRecord.Abnormal] at habnormal
          · cases action.updateRetcode with
            | true => exact isLeftover_of_status rfl rfl
            | false => exact hretcode.append
          · exact isLeftover_of_status rfl rfl
        | sync value session pid hsync hfresh =>
          simp only [hsync, Bool.true_and] at h
          obtain ⟨rfl, rfl⟩ := Prod.mk.inj h
          refine ⟨hlog.append fun habnormal => ?_, ⟨?_, by simp⟩, List.prefix_append _ _⟩
          · simp [ActionRecord.Abnormal] at habnormal
          · cases action.updateRetcode with
            | true => exact isLeftover_of_status rfl rfl
            | false => exact hretcode.append
        | async pid hsync hfresh =>
          simp only [hsync, Bool.false_and, Bool.false_eq_true, ↓reduceIte] at h
          obtain ⟨rfl, rfl⟩ := Prod.mk.inj h
          refine ⟨hlog.append fun habnormal => ?_, ⟨hretcode.append, by simp⟩,
            List.prefix_append _ _⟩
          simp [ActionRecord.Abnormal] at habnormal
        | refused hrefused =>
          -- The retcode stays, or takes the status that was left in the local variable.
          have hkept : IsLeftover w.log context.pipelineStage
              (if (action.isSync && action.updateRetcode) = true then exitstatus
                else context.retcode) := by
            split
            · exact hexit
            · exact hretcode
          have hrest : AllLeftover w'.log ∧ LeftoverInv context' w'.log ∧ _ <+: w'.log :=
            ih ?_ ?_ ?_ h
          · exact ⟨hrest.1, hrest.2.1, (List.prefix_append _ _).trans hrest.2.2⟩
          · exact hlog.append fun _ => hkept
          · exact hkept.append
          · exact hexit.append
    · have hcond' : action.meetExecConditions context.retcode = false := by simpa using hcond
      simp only [hcond', Bool.not_false, ↓reduceIte] at h
      refine ih ?_ ?_ ?_ h
      · exact hlog
      · exact hretcode
      · exact hexit

theorem noteTermination_leftover {context : Kcontext} {status : WaitStatus} {w : World}
    (hlog : AllLeftover w.log) (hinv : LeftoverInv context w.log)
    (hcurrent : context.actionIter ≠ []) {context' : Kcontext} {w' : World}
    (h : noteTermination context status w = (context', w')) :
    AllLeftover w'.log ∧ IsLeftover w'.log context'.pipelineStage context'.retcode ∧
      IsLeftover w'.log context'.pipelineStage status.exitstatus ∧ w.log <+: w'.log := by
  unfold noteTermination at h
  split at h
  · rename_i hnil
    exact absurd hnil hcurrent
  · rename_i terminated rest _
    obtain ⟨rfl, rfl⟩ := Prod.mk.inj h
    refine ⟨hlog.append fun habnormal => ?_, ?_, isLeftover_of_status rfl rfl,
      List.prefix_append _ _⟩
    · obtain ⟨hupdate, hbad⟩ := habnormal
      obtain ⟨hsync, signal, core, hended⟩ : terminated.isSync = false ∧ ∃ signal core,
          (.ended status : ActionOutcome) = .ended (.signaled signal core) := by
        simpa using hbad
      obtain rfl : status = .signaled signal core := by simpa using hended
      left
      have hupdate' : terminated.updateRetcode = true := hupdate
      simp [hsync, hupdate', WaitStatus.exitstatus_signaled]
    · cases !terminated.isSync && terminated.updateRetcode with
      | true => exact isLeftover_of_status rfl rfl
      | false => exact hinv.retcode.append

theorem execActionSequence_leftover {context : Kcontext} {pid : Option Pid} {status : WaitStatus}
    {w : World} (hlog : AllLeftover w.log) (hinv : LeftoverInv context w.log)
    (hstart : pid = none → status.exitstatus = 0) {found : Bool} {context' : Kcontext} {w' : World}
    (h : execActionSequence scheme env dryRun context pid status w = (found, context', w')) :
    AllLeftover w'.log ∧ LeftoverInv context' w'.log ∧ w.log <+: w'.log := by
  unfold execActionSequence at h
  split at h
  · cases h
    exact ⟨hlog, hinv, List.prefix_refl _⟩
  · rename_i howns
    obtain ⟨hdone, hpid⟩ : context.done = false ∧ context.pid = pid := by simpa using howns
    obtain ⟨context₁, w₁, hnote⟩ : ∃ context₁ w₁,
        noteTermination context status w = (context₁, w₁) := ⟨_, _, rfl⟩
    obtain ⟨hlog₁, hretcode₁, hexit₁, hstarts⟩ : AllLeftover w₁.log ∧
        IsLeftover w₁.log context₁.pipelineStage context₁.retcode ∧
        IsLeftover w₁.log context₁.pipelineStage status.exitstatus ∧ w.log <+: w₁.log := by
      by_cases hnil : context.actionIter = []
      · obtain ⟨rfl, rfl⟩ : context₁ = context ∧ w₁ = w := by
          simpa [noteTermination, hnil, eq_comm] using hnote
        have hnone : pid = none := by
          by_contra hne
          exact hinv.current hdone (hpid ▸ hne) hnil
        exact ⟨hlog, hinv.retcode, .inl (hstart hnone), List.prefix_refl _⟩
      · exact noteTermination_leftover hlog hinv hnil hnote
    simp only [hnote, Prod.mk.injEq] at h
    obtain ⟨hlog', hinv', hstarts'⟩ := actionLoop_leftover hlog₁ hretcode₁ hexit₁ h.2
    exact ⟨hlog', hinv', hstarts.trans hstarts'⟩

theorem continueContexts_leftover {contexts : List Kcontext} {pid : Option Pid}
    {status : WaitStatus} {w : World} (hlog : AllLeftover w.log)
    (hinv : ∀ context ∈ contexts, LeftoverInv context w.log)
    (hstart : pid = none → status.exitstatus = 0) {contexts' : List Kcontext} {w' : World}
    (h : continueContexts scheme env dryRun pid status contexts w = (contexts', w')) :
    AllLeftover w'.log ∧ (∀ context ∈ contexts', LeftoverInv context w'.log) ∧
      w.log <+: w'.log := by
  induction contexts generalizing w contexts' with
  | nil =>
    cases h
    exact ⟨hlog, hinv, List.prefix_refl _⟩
  | cons context contexts ih =>
    obtain ⟨found, context₁, w₁, hstep⟩ : ∃ found context₁ w₁,
        execActionSequence scheme env dryRun context pid status w = (found, context₁, w₁) :=
      ⟨_, _, _, rfl⟩
    obtain ⟨hlog₁, hinv₁, hstarts⟩ :=
      execActionSequence_leftover hlog (hinv context List.mem_cons_self) hstart hstep
    have htail : ∀ c ∈ contexts, LeftoverInv c w₁.log := fun c hc =>
      (hinv c (List.mem_cons_of_mem _ hc)).mono hstarts
    simp only [continueContexts, hstep] at h
    split at h
    · cases h
      refine ⟨hlog₁, fun c hc => ?_, hstarts⟩
      rcases List.mem_cons.mp hc with rfl | hc
      · exact hinv₁
      · exact htail c hc
    · obtain ⟨contexts₂, w₂, hrest⟩ : ∃ contexts₂ w₂,
          continueContexts scheme env dryRun pid status contexts w₁ = (contexts₂, w₂) :=
        ⟨_, _, rfl⟩
      simp only [hrest, Prod.mk.injEq] at h
      obtain ⟨rfl, rfl⟩ := h
      obtain ⟨hlog₂, hinv₂, hstarts₂⟩ := ih hlog₁ htail hrest
      refine ⟨hlog₂, fun c hc => ?_, hstarts.trans hstarts₂⟩
      rcases List.mem_cons.mp hc with rfl | hc
      · exact hinv₁.mono hstarts₂
      · exact hinv₂ c hc

variable {exec exec₁ exec' : Kexec} {w w₁ w' : World}

theorem kexecExec_leftover (hidle : ∀ context ∈ exec.contexts, Idle context) (hlog : w.log = [])
    (h : kexecExec scheme env exec w = some (exec₁, w₁)) :
    AllLeftover w₁.log ∧ ∀ context ∈ exec₁.contexts, LeftoverInv context w₁.log := by
  obtain ⟨exec₂, w₂, hprepare, hcontinue⟩ := kexecExec_eq_some.mp h
  obtain ⟨-, -, hmap, hw₂⟩ := kexecPrepare_spec hprepare
  have hempty : (restoreWorld scheme exec₂ w₂).log = [] := by
    rw [restoreWorld_log, hw₂]
    exact hlog
  have hinv : ∀ context ∈ exec₂.contexts,
      LeftoverInv context (restoreWorld scheme exec₂ w₂).log := by
    intro context hc
    have hi := idle_of_withoutStreams hmap hidle context hc
    refine ⟨.inl hi.retcode, fun _ hpid => absurd hi.pid hpid⟩
  have hnone : AllLeftover (restoreWorld scheme exec₂ w₂).log := by
    intro before r after heq
    rw [hempty] at heq
    simp at heq
  obtain ⟨contexts', w₃, hstart⟩ : ∃ contexts' w₃, continueContexts scheme env exec₂.dryRun none
      .zero exec₂.contexts (restoreWorld scheme exec₂ w₂) = (contexts', w₃) := ⟨_, _, rfl⟩
  rw [kexecContinueCommandExecution, hstart] at hcontinue
  obtain ⟨rfl, rfl⟩ := Prod.mk.inj hcontinue
  obtain ⟨hlog', hinv', -⟩ := continueContexts_leftover hnone hinv (fun _ => rfl) hstart
  exact ⟨hlog', hinv'⟩

/-- A run meets the law of abnormal outcomes only if it has no such outcome. -/
theorem abnormal_outcome_iff {events : List (Pid × WaitStatus)}
    (hidle : ∀ context ∈ exec.contexts, Idle context) (hlog : w.log = [])
    (hexec : kexecExec scheme env exec w = some (exec₁, w₁))
    (hrun : Runs.run (step scheme env) (exec₁, w₁) events = some (exec', w')) :
    NoFalseSuccess w'.log (kexecRetcode exec') ↔ ∀ r ∈ w'.log, ¬ r.Abnormal := by
  have hinv : AllLeftover w'.log ∧ ∀ context ∈ exec'.contexts, LeftoverInv context w'.log := by
    refine Runs.run_invariant (I := fun s : Kexec × World => AllLeftover s.2.log ∧
      ∀ context ∈ s.1.contexts, LeftoverInv context s.2.log) ?_ (kexecExec_leftover hidle hlog hexec)
      hrun
    rintro ⟨e, v⟩ ⟨pid, status⟩ t ⟨hlog, hinv⟩ hstep
    obtain ⟨contexts', v', hcontinue⟩ : ∃ contexts' v', continueContexts scheme env e.dryRun
        (some pid) status e.contexts { v with live := v.live.erase pid } = (contexts', v') :=
      ⟨_, _, rfl⟩
    rw [step, childEnded, kexecContinueCommandExecution, hcontinue, Option.some.injEq] at hstep
    subst hstep
    obtain ⟨hlog', hinv', -⟩ := continueContexts_leftover (w := { v with live := v.live.erase pid })
      hlog hinv (by simp) hcontinue
    exact ⟨hlog', hinv'⟩
  constructor
  · intro h r hr habnormal
    obtain ⟨before, after, heq⟩ := List.append_of_mem hr
    have hfailure := h before r after heq habnormal
    rcases hinv.1 before r after heq habnormal with hzero | hold
    · exact hfailure.nonzero hzero
    · exact hfailure.own hold
  · intro h before r after heq habnormal
    refine absurd habnormal (h r ?_)
    rw [heq]
    simp

theorem abnormal_outcome_iff_sample : ∃ exec₁ w₁ exec' w',
    kexecExec Ksession.sampleScheme (sampleEnv fun _ => false) (samplePipeline 4) sampleWorld =
      some (exec₁, w₁) ∧
    Runs.run (step Ksession.sampleScheme (sampleEnv fun _ => false)) (exec₁, w₁)
      [(1, .exited 3)] = some (exec', w') ∧
    (NoFalseSuccess w'.log (kexecRetcode exec') ↔ ∀ r ∈ w'.log, ¬ r.Abnormal) := by
  have hstart : (kexecExec Ksession.sampleScheme (sampleEnv fun _ => false) (samplePipeline 4)
      sampleWorld).isSome = true := by decide
  obtain ⟨⟨exec₁, w₁⟩, hexec⟩ := Option.isSome_iff_exists.mp hstart
  have hidle : ∀ context ∈ (samplePipeline 4).contexts, Idle context := by
    intro context hc
    rw [List.mem_singleton.mp hc]
    exact ⟨rfl, rfl, rfl, rfl⟩
  obtain ⟨⟨exec', w'⟩, hrun⟩ : ∃ s, Runs.run (step Ksession.sampleScheme
      (sampleEnv fun _ => false)) (exec₁, w₁) [(1, .exited 3)] = some s := ⟨_, rfl⟩
  exact ⟨exec₁, w₁, exec', w', hexec, hrun, abnormal_outcome_iff hidle rfl hexec hrun⟩

/-- The process of the command `b` is killed by signal 9, and the command has succeeded. -/
theorem killed_action_succeeds : ∃ exec₁ w₁ exec' w',
    kexecExec Ksession.sampleScheme (sampleEnv fun _ => false) (samplePipeline 4) sampleWorld =
      some (exec₁, w₁) ∧
    Runs.run (step Ksession.sampleScheme (sampleEnv fun _ => false)) (exec₁, w₁)
      [(1, .signaled 9 false)] = some (exec', w') ∧
    kexecRetcode exec' = some 0 ∧ ¬ NoFalseSuccess w'.log (kexecRetcode exec') := by
  have hrun : ((kexecExec Ksession.sampleScheme (sampleEnv fun _ => false) (samplePipeline 4)
      sampleWorld).bind fun s => Runs.run (step Ksession.sampleScheme (sampleEnv fun _ => false)) s
        [(1, .signaled 9 false)]).map (fun s => (s.2.log, kexecRetcode s.1)) =
      some ([⟨0, 0, .new, .started 1, 0⟩, ⟨0, 0, .new, .ended (.signaled 9 false), 0⟩], some 0) := by
    decide
  obtain ⟨⟨exec', w'⟩, hbind, heq⟩ := Option.map_eq_some_iff.mp hrun
  obtain ⟨⟨exec₁, w₁⟩, hexec, hrun'⟩ := Option.bind_eq_some_iff.mp hbind
  obtain ⟨hlog, hretcode⟩ := Prod.mk.inj heq
  refine ⟨exec₁, w₁, exec', w', hexec, hrun', hretcode, fun h => ?_⟩
  have hkilled : ActionRecord.Abnormal ⟨0, 0, .new, .ended (.signaled 9 false), 0⟩ :=
    ⟨rfl, .inr ⟨rfl, 9, false, rfl⟩⟩
  exact (h [⟨0, 0, .new, .started 1, 0⟩] _ [] hlog hkilled).nonzero rfl

end Kexec

end Klish
