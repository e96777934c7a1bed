import Klish.KexecHistory
import Klish.Lib.Runs
import Klish.ParseConservation

/-!
# ACTION sequences as a fold

Whatever order the children of a pipeline end in, each context runs the ACTIONs that the
documented fold selects, one after another.
-/

namespace Klish.Kexec

variable {scheme : Kscheme} {env : KexecEnv} {dryRun : Bool}

variable (scheme dryRun) in
/-- A context that has come to the end of its list. -/
structure Finished (context : Kcontext) (log : List ActionRecord) : Prop where
  done : context.done = true
  between : Between dryRun (commandActions scheme context) context.pipelineStage [] context.retcode
    log

variable (scheme dryRun) in
/-- A context whose current ACTION has a process. -/
structure Busy (context : Kcontext) (log : List ActionRecord) (pid : Pid) : Prop where
  done : context.done = false
  waits : waitsFor log context.pipelineStage = some pid
  pid : context.pid = some pid
  running : ∃ action rest, context.actionIter = action :: rest ∧
    Running dryRun (commandActions scheme context) context.pipelineStage action rest context.retcode
      log

/-- The command and the stage of a context are fixed. -/
def SameStage (context context' : Kcontext) : Prop :=
  context'.pargv = context.pargv ∧ context'.pipelineStage = context.pipelineStage

variable (scheme dryRun) in
/-- What the loop over the ACTIONs leaves behind. -/
structure Advanced (context : Kcontext) (w : World) (context' : Kcontext) (w' : World) : Prop where
  same : SameStage context context'
  others : ∀ stage, stage ≠ context.pipelineStage → stageLog w'.log stage = stageLog w.log stage
  result : (Finished scheme dryRun context' w'.log ∧ w'.live = w.live) ∨
    ∃ pid, pid ∉ w.live ∧ w'.live = pid :: w.live ∧ Busy scheme dryRun context' w'.log pid

/-- Running on from a later point of the same context. -/
theorem Advanced.of_later {context context₁ context' : Kcontext} {w w₁ w' : World}
    (h : Advanced scheme dryRun context₁ w₁ context' w') (hsame : SameStage context context₁)
    (hlive : w₁.live = w.live)
    (hothers : ∀ stage, stage ≠ context.pipelineStage →
      stageLog w₁.log stage = stageLog w.log stage) :
    Advanced scheme dryRun context w context' w' := by
  refine ⟨⟨h.same.1.trans hsame.1, h.same.2.trans hsame.2⟩, fun stage hstage => ?_, ?_⟩
  · rw [h.others stage (by rw [hsame.2]; exact hstage), hothers stage hstage]
  · rw [← hlive]
    exact h.result

theorem actionLoop_spec (hlaunch : ∀ w context action, env.refused w context action = false)
    {todo : List Kaction} (exitstatus : ℤ) {context : Kcontext} {w : World}
    (hdone : context.done = false)
    (h : Between dryRun (commandActions scheme context) context.pipelineStage todo context.retcode
      w.log) :
    Advanced scheme dryRun context w (actionLoop env dryRun todo exitstatus context w).1
      (actionLoop env dryRun todo exitstatus context w).2 := by
  induction todo generalizing exitstatus context w with
  | nil =>
    refine ⟨⟨rfl, rfl⟩, fun stage _ => by simp [actionLoop, finish], .inl ⟨⟨rfl, ?_⟩, ?_⟩⟩
    · simpa [actionLoop, finish, commandActions] using h
    · simp [actionLoop, finish]
  | cons action rest ih =>
    rw [actionLoop]
    by_cases hcond : action.meetExecConditions context.retcode = true
    · by_cases hdry : (dryRun && !action.isPermanent) = true
      · simp only [hcond, hdry, Bool.not_true, Bool.false_eq_true, ↓reduceIte]
        refine Advanced.of_later (ih _ ?_ ?_) ⟨rfl, rfl⟩ rfl fun stage hstage => ?_
        · exact hdone
        · exact h.simulate hcond hdry rfl rfl
        · exact stageLog_append_other hstage.symm
      · have hdry' : (dryRun && !action.isPermanent) = false := by simpa using hdry
        have hspec := execAction_spec env { context with actionIter := action :: rest } action
          exitstatus w
        simp only [hcond, hdry', Bool.not_true, Bool.false_eq_true, ↓reduceIte]
        generalize execAction env { context with actionIter := action :: rest } action exitstatus
          w = launch at hspec
        cases hspec with
        | silent value session hsync =>
          simp only [hsync, Bool.true_and]
          refine Advanced.of_later (ih _ ?_ ?_) ⟨rfl, rfl⟩ rfl fun stage hstage => ?_
          · exact hdone
          · exact h.returned hcond hdry' rfl rfl rfl
          · exact stageLog_append_other hstage.symm
        | sync value session pid hsync hfresh =>
          simp only [hsync, Bool.true_and]
          refine ⟨⟨rfl, rfl⟩, fun stage hstage => stageLog_append_other hstage.symm,
            .inr ⟨pid, hfresh, rfl, hdone, waitsFor_append_own rfl, rfl, action, rest, rfl, ?_⟩⟩
          exact h.forked hcond hdry' rfl rfl rfl (.inr ⟨value, pid, hsync, rfl, rfl⟩)
        | async pid hsync hfresh =>
          simp only [hsync, Bool.false_and, Bool.false_eq_true, ↓reduceIte]
          refine ⟨⟨rfl, rfl⟩, fun stage hstage => stageLog_append_other hstage.symm,
            .inr ⟨pid, hfresh, rfl, hdone, waitsFor_append_own rfl, rfl, action, rest, rfl, ?_⟩⟩
          exact h.forked hcond hdry' rfl rfl rfl (.inl ⟨pid, hsync, rfl, rfl⟩)
        | refused hrefused =>
          rw [hlaunch] at hrefused
          exact absurd hrefused (by simp)
    · have hcond' : action.meetExecConditions context.retcode = false := by simpa using hcond
      simp only [hcond', Bool.not_false, ↓reduceIte]
      refine Advanced.of_later (ih _ ?_ ?_) ⟨rfl, rfl⟩ rfl fun _ _ => rfl
      · exact hdone
      · exact h.skip hcond'

/-- The process number is that of a context that is not done. -/
def Owns (context : Kcontext) (pid : Option Pid) : Prop :=
  context.done = false ∧ context.pid = pid

theorem execActionSequence_foreign {context : Kcontext} {pid : Option Pid} {status : WaitStatus}
    {w : World} (h : ¬ Owns context pid) :
    execActionSequence scheme env dryRun context pid status w = (false, context, w) := by
  unfold Owns at h
  rw [execActionSequence, if_pos]
  cases hdone : context.done <;> simp_all

/-- A context as the parser has made it, except for its streams. -/
structure Idle (context : Kcontext) : Prop where
  done : context.done = false
  pid : context.pid = none
  actionIter : context.actionIter = []
  retcode : context.retcode = 0

theorem idle_of_withoutStreams {contexts contexts' : List Kcontext}
    (hmap : contexts'.map Kcontext.withoutStreams = contexts.map Kcontext.withoutStreams)
    (h : ∀ context ∈ contexts, Idle context) : ∀ context ∈ contexts', Idle context := by
  intro context hc
  have hmem : context.withoutStreams ∈ contexts.map Kcontext.withoutStreams :=
    hmap ▸ List.mem_map_of_mem hc
  obtain ⟨original, horiginal, heq⟩ := List.mem_map.mp hmem
  have hidle := h original horiginal
  refine ⟨?_, ?_, ?_, ?_⟩
  · exact (congrArg Kcontext.done heq).symm.trans hidle.done
  · exact (congrArg Kcontext.pid heq).symm.trans hidle.pid
  · exact (congrArg Kcontext.actionIter heq).symm.trans hidle.actionIter
  · exact (congrArg Kcontext.retcode heq).symm.trans hidle.retcode

theorem execActionSequence_start (hlaunch : ∀ w context action, env.refused w context action = false)
    {context : Kcontext} {status : WaitStatus} {w : World} (h : Idle context)
    (hlog : stageLog w.log context.pipelineStage = []) :
    ∃ context' w', execActionSequence scheme env dryRun context none status w =
        (true, context', w') ∧ Advanced scheme dryRun context w context' w' := by
  have hbetween : Between dryRun (commandActions scheme context) context.pipelineStage
      (commandActions scheme context) context.retcode w.log := by
    rw [h.retcode]
    exact .initial dryRun _ hlog
  refine ⟨_, _, ?_, actionLoop_spec hlaunch status.exitstatus h.done hbetween⟩
  simp [execActionSequence, h.done, h.pid, h.actionIter, noteTermination]

theorem execActionSequence_continue
    (hlaunch : ∀ w context action, env.refused w context action = false)
    {context : Kcontext} {pid : Pid} {status : WaitStatus} {w : World}
    (h : Busy scheme dryRun context w.log pid) :
    ∃ context' w', execActionSequence scheme env dryRun context (some pid) status w =
        (true, context', w') ∧ Advanced scheme dryRun context w context' w' := by
  obtain ⟨action, rest, hiter, hrunning⟩ := h.running
  let record : ActionRecord := ⟨context.pipelineStage, rest.length, action, .ended status,
    retcodeAfter action context.retcode status.exitstatus⟩
  let context₁ : Kcontext :=
    { context with retcode := retcodeAfter action context.retcode status.exitstatus }
  have hnote : noteTermination context status w = (context₁, w.record record) := by
    unfold noteTermination
    split
    · rename_i hnil
      simp [hnil] at hiter
    · rename_i terminated rest' hcons
      obtain ⟨rfl, rfl⟩ : terminated = action ∧ rest' = rest := by simpa [hcons] using hiter
      rfl
  have hbetween : Between dryRun (commandActions scheme context₁) context₁.pipelineStage rest
      context₁.retcode (w.record record).log := hrunning.terminate rfl rfl rfl rfl
  have hdone : context₁.done = false := h.done
  have hloop := actionLoop_spec hlaunch status.exitstatus hdone hbetween
  refine ⟨_, _, ?_, hloop.of_later ⟨rfl, rfl⟩ rfl fun stage hstage =>
    stageLog_append_other hstage.symm⟩
  simp [execActionSequence, h.done, h.pid, hnote, hiter]

theorem continueContexts_foreign {contexts : List Kcontext} {pid : Option Pid}
    {status : WaitStatus} {w : World} (h : ∀ context ∈ contexts, ¬ Owns context pid) :
    continueContexts scheme env dryRun pid status contexts w = (contexts, w) := by
  induction contexts with
  | nil => rfl
  | cons context contexts ih =>
    have hrest := ih fun context hc => h context (List.mem_cons_of_mem _ hc)
    rw [continueContexts, execActionSequence_foreign (h context List.mem_cons_self)]
    simp [hrest]

theorem continueContexts_owner {before after : List Kcontext} {context context' : Kcontext}
    {pid : Pid} {status : WaitStatus} {w w' : World}
    (hbefore : ∀ context ∈ before, ¬ Owns context (some pid))
    (h : execActionSequence scheme env dryRun context (some pid) status w = (true, context', w')) :
    continueContexts scheme env dryRun (some pid) status (before ++ context :: after) w =
      (before ++ context' :: after, w') := by
  induction before with
  | nil => simp [continueContexts, h]
  | cons first before ih =>
    have hrest := ih fun context hc => hbefore context (List.mem_cons_of_mem _ hc)
    rw [List.cons_append, continueContexts,
      execActionSequence_foreign (hbefore first List.mem_cons_self)]
    simp [hrest]

variable (scheme dryRun) in
/-- A context that has been started. -/
def Started (context : Kcontext) (w : World) : Prop :=
  Finished scheme dryRun context w.log ∨ ∃ pid ∈ w.live, Busy scheme dryRun context w.log pid

/-- What happens in other stages does not matter to a context. -/
theorem Started.frame {context : Kcontext} {w w' : World} (h : Started scheme dryRun context w)
    (hlog : stageLog w'.log context.pipelineStage = stageLog w.log context.pipelineStage)
    (hlive : ∀ pid ∈ w.live, Owns context (some pid) → pid ∈ w'.live) :
    Started scheme dryRun context w' := by
  rcases h with h | ⟨pid, hpid, h⟩
  · exact .inl ⟨h.done, h.between.congr hlog⟩
  · obtain ⟨action, rest, hiter, hrunning⟩ := h.running
    have hwaits : waitsFor w'.log context.pipelineStage = some pid := by
      rw [waitsFor, hlog]
      exact h.waits
    exact .inr ⟨pid, hlive pid hpid ⟨h.done, h.pid⟩, h.done, hwaits, h.pid, action, rest, hiter,
      hrunning.congr hlog⟩

theorem Advanced.started {context context' : Kcontext} {w w' : World}
    (h : Advanced scheme dryRun context w context' w') : Started scheme dryRun context' w' := by
  rcases h.result with ⟨hfin, _⟩ | ⟨pid, _, hlive, hbusy⟩
  · exact .inl hfin
  · refine .inr ⟨pid, ?_, hbusy⟩
    rw [hlive]
    exact List.mem_cons_self

theorem Advanced.live_subset {context context' : Kcontext} {w w' : World}
    (h : Advanced scheme dryRun context w context' w') : w.live ⊆ w'.live := by
  rcases h.result with ⟨_, hlive⟩ | ⟨pid, _, hlive, _⟩ <;> rw [hlive]
  · exact List.Subset.refl _
  · exact List.subset_cons_self _ _

/-- A process a context owns after its step is a new one. -/
theorem Advanced.owns_fresh {context context' : Kcontext} {w w' : World} {pid : Pid}
    (h : Advanced scheme dryRun context w context' w') (howns : Owns context' (some pid)) :
    pid ∉ w.live ∧ pid ∈ w'.live := by
  rcases h.result with ⟨hfin, _⟩ | ⟨pid', hfresh, hlive, hbusy⟩
  · have := hfin.done.symm.trans howns.1
    simp at this
  · have heq : pid' = pid := Option.some.inj (hbusy.pid.symm.trans howns.2)
    rw [← heq, hlive]
    exact ⟨hfresh, List.mem_cons_self⟩

theorem Started.owns_live {context : Kcontext} {w : World} {pid : Pid}
    (h : Started scheme dryRun context w) (howns : Owns context (some pid)) : pid ∈ w.live := by
  rcases h with h | ⟨pid', hpid, h⟩
  · have := h.done.symm.trans howns.1
    simp at this
  · have heq : pid' = pid := Option.some.inj (h.pid.symm.trans howns.2)
    exact heq ▸ hpid

/-- The owner of a process is the context that waits for it. -/
theorem Started.busy {context : Kcontext} {w : World} {pid : Pid}
    (h : Started scheme dryRun context w) (howns : Owns context (some pid)) :
    Busy scheme dryRun context w.log pid := by
  rcases h with h | ⟨pid', -, h⟩
  · have := h.done.symm.trans howns.1
    simp at this
  · obtain rfl : pid' = pid := Option.some.inj (h.pid.symm.trans howns.2)
    exact h

theorem Started.owns_of_waitsFor {context : Kcontext} {w : World} {pid : Pid}
    (h : Started scheme dryRun context w)
    (hwaits : waitsFor w.log context.pipelineStage = some pid) : Owns context (some pid) := by
  rcases h with h | ⟨pid', -, h⟩
  · obtain ⟨last, hlast, hchild⟩ := Option.bind_eq_some_iff.mp hwaits
    rw [child_eq_none (h.between.settled last hlast)] at hchild
    cases hchild
  · exact ⟨h.done, h.pid.trans (h.waits.symm.trans hwaits)⟩

variable (scheme dryRun) in
/-- The invariant of a pipeline in execution. -/
structure PipelineInv (contexts : List Kcontext) (w : World) : Prop where
  stages : (contexts.map Kcontext.pipelineStage).Nodup
  started : ∀ context ∈ contexts, Started scheme dryRun context w
  owners : contexts.Pairwise fun c d => ∀ pid, Owns c (some pid) → ¬ Owns d (some pid)

theorem stages_eq {contexts : List Kcontext} :
    contexts.map Kcontext.pipelineStage = (stageCommands contexts).map Prod.snd := by
  simp [stageCommands]

theorem continueContexts_start
    (hlaunch : ∀ w context action, env.refused w context action = false) {status : WaitStatus}
    {contexts : List Kcontext} {w : World} (hidle : ∀ context ∈ contexts, Idle context)
    (hstages : (contexts.map Kcontext.pipelineStage).Nodup)
    (hlog : ∀ context ∈ contexts, stageLog w.log context.pipelineStage = []) :
    ∃ contexts' w', continueContexts scheme env dryRun none status contexts w = (contexts', w') ∧
      stageCommands contexts' = stageCommands contexts ∧
      PipelineInv scheme dryRun contexts' w' ∧ w.live ⊆ w'.live ∧
      (∀ context ∈ contexts', ∀ pid, Owns context (some pid) → pid ∉ w.live) ∧
      ∀ stage, stage ∉ contexts.map Kcontext.pipelineStage →
        stageLog w'.log stage = stageLog w.log stage := by
  induction contexts generalizing w with
  | nil => exact ⟨[], w, rfl, rfl, ⟨hstages, by simp, .nil⟩, List.Subset.refl _, by simp, by simp⟩
  | cons context contexts ih =>
    obtain ⟨hnew, hstages'⟩ := List.nodup_cons.mp hstages
    obtain ⟨context₁, w₁, hstep, hadv⟩ : ∃ context₁ w₁,
        execActionSequence scheme env dryRun context none status w = (true, context₁, w₁) ∧
          Advanced scheme dryRun context w context₁ w₁ :=
      execActionSequence_start hlaunch (hidle context List.mem_cons_self)
        (hlog context List.mem_cons_self)
    have hlog₁ : ∀ c ∈ contexts, stageLog w₁.log c.pipelineStage = [] := by
      intro c hc
      rw [hadv.others, hlog c (List.mem_cons_of_mem _ hc)]
      intro heq
      exact hnew (heq ▸ List.mem_map_of_mem hc)
    obtain ⟨contexts', w', hrest, hsame, hinv, hlive, hfresh, hothers⟩ :=
      ih (fun c hc => hidle c (List.mem_cons_of_mem _ hc)) hstages' hlog₁
    have hstage₁ : context₁.pipelineStage = context.pipelineStage := hadv.same.2
    refine ⟨context₁ :: contexts', w', ?_, ?_, ⟨?_, ?_, ?_⟩, ?_, ?_, ?_⟩
    · rw [continueContexts, hstep]
      simp [hrest]
    · simp only [stageCommands, List.map_cons, hadv.same.1, hstage₁]
      exact congrArg _ hsame
    · rw [stages_eq] at hstages' hnew
      rw [List.map_cons, List.nodup_cons, hstage₁, stages_eq, hsame]
      exact ⟨hnew, hstages'⟩
    · intro c hc
      rcases List.mem_cons.mp hc with rfl | hc
      · refine hadv.started.frame ?_ fun pid hpid _ => hlive hpid
        rw [hstage₁]
        exact hothers _ hnew
      · exact hinv.started c hc
    · rw [List.pairwise_cons]
      refine ⟨fun d hd pid howns howns' => ?_, hinv.owners⟩
      exact hfresh d hd pid howns' (hadv.owns_fresh howns).2
    · exact List.Subset.trans hadv.live_subset hlive
    · intro c hc pid howns
      rcases List.mem_cons.mp hc with rfl | hc
      · exact (hadv.owns_fresh howns).1
      · exact fun hmem => hfresh c hc pid howns (hadv.live_subset hmem)
    · intro stage hstage
      rw [List.map_cons, List.mem_cons, not_or] at hstage
      rw [hothers stage hstage.2, hadv.others stage hstage.1]

theorem childEnded_preserves
    (hlaunch : ∀ w context action, env.refused w context action = false)
    {contexts : List Kcontext} {w : World} (h : PipelineInv scheme dryRun contexts w) (pid : Pid)
    (status : WaitStatus) :
    ∃ contexts' w', continueContexts scheme env dryRun (some pid) status contexts
        { w with live := w.live.erase pid } = (contexts', w') ∧
      stageCommands contexts' = stageCommands contexts ∧ PipelineInv scheme dryRun contexts' w' := by
  by_cases howned : ∃ context ∈ contexts, Owns context (some pid)
  · obtain ⟨context, hmem, howns⟩ := howned
    obtain ⟨before, after, rfl⟩ := List.append_of_mem hmem
    obtain ⟨hbefore, hafter, hcross⟩ := List.pairwise_append.mp h.owners
    obtain ⟨hcontext, hafter'⟩ := List.pairwise_cons.mp hafter
    obtain ⟨context', w', hstep, hadv⟩ : ∃ context' w',
        execActionSequence scheme env dryRun context (some pid) status
            { w with live := w.live.erase pid } = (true, context', w') ∧
          Advanced scheme dryRun context { w with live := w.live.erase pid } context' w' :=
      execActionSequence_continue hlaunch ((h.started context hmem).busy howns)
    have hstage : context'.pipelineStage = context.pipelineStage := hadv.same.2
    -- Another context keeps its process and its part of the record.
    have hother : ∀ d ∈ before ++ after, Started scheme dryRun d w' ∧
        ∀ q, Owns d (some q) → q ∈ w.live.erase pid := by
      intro d hd
      have hmem' : d ∈ before ++ context :: after := by
        rcases List.mem_append.mp hd with hd | hd <;> simp [hd]
      have hne : d.pipelineStage ≠ context.pipelineStage := by
        have hnodup := h.stages
        rw [List.map_append, List.map_cons, List.perm_middle.nodup_iff, ← List.map_append,
          List.nodup_cons] at hnodup
        intro heq
        exact hnodup.1 (heq ▸ List.mem_map_of_mem hd)
      have hkeeps : ∀ q, Owns d (some q) → q ∈ w.live.erase pid := by
        intro q hq
        have hqne : q ≠ pid := by
          rintro rfl
          rcases List.mem_append.mp hd with hd | hd
          · exact hcross d hd context List.mem_cons_self q hq howns
          · exact hcontext d hd q howns hq
        exact (List.mem_erase_of_ne hqne).mpr ((h.started d hmem').owns_live hq)
      refine ⟨(h.started d hmem').frame (hadv.others _ hne) fun q _ hq => ?_, hkeeps⟩
      exact hadv.live_subset (hkeeps q hq)
    refine ⟨before ++ context' :: after, w', continueContexts_owner ?_ hstep, ?_, ⟨?_, ?_, ?_⟩⟩
    · intro d hd hq
      exact hcross d hd context List.mem_cons_self pid hq howns
    · simp [stageCommands, hadv.same.1, hstage]
    · have hstages := h.stages
      rw [List.map_append, List.map_cons] at hstages ⊢
      rwa [hstage]
    · intro d hd
      rcases List.mem_append.mp hd with hd | hd
      · exact (hother d (List.mem_append_left _ hd)).1
      · rcases List.mem_cons.mp hd with rfl | hd
        · exact hadv.started
        · exact (hother d (List.mem_append_right _ hd)).1
    · rw [List.pairwise_append, List.pairwise_cons]
      refine ⟨hbefore, ⟨fun d hd q hq hq' => ?_, hafter'⟩, fun d hd k hk q hq hq' => ?_⟩
      · exact (hadv.owns_fresh hq).1 ((hother d (List.mem_append_right _ hd)).2 q hq')
      · rcases List.mem_cons.mp hk with rfl | hk
        · exact (hadv.owns_fresh hq').1 ((hother d (List.mem_append_left _ hd)).2 q hq)
        · exact hcross d hd k (List.mem_cons_of_mem _ hk) q hq hq'
  · have hforeign : ∀ context ∈ contexts, ¬ Owns context (some pid) := fun context hc howns =>
      howned ⟨context, hc, howns⟩
    refine ⟨contexts, _, continueContexts_foreign hforeign, rfl, h.stages, fun context hc => ?_,
      h.owners⟩
    refine (h.started context hc).frame rfl fun q hq howns => ?_
    refine (List.mem_erase_of_ne ?_).mpr hq
    rintro rfl
    exact hforeign context hc howns

theorem childEnded_history
    (hlaunch : ∀ w context action, env.refused w context action = false)
    {contexts : List Kcontext} {w w₀ : World} {reports : List (Pid × WaitStatus)}
    (h : PipelineInv scheme dryRun contexts w)
    (hhistory : History env (stageCommands contexts) w₀ reports w) (pid : Pid)
    (status : WaitStatus) :
    History env (stageCommands contexts) w₀ (reports ++ [(pid, status)])
      (continueContexts scheme env dryRun (some pid) status contexts
        { w with live := w.live.erase pid }).2 := by
  by_cases howned : ∃ context ∈ contexts, Owns context (some pid)
  · obtain ⟨context, hmem, howns⟩ := howned
    have hcommand : (context.pargv, context.pipelineStage) ∈ stageCommands contexts :=
      List.mem_map_of_mem hmem
    have hbusy := (h.started context hmem).busy howns
    obtain ⟨action, rest, hiter, hrunning⟩ := hbusy.running
    obtain ⟨last, hlast, -, hleft, haction⟩ := hrunning.current
    have hchild : last.outcome.child = some pid := by
      have hwaits := hbusy.waits
      rwa [waitsFor, Option.mem_def.mp hlast, Option.bind_some] at hwaits
    obtain ⟨context', w', hstep, -⟩ : ∃ context' w',
        execActionSequence scheme env dryRun context (some pid) status
            { w with live := w.live.erase pid } = (true, context', w') ∧
          Advanced scheme dryRun context { w with live := w.live.erase pid } context' w' :=
      execActionSequence_continue hlaunch hbusy
    have hnext : History env (stageCommands contexts) w₀ (reports ++ [(pid, status)])
        (execActionSequence scheme env dryRun context (some pid) status
          { w with live := w.live.erase pid }).2.2 :=
      execActionSequence_history hhistory hcommand howns.1 howns.2 hiter hlast hchild hleft haction
    obtain ⟨before, after, rfl⟩ := List.append_of_mem hmem
    obtain ⟨-, -, hcross⟩ := List.pairwise_append.mp h.owners
    rw [hstep] at hnext
    rw [continueContexts_owner (fun d hd hq => hcross d hd context List.mem_cons_self pid hq howns)
      hstep]
    exact hnext
  · have hforeign : ∀ context ∈ contexts, ¬ Owns context (some pid) := fun context hc howns =>
      howned ⟨context, hc, howns⟩
    rw [continueContexts_foreign hforeign]
    refine .foreign (fun command hcommand hwaits => ?_) hhistory
    obtain ⟨context, hc, rfl⟩ := List.mem_map.mp hcommand
    exact hforeign context hc ((h.started context hc).owns_of_waitsFor hwaits)

/-- A pipeline that has not been started: every component of the line has its own stage. -/
structure NewPipeline (exec : Kexec) : Prop where
  idle : ∀ context ∈ exec.contexts, Idle context
  stages : (exec.contexts.map Kcontext.pipelineStage).Nodup

variable {exec exec₁ exec' : Kexec} {w w₁ w' : World}

theorem stageCommands_congr {contexts contexts' : List Kcontext}
    (hmap : contexts'.map Kcontext.withoutStreams = contexts.map Kcontext.withoutStreams) :
    stageCommands contexts' = stageCommands contexts := by
  have hfields : ∀ contexts : List Kcontext, stageCommands contexts =
      (contexts.map Kcontext.withoutStreams).map fun c => (c.pargv, c.pipelineStage) := by
    intro contexts
    rw [List.map_map]
    rfl
  rw [hfields, hmap, ← hfields]

/-- The path is restored for the first command, whatever its streams are. -/
theorem restoreWorld_congr
    (hmap : exec'.contexts.map Kcontext.withoutStreams = exec.contexts.map Kcontext.withoutStreams) :
    restoreWorld scheme exec' w = restoreWorld scheme exec w := by
  have hpargv := congrArg (List.map fun c : Kcontext => c.pargv) hmap
  rw [List.map_map, List.map_map] at hpargv
  unfold restoreWorld
  cases hcontexts : exec.contexts with
  | nil =>
    rw [hcontexts] at hmap
    rw [List.map_eq_nil_iff.mp hmap]
  | cons context contexts =>
    cases hcontexts' : exec'.contexts with
    | nil =>
      rw [hcontexts, hcontexts'] at hmap
      cases hmap
    | cons context' contexts' =>
      rw [hcontexts, hcontexts'] at hpargv
      have hfirst : context'.pargv = context.pargv := (List.cons.inj hpargv).1
      simp only [restorePath, hfirst]

theorem restoreWorld_withFds (exec : Kexec) (w : World) (fds : List Fd) :
    restoreWorld scheme exec { w with fds } = { restoreWorld scheme exec w with fds } := by
  unfold restoreWorld
  split <;> rfl

theorem kexecExec_inv (hlaunch : ∀ w context action, env.refused w context action = false)
    (hnew : NewPipeline exec) (hlog : w.log = [])
    (h : kexecExec scheme env exec w = some (exec₁, w₁)) :
    exec₁.dryRun = exec.dryRun ∧ stageCommands exec₁.contexts = stageCommands exec.contexts ∧
      PipelineInv scheme exec.dryRun exec₁.contexts w₁ := by
  obtain ⟨exec₂, w₂, hprepare, hcontinue⟩ := kexecExec_eq_some.mp h
  obtain ⟨-, hdry, hmap, hw₂⟩ := kexecPrepare_spec hprepare
  have hcommands := stageCommands_congr hmap
  have hidle := idle_of_withoutStreams hmap hnew.idle
  have hstages : (exec₂.contexts.map Kcontext.pipelineStage).Nodup := by
    rw [stages_eq, hcommands, ← stages_eq]
    exact hnew.stages
  have hempty : (restoreWorld scheme exec₂ w₂).log = [] := by
    rw [restoreWorld_log, hw₂]
    exact hlog
  have hnone : ∀ context ∈ exec₂.contexts,
      stageLog (restoreWorld scheme exec₂ w₂).log context.pipelineStage = [] := by
    intro context _
    rw [hempty]
    rfl
  obtain ⟨contexts', w₃, hstart, hsame, hinv, -⟩ :=
    continueContexts_start hlaunch hidle hstages hnone
  rw [kexecContinueCommandExecution, hstart] at hcontinue
  obtain ⟨rfl, rfl⟩ := Prod.mk.inj hcontinue
  exact ⟨hdry, hsame.trans hcommands, hdry ▸ hinv⟩

theorem kexecExec_history (hnew : NewPipeline exec)
    (h : kexecExec scheme env exec w = some (exec₁, w₁)) :
    History env (stageCommands exec.contexts) (restoreWorld scheme exec w) [] w₁ := by
  obtain ⟨exec₂, w₂, hprepare, hcontinue⟩ := kexecExec_eq_some.mp h
  obtain ⟨-, -, hmap, hw₂⟩ := kexecPrepare_spec hprepare
  have hrestored : restoreWorld scheme exec₂ w₂ =
      { restoreWorld scheme exec w with fds := w₂.fds } := by
    rw [restoreWorld_congr hmap, hw₂]
    exact restoreWorld_withFds exec w _
  have hhistory : History env (stageCommands exec.contexts) (restoreWorld scheme exec w) []
      (restoreWorld scheme exec₂ w₂) := by
    rw [hrestored]
    exact .streams _ .start
  have hcommands := stageCommands_congr hmap
  rw [kexecContinueCommandExecution] at hcontinue
  obtain ⟨-, rfl⟩ := Prod.mk.inj hcontinue
  exact continueContexts_history hhistory (fun context hc => hcommands ▸ List.mem_map_of_mem hc)
    fun context hc => (idle_of_withoutStreams hmap hnew.idle context hc).actionIter

/-- A stage has nothing left to do: all that the fold selects has been run, and no process of
it is left. -/
def Exhausted (scheme : Kscheme) (dryRun : Bool) (log : List ActionRecord) (context : Kcontext) :
    Prop :=
  launched log context.pipelineStage =
      (refFold dryRun (resultOf log context.pipelineStage) (commandActions scheme context) 0).1 ∧
    ∀ r ∈ (stageLog log context.pipelineStage).getLast?, r.outcome.forks = false

theorem Started.launched_fold {context : Kcontext} (h : Started scheme dryRun context w) :
    launched w.log context.pipelineStage <+: (refFold dryRun
      (resultOf w.log context.pipelineStage) (commandActions scheme context) 0).1 := by
  rcases h with h | ⟨pid, _, h⟩
  · rw [h.between.fold _ (agrees_resultOf h.between.resultOrder)]
    exact List.prefix_append _ _
  · obtain ⟨action, rest, _, hrunning⟩ := h.running
    rw [hrunning.fold _ (agrees_resultOf hrunning.resultOrder)]
    exact List.prefix_append _ _

theorem Started.done_iff {context : Kcontext} (h : Started scheme dryRun context w) :
    context.done = true ↔ Exhausted scheme dryRun w.log context := by
  rcases h with h | ⟨pid, _, h⟩
  · refine ⟨fun _ => ⟨?_, h.between.settled⟩, fun _ => h.done⟩
    rw [h.between.fold _ (agrees_resultOf h.between.resultOrder)]
    simp [refFold]
  · obtain ⟨action, rest, _, hrunning⟩ := h.running
    obtain ⟨r, hr, hforks, -, -⟩ := hrunning.current
    refine ⟨fun hdone => ?_, fun hex => ?_⟩
    · exact absurd (hdone.symm.trans h.done) (by simp)
    · exact absurd ((hex.2 r hr).symm.trans hforks) (by simp)

theorem Started.retcode_eq {context : Kcontext} (h : Started scheme dryRun context w)
    (hdone : context.done = true) :
    context.retcode = (refFold dryRun (resultOf w.log context.pipelineStage)
      (commandActions scheme context) 0).2 := by
  rcases h with h | ⟨pid, _, h⟩
  · rw [h.between.fold _ (agrees_resultOf h.between.resultOrder)]
    simp [refFold]
  · exact absurd (hdone.symm.trans h.done) (by simp)

theorem Started.serial {context : Kcontext} (h : Started scheme dryRun context w) :
    (launched w.log context.pipelineStage).Pairwise (· > ·) ∧
      (stageLog w.log context.pipelineStage).IsChain ActionRecord.Serial := by
  rcases h with h | ⟨pid, _, h⟩
  · exact ⟨h.between.order.1, h.between.serial⟩
  · obtain ⟨action, rest, _, hrunning⟩ := h.running
    exact ⟨hrunning.order.1, hrunning.serial⟩

theorem Started.owns_of_not_done {context : Kcontext} (h : Started scheme dryRun context w)
    (hdone : context.done = false) : ∃ pid, context.pid = some pid ∧ pid ∈ w.live := by
  rcases h with h | ⟨pid, hpid, h⟩
  · exact absurd (hdone.symm.trans h.done) (by simp)
  · exact ⟨pid, h.pid, hpid⟩

theorem kexecDone_iff_exhausted (h : PipelineInv scheme dryRun exec.contexts w) :
    kexecDone exec = true ↔ ∀ context ∈ exec.contexts, Exhausted scheme dryRun w.log context := by
  rw [kexecDone, List.all_eq_true]
  exact forall₂_congr fun context hc => (h.started context hc).done_iff

/-- A pipeline that is executed as the reference folds of its stages. -/
structure RunsAsFold (scheme : Kscheme) (env : KexecEnv) (exec : Kexec) (w : World)
    (events : List (Pid × WaitStatus)) (exec' : Kexec) (w' : World) : Prop where
  commands : stageCommands exec'.contexts = stageCommands exec.contexts
  /-- A stage has launched what the fold selects, as far as it has come. -/
  launched : ∀ context ∈ exec'.contexts,
    launched w'.log context.pipelineStage <+: (refFold exec.dryRun
      (resultOf w'.log context.pipelineStage) (commandActions scheme context) 0).1
  /-- In the order of the list and each ACTION at most once. -/
  ordered : ∀ context ∈ exec'.contexts, (Kexec.launched w'.log context.pipelineStage).Pairwise (· > ·)
  /-- The next ACTION of a stage waits for the end of the one before it. -/
  serial : ∀ context ∈ exec'.contexts,
    (stageLog w'.log context.pipelineStage).IsChain ActionRecord.Serial
  /-- A stage that is not done owns a live child, and no other stage owns it. -/
  owned : ∀ context ∈ exec'.contexts, context.done = false →
    ∃ pid, context.pid = some pid ∧ pid ∈ w'.live
  owners : exec'.contexts.Pairwise fun c d => ∀ pid, Owns c (some pid) → ¬ Owns d (some pid)
  done_iff : kexecDone exec' = true ↔
    ∀ context ∈ exec'.contexts, Exhausted scheme exec.dryRun w'.log context
  /-- The pipeline ends with the first non-zero retcode of the folds. -/
  retcode : kexecDone exec' = true → kexecRetcode exec' = some (((exec'.contexts.map fun context =>
    (refFold exec.dryRun (resultOf w'.log context.pipelineStage)
      (commandActions scheme context) 0).2).find? (· ≠ 0)).getD 0)
  /-- What the record says has happened: the values are those of the symbols, and the statuses
  those that were reported of the stages' children. -/
  history : History env (stageCommands exec.contexts) (restoreWorld scheme exec w) events w'

/-- A pipeline in execution, with all that has been reported of the children so far. -/
structure RunInv (scheme : Kscheme) (env : KexecEnv) (exec : Kexec) (w : World)
    (reports : List (Pid × WaitStatus)) (s : Kexec × World) : Prop where
  dryRun : s.1.dryRun = exec.dryRun
  commands : stageCommands s.1.contexts = stageCommands exec.contexts
  pipeline : PipelineInv scheme exec.dryRun s.1.contexts s.2
  history : History env (stageCommands exec.contexts) (restoreWorld scheme exec w) reports s.2

theorem step_inv (hlaunch : ∀ w context action, env.refused w context action = false)
    {reports : List (Pid × WaitStatus)} {s s' : Kexec × World} {report : Pid × WaitStatus}
    (h : RunInv scheme env exec w reports s) (hstep : step scheme env s report = some s') :
    RunInv scheme env exec w (reports ++ [report]) s' := by
  obtain ⟨pid, status⟩ := report
  obtain ⟨contexts', v', hcontinue, hsame, hinv'⟩ :=
    childEnded_preserves hlaunch h.pipeline pid status
  have hhistory := h.history
  rw [← h.commands] at hhistory
  have hnext := childEnded_history hlaunch h.pipeline hhistory pid status
  rw [hcontinue, h.commands] at hnext
  rw [← h.dryRun] at hcontinue
  rw [step, childEnded, kexecContinueCommandExecution, hcontinue, Option.some.injEq] at hstep
  subst hstep
  exact ⟨h.dryRun, hsame.trans h.commands, hinv', hnext⟩

theorem run_inv (hlaunch : ∀ w context action, env.refused w context action = false)
    {events reports : List (Pid × WaitStatus)} {s s' : Kexec × World}
    (h : RunInv scheme env exec w reports s)
    (hrun : Runs.run (step scheme env) s events = some s') :
    RunInv scheme env exec w (reports ++ events) s' := by
  induction events generalizing s reports with
  | nil =>
    obtain rfl := Option.some.inj hrun
    rw [List.append_nil]
    exact h
  | cons report events ih =>
    obtain ⟨mid, hstep, hrest⟩ := Runs.run_cons.mp hrun
    have hnext := ih (step_inv hlaunch h hstep) hrest
    rwa [List.append_assoc] at hnext

/-- Over every run of the event loop, each stage of a pipeline runs what the reference fold
selects, in order and one process at a time. -/
theorem pipeline_runs_as_fold {events : List (Pid × WaitStatus)}
    (hlaunch : ∀ w context action, env.refused w context action = false)
    (hnew : NewPipeline exec) (hlog : w.log = [])
    (hexec : kexecExec scheme env exec w = some (exec₁, w₁))
    (hrun : Runs.run (step scheme env) (exec₁, w₁) events = some (exec', w')) :
    RunsAsFold scheme env exec w events exec' w' := by
  obtain ⟨hdry₁, hcommands₁, hinv₁⟩ := kexecExec_inv hlaunch hnew hlog hexec
  have hstart : RunInv scheme env exec w [] (exec₁, w₁) :=
    ⟨hdry₁, hcommands₁, hinv₁, kexecExec_history hnew hexec⟩
  obtain ⟨hdry, hcommands, hinv, hhistory⟩ := run_inv hlaunch hstart hrun
  refine ⟨hcommands, fun context hc => (hinv.started context hc).launched_fold,
    fun context hc => (hinv.started context hc).serial.1,
    fun context hc => (hinv.started context hc).serial.2,
    fun context hc => (hinv.started context hc).owns_of_not_done, hinv.owners,
    kexecDone_iff_exhausted hinv, fun hdone => ?_, hhistory⟩
  have hne : exec'.contexts ≠ [] := by
    intro hnil
    obtain ⟨exec₂, w₂, hprepare, -⟩ := kexecExec_eq_some.mp hexec
    apply (kexecPrepare_spec hprepare).1
    have hnil' : stageCommands exec'.contexts = [] := by rw [hnil]; rfl
    exact List.map_eq_nil_iff.mp (hcommands.symm.trans hnil')
  have hretcodes : exec'.contexts.map Kcontext.retcode = exec'.contexts.map fun context =>
      (refFold exec.dryRun (resultOf w'.log context.pipelineStage)
        (commandActions scheme context) 0).2 := by
    apply List.map_congr_left
    intro context hc
    exact (hinv.started context hc).retcode_eq (List.all_eq_true.mp hdone context hc)
  rw [kexecRetcode, if_neg (by simpa using hne), if_neg (by simp [hdone]), hretcodes]

def sampleWorld : World := ⟨Ksession.sampleRoot, [], [], []⟩

/-- A pipeline of two commands. -/
def samplePair : Kexec :=
  { Kexec.new true with
    contexts :=
      [Kcontext.new { Kpargv.new with command := some 2, status := .ok } 0 false,
        Kcontext.new { Kpargv.new with command := some 4, status := .ok } 1 true] }

/-- The second command ends first, with code 3, and before both a child of another pipeline. -/
def sampleReports : List (Pid × WaitStatus) :=
  [(7, .exited ⟨1, by decide⟩), (2, .exited ⟨3, by decide⟩), (1, .zero)]

theorem pipeline_runs_as_fold_sample : ∃ exec₁ w₁ exec' w',
    kexecExec Ksession.sampleScheme (sampleEnv fun _ => false) samplePair sampleWorld =
      some (exec₁, w₁) ∧
    Runs.run (step Ksession.sampleScheme (sampleEnv fun _ => false)) (exec₁, w₁) sampleReports =
      some (exec', w') ∧
    RunsAsFold Ksession.sampleScheme (sampleEnv fun _ => false) samplePair sampleWorld
      sampleReports exec' w' := by
  have hstart : (kexecExec Ksession.sampleScheme (sampleEnv fun _ => false) samplePair
      sampleWorld).isSome = true := by decide
  obtain ⟨⟨exec₁, w₁⟩, hexec⟩ := Option.isSome_iff_exists.mp hstart
  have hnew : NewPipeline samplePair := by
    refine ⟨fun context hc => ?_, by decide⟩
    rcases List.mem_cons.mp hc with rfl | hc
    · exact ⟨rfl, rfl, rfl, rfl⟩
    · rw [List.mem_singleton.mp hc]
      exact ⟨rfl, rfl, rfl, rfl⟩
  obtain ⟨⟨exec', w'⟩, hrun⟩ : ∃ s, Runs.run (step Ksession.sampleScheme
      (sampleEnv fun _ => false)) (exec₁, w₁) sampleReports = some s := ⟨_, rfl⟩
  exact ⟨exec₁, w₁, exec', w', hexec, hrun,
    pipeline_runs_as_fold (fun _ _ _ => rfl) hnew rfl hexec hrun⟩

end Klish.Kexec
