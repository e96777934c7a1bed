import Klish.KexecLog

/-!
# What the record stands for

Every entry of the record is tied to what made it: the dry-run flag, a symbol and what it returned,
a process that was forked, or a child that `waitpid` has reported.
-/

namespace Klish

/-- The process that was forked for the ACTION. -/
def ActionOutcome.child : ActionOutcome → Option Pid
  | returned _ grabber => grabber
  | started pid => some pid
  | simulated | refused | ended _ => none

/-- A process may have been forked. -/
def World.forked (w : World) (pid : Option Pid) : World := { w with live := pid.toList ++ w.live }

namespace Kexec

/-- The command and the stage of a context are fixed. -/
def stageCommands (contexts : List Kcontext) : List (Kpargv × ℕ) :=
  contexts.map fun context => (context.pargv, context.pipelineStage)

/-- The child whose end comes next in a stage, if one was forked for its last ACTION. -/
def waitsFor (log : List ActionRecord) (stage : ℕ) : Option Pid :=
  (stageLog log stage).getLast?.bind fun r => r.outcome.child

/-- The record is about the current ACTION of one of the commands. -/
structure OfCurrent (commands : List (Kpargv × ℕ)) (context : Kcontext) (r : ActionRecord) :
    Prop where
  command : (context.pargv, context.pipelineStage) ∈ commands
  stage : r.stage = context.pipelineStage
  current : ∃ rest, context.actionIter = r.action :: rest ∧ r.left = rest.length

/-- What has happened to the world `w₀` of some commands, with the reports of `waitpid` so far. -/
inductive History (env : KexecEnv) (commands : List (Kpargv × ℕ)) (w₀ : World) :
    List (Pid × WaitStatus) → World → Prop
  | start : History env commands w₀ [] w₀
  /-- Descriptors are opened and closed. -/
  | streams {reports : List (Pid × WaitStatus)} {w : World} (fds : List Fd)
      (h : History env commands w₀ reports w) : History env commands w₀ reports { w with fds }
  /-- An ACTION is left out because of the dry-run flag. -/
  | simulated {reports : List (Pid × WaitStatus)} {w : World} {context : Kcontext}
      {r : ActionRecord} (hcurrent : OfCurrent commands context r)
      (houtcome : r.outcome = .simulated) (h : History env commands w₀ reports w) :
      History env commands w₀ reports (w.record r)
  /-- A symbol has run in the server, with its effect on the session. -/
  | returned {reports : List (Pid × WaitStatus)} {w : World} {context : Kcontext}
      {r : ActionRecord} {grabber : Option Pid} (hcurrent : OfCurrent commands context r)
      (hsync : r.action.isSync = true) (hfresh : ∀ pid ∈ grabber, pid ∉ w.live)
      (houtcome : r.outcome =
        .returned (env.symResult (w.forked grabber) context r.action) grabber)
      (h : History env commands w₀ reports w) :
      History env commands w₀ reports (World.record
        { w.forked grabber with session := env.symEffect (w.forked grabber) context r.action } r)
  /-- A process runs the symbol. -/
  | started {reports : List (Pid × WaitStatus)} {w : World} {context : Kcontext}
      {r : ActionRecord} {pid : Pid} (hcurrent : OfCurrent commands context r)
      (hsync : r.action.isSync = false) (hfresh : pid ∉ w.live)
      (houtcome : r.outcome = .started pid) (h : History env commands w₀ reports w) :
      History env commands w₀ reports ((w.forked (some pid)).record r)
  | refused {reports : List (Pid × WaitStatus)} {w : World} {context : Kcontext}
      {r : ActionRecord} (hcurrent : OfCurrent commands context r)
      (hrefused : env.refused w context r.action = true) (houtcome : r.outcome = .refused)
      (h : History env commands w₀ reports w) : History env commands w₀ reports (w.record r)
  /-- The child that a stage waits for is reported, and its status belongs to the stage's last
  ACTION. -/
  | ended {reports : List (Pid × WaitStatus)} {w : World} {r last : ActionRecord} {pid : Pid}
      {status : WaitStatus} (hlast : last ∈ (stageLog w.log r.stage).getLast?)
      (hchild : last.outcome.child = some pid) (hleft : r.left = last.left)
      (haction : r.action = last.action) (houtcome : r.outcome = .ended status)
      (h : History env commands w₀ reports w) :
      History env commands w₀ (reports ++ [(pid, status)])
        (World.record { w with live := w.live.erase pid } r)
  /-- A child is reported that no stage waits for. -/
  | foreign {reports : List (Pid × WaitStatus)} {w : World} {pid : Pid} {status : WaitStatus}
      (hforeign : ∀ command ∈ commands, waitsFor w.log command.2 ≠ some pid)
      (h : History env commands w₀ reports w) :
      History env commands w₀ (reports ++ [(pid, status)]) { w with live := w.live.erase pid }

variable {scheme : Kscheme} {env : KexecEnv} {commands : List (Kpargv × ℕ)} {w₀ w : World}
  {reports : List (Pid × WaitStatus)} {dryRun : Bool} {context : Kcontext}

theorem waitsFor_append_own {log : List ActionRecord} {r : ActionRecord} {stage : ℕ}
    (h : r.stage = stage) : waitsFor (log ++ [r]) stage = r.outcome.child := by
  rw [waitsFor, stageLog_append_own h]
  simp

theorem child_eq_none {outcome : ActionOutcome} (h : outcome.forks = false) :
    outcome.child = none := by
  cases outcome with
  | returned value grabber =>
    cases grabber with
    | none => rfl
    | some pid => cases h
  | started pid => cases h
  | simulated => rfl
  | refused => rfl
  | ended status => rfl

theorem History.close (h : History env commands w₀ reports w) (fd : Option Fd) :
    History env commands w₀ reports (w.close fd) := by
  cases fd with
  | none => exact h
  | some fd => exact .streams _ h

theorem execAction_history {action : Kaction} {rest : List Kaction} {exitstatus retcode : ℤ}
    (h : History env commands w₀ reports w)
    (hcommand : (context.pargv, context.pipelineStage) ∈ commands)
    (hiter : context.actionIter = action :: rest) :
    History env commands w₀ reports ((execAction env context action exitstatus w).world.record
      ⟨context.pipelineStage, rest.length, action,
        (execAction env context action exitstatus w).outcome, retcode⟩) := by
  have hcurrent : ∀ outcome, OfCurrent commands context
      ⟨context.pipelineStage, rest.length, action, outcome, retcode⟩ := fun _ =>
    ⟨hcommand, rfl, rest, hiter, rfl⟩
  unfold execAction execActionSync execActionAsync
  split
  · rename_i hsync
    have hreturned : ∀ grabber : Option Pid, (∀ pid ∈ grabber, pid ∉ w.live) →
        History env commands w₀ reports (World.record
          { w.forked grabber with session := env.symEffect (w.forked grabber) context action }
          ⟨context.pipelineStage, rest.length, action,
            .returned (env.symResult (w.forked grabber) context action) grabber, retcode⟩) :=
      fun grabber hfresh => .returned (hcurrent _) hsync hfresh rfl h
    split
    · exact hreturned none (by simp)
    split
    · rename_i hrefused
      exact .refused (hcurrent _) hrefused rfl h
    · refine hreturned (some (env.newPid w)) fun pid hpid => ?_
      obtain rfl := Option.some.inj hpid
      exact env.newPid_fresh w
  · rename_i hsync
    split
    · rename_i hrefused
      exact .refused (hcurrent _) hrefused rfl h
    · exact .started (hcurrent _) (by simpa using hsync) (env.newPid_fresh w) rfl h

theorem actionLoop_history {todo : List Kaction} {exitstatus : ℤ}
    (h : History env commands w₀ reports w)
    (hcommand : (context.pargv, context.pipelineStage) ∈ commands) :
    History env commands w₀ reports (actionLoop env dryRun todo exitstatus context w).2 := by
  induction todo generalizing exitstatus context w with
  | nil => exact (h.close _).close _
  | cons action rest ih =>
    rw [actionLoop]
    dsimp only
    split
    · exact ih h hcommand
    split
    · have hcurrent : ∀ retcode, OfCurrent commands { context with actionIter := action :: rest }
          ⟨context.pipelineStage, rest.length, action, .simulated, retcode⟩ := fun _ =>
        ⟨hcommand, rfl, rest, rfl, rfl⟩
      exact ih (.simulated (hcurrent _) rfl h) hcommand
    · split
      · exact execAction_history h hcommand rfl
      · exact ih (execAction_history h hcommand rfl) hcommand

/-- A pipeline is started. -/
theorem continueContexts_history {contexts : List Kcontext} {status : WaitStatus}
    (h : History env commands w₀ reports w)
    (hcommands : ∀ context ∈ contexts, (context.pargv, context.pipelineStage) ∈ commands)
    (hiter : ∀ context ∈ contexts, context.actionIter = []) :
    History env commands w₀ reports
      (continueContexts scheme env dryRun none status contexts w).2 := by
  induction contexts generalizing w with
  | nil => exact h
  | cons context contexts ih =>
    have hfirst : History env commands w₀ reports
        (execActionSequence scheme env dryRun context none status w).2.2 := by
      unfold execActionSequence
      split
      · exact h
      · have hnote : noteTermination context status w = (context, w) := by
          rw [noteTermination, hiter context List.mem_cons_self]
        dsimp only
        rw [hnote]
        exact actionLoop_history h (hcommands context List.mem_cons_self)
    have hrest := ih hfirst (fun c hc => hcommands c (List.mem_cons_of_mem _ hc))
      fun c hc => hiter c (List.mem_cons_of_mem _ hc)
    rw [continueContexts]
    simpa using hrest

/-- The child of a context is reported. -/
theorem execActionSequence_history {action : Kaction} {rest : List Kaction} {pid : Pid}
    {status : WaitStatus} {last : ActionRecord} (h : History env commands w₀ reports w)
    (hcommand : (context.pargv, context.pipelineStage) ∈ commands)
    (hdone : context.done = false) (hpid : context.pid = some pid)
    (hiter : context.actionIter = action :: rest)
    (hlast : last ∈ (stageLog w.log context.pipelineStage).getLast?)
    (hchild : last.outcome.child = some pid) (hleft : last.left = rest.length)
    (haction : last.action = action) :
    History env commands w₀ (reports ++ [(pid, status)]) (execActionSequence scheme env dryRun
      context (some pid) status { w with live := w.live.erase pid }).2.2 := by
  have hended : ∀ retcode, History env commands w₀ (reports ++ [(pid, status)]) _ := fun retcode =>
    .ended (r := ⟨context.pipelineStage, rest.length, action, .ended status, retcode⟩) hlast hchild
      hleft.symm haction.symm rfl h
  unfold execActionSequence
  rw [if_neg (by simp [hdone, hpid])]
  dsimp only
  unfold noteTermination
  rw [hiter]
  exact actionLoop_history (hended _) hcommand

end Kexec

end Klish
