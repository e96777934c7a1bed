import Klish.Lib.Runs
import Klish.KexecLog
import Klish.KexecSharing
import Klish.ParseConservation

/-!
# Launches and ends of the stages

A run of a pipeline is cut at the moments where an ACTION is launched or a stage finishes. At
each of them all the stages are there to see, with the descriptors that are open just then.
-/

namespace Klish

/-- An ACTION was to be launched, whatever came of it. -/
def ActionOutcome.attempts : ActionOutcome → Bool
  | returned _ _ | started _ | refused => true
  | simulated | ended _ => false

namespace Kexec

/-- An ACTION is about to be launched, or, where there is none, the stage is about to finish. -/
structure Moment where
  action : Option Kaction
  before : List Kcontext
  context : Kcontext
  after : List Kcontext
  world : World

/-- All the stages, in order. -/
def Moment.stages (m : Moment) : List Kcontext := m.before ++ m.context :: m.after

section Trace

variable (scheme : Kscheme) (env : KexecEnv)

/-- The launches of `exec_action_sequence` and its end. -/
def actionTrace (dryRun : Bool) :
    List Kaction → ℤ → Kcontext → World → List (Option Kaction × Kcontext × World)
  | [], _, context, w => [(none, context, w)]
  | action :: rest, exitstatus, context, w =>
    let context := { context with actionIter := action :: rest }
    if !action.meetExecConditions context.retcode then actionTrace dryRun rest exitstatus context w
    else if dryRun && !action.isPermanent then
      let retcode := if action.updateRetcode then 0 else context.retcode
      actionTrace dryRun rest 0 { context with retcode }
        (w.record ⟨context.pipelineStage, rest.length, action, .simulated, retcode⟩)
    else
      let r := execAction env context action exitstatus w
      let retcode :=
        if action.isSync && action.updateRetcode then r.exitstatus else context.retcode
      let w' := r.world.record ⟨context.pipelineStage, rest.length, action, r.outcome, retcode⟩
      (some action, context, w) ::
        if r.pid.isSome then []
        else actionTrace dryRun rest r.exitstatus { context with retcode } w'

/-- The same for one call with the process that has ended. -/
def sequenceTrace (dryRun : Bool) (context : Kcontext) (pid : Option Pid) (status : WaitStatus)
    (w : World) : List (Option Kaction × Kcontext × World) :=
  if context.done || context.pid != pid then []
  else
    let todo :=
      match context.actionIter with
      | [] => commandActions scheme context
      | _ :: rest => rest
    let (context, w) := noteTermination context status w
    actionTrace env dryRun todo status.exitstatus context w

/-- The moments of `kexec_continue_command_execution`. -/
def continueTrace (dryRun : Bool) (pid : Option Pid) (status : WaitStatus) :
    List Kcontext → List Kcontext → World → List Moment
  | _, [], _ => []
  | before, context :: contexts, w =>
    let r := execActionSequence scheme env dryRun context pid status w
    (sequenceTrace scheme env dryRun context pid status w).map
        (fun t => ⟨t.1, before, t.2.1, contexts, t.2.2⟩) ++
      if r.1 && pid.isSome then []
      else continueTrace dryRun pid status (before ++ [r.2.1]) contexts r.2.2

/-- The moments of the event loop. -/
def runTrace : Kexec → World → List (Pid × WaitStatus) → List Moment
  | _, _, [] => []
  | exec, w, (pid, status) :: events =>
    let s := childEnded scheme env exec pid status w
    continueTrace scheme env exec.dryRun (some pid) status [] exec.contexts
        { w with live := w.live.erase pid } ++ runTrace s.1 s.2 events

/-- The moments of a pipeline, from `kexec_exec` on. -/
def moments (exec : Kexec) (w : World) (events : List (Pid × WaitStatus)) : List Moment :=
  match kexecPrepare scheme env exec w with
  | none => []
  | some (exec, w) =>
    let w := restoreWorld scheme exec w
    let s := kexecContinueCommandExecution scheme env exec none .zero w
    continueTrace scheme env exec.dryRun none .zero [] exec.contexts w ++
      runTrace scheme env s.1 s.2 events

end Trace

section Recorded

variable {scheme : Kscheme} {env : KexecEnv}

/-- The launches of the record, each named by its stage and by the number of ACTIONs after it. -/
def attempts (log : List ActionRecord) : List (ℕ × ℕ × Kaction) :=
  (log.filter fun r => r.outcome.attempts).map fun r => (r.stage, r.left, r.action)

/-- The name of the launch in the record. -/
def attempt (action : Option Kaction) (context : Kcontext) : Option (ℕ × ℕ × Kaction) :=
  action.map fun action => (context.pipelineStage, context.actionIter.length - 1, action)

theorem attempts_append (log log' : List ActionRecord) :
    attempts (log ++ log') = attempts log ++ attempts log' := by
  simp [attempts]

theorem actionTrace_attempts {dryRun : Bool} {actions : List Kaction} {exitstatus : ℤ}
    {context : Kcontext} {w : World} :
    attempts (actionLoop env dryRun actions exitstatus context w).2.log =
      attempts w.log ++
        (actionTrace env dryRun actions exitstatus context w).filterMap
          fun t => attempt t.1 t.2.1 := by
  induction actions generalizing exitstatus context w with
  | nil => simp [actionLoop, actionTrace, finish, attempt]
  | cons action rest ih =>
    rw [actionLoop, actionTrace]
    dsimp only
    split
    · exact ih
    split
    · rw [ih, World.record_log, attempts_append]
      simp [attempts, ActionOutcome.attempts]
    · have hlaunch := execAction_spec env { context with actionIter := action :: rest } action
        exitstatus w
      generalize execAction env { context with actionIter := action :: rest } action
        exitstatus w = r at hlaunch ⊢
      have hlog : r.world.log = w.log := by cases hlaunch <;> rfl
      have houtcome : r.outcome.attempts = true := by cases hlaunch <;> rfl
      cases hpid : r.pid with
      | some pid =>
        simp only [World.record_log, hlog, attempts_append]
        simp [attempts, houtcome, attempt]
      | none =>
        simp only [ih, World.record_log, hlog, attempts_append]
        simp [attempts, houtcome, attempt]

theorem noteTermination_attempts (context : Kcontext) (status : WaitStatus) (w : World) :
    attempts (noteTermination context status w).2.log = attempts w.log := by
  unfold noteTermination
  split
  · rfl
  · rw [World.record_log, attempts_append]
    simp [attempts, ActionOutcome.attempts]

variable (scheme env) in
theorem sequenceTrace_attempts (dryRun : Bool) (context : Kcontext) (pid : Option Pid)
    (status : WaitStatus) (w : World) :
    attempts (execActionSequence scheme env dryRun context pid status w).2.2.log =
      attempts w.log ++ (sequenceTrace scheme env dryRun context pid status w).filterMap
        fun t => attempt t.1 t.2.1 := by
  rw [execActionSequence, sequenceTrace]
  split
  · simp
  · refine actionTrace_attempts.trans ?_
    exact congrArg (fun log => log ++ _) (noteTermination_attempts context status w)

/-- The launches of the moments. -/
def launches (moments : List Moment) : List (ℕ × ℕ × Kaction) :=
  moments.filterMap fun m => attempt m.action m.context

theorem launches_append (ms ms' : List Moment) :
    launches (ms ++ ms') = launches ms ++ launches ms' := List.filterMap_append

theorem continueTrace_attempts {dryRun : Bool} {pid : Option Pid} {status : WaitStatus}
    {before contexts : List Kcontext} {w : World} :
    attempts (continueContexts scheme env dryRun pid status contexts w).2.log =
      attempts w.log ++
        launches (continueTrace scheme env dryRun pid status before contexts w) := by
  induction contexts generalizing before w with
  | nil => simp [continueContexts, continueTrace, launches]
  | cons context contexts ih =>
    have hhead := sequenceTrace_attempts scheme env dryRun context pid status w
    rw [continueContexts, continueTrace, launches_append]
    have hmap : launches ((sequenceTrace scheme env dryRun context pid status w).map
        fun t => ⟨t.1, before, t.2.1, contexts, t.2.2⟩) =
        (sequenceTrace scheme env dryRun context pid status w).filterMap
          fun t => attempt t.1 t.2.1 := by
      rw [launches, List.filterMap_map]
      rfl
    rw [hmap]
    dsimp only
    split
    · simpa [launches] using hhead
    · dsimp only
      rw [ih, hhead, List.append_assoc]

theorem runTrace_attempts {exec exec' : Kexec} {w w' : World} {events : List (Pid × WaitStatus)}
    (hr : Runs.run (step scheme env) (exec, w) events = some (exec', w')) :
    attempts w'.log = attempts w.log ++ launches (runTrace scheme env exec w events) := by
  induction events generalizing exec w with
  | nil =>
    cases hr
    simp [runTrace, launches]
  | cons event events ih =>
    obtain ⟨s, hs, hr⟩ := Runs.run_cons.mp hr
    cases hs
    rw [ih hr, runTrace, launches_append, ← List.append_assoc]
    congr 1
    exact continueTrace_attempts

/-- The launches of the moments are those of the record. -/
theorem moments_attempts {exec exec₁ exec₂ : Kexec} {w w₁ w₂ : World}
    {events : List (Pid × WaitStatus)} (hstart : kexecExec scheme env exec w = some (exec₁, w₁))
    (hr : Runs.run (step scheme env) (exec₁, w₁) events = some (exec₂, w₂)) :
    attempts w₂.log = attempts w.log ++ launches (moments scheme env exec w events) := by
  obtain ⟨exec₀, w₀, hprepare, hcontinue⟩ := kexecExec_eq_some.mp hstart
  obtain ⟨-, -, -, hw₀⟩ := kexecPrepare_spec hprepare
  have hlog : w₀.log = w.log := by rw [hw₀]
  rw [moments, hprepare]
  dsimp only
  rw [hcontinue, launches_append, runTrace_attempts hr, ← List.append_assoc]
  congr 1
  rw [← hlog, ← @restoreWorld_log scheme exec₀ w₀]
  cases hcontinue
  exact continueTrace_attempts

end Recorded

/-- Only the end of its ACTION sequence changes the streams of a stage. -/
structure Keeps (context context' : Kcontext) : Prop where
  stderr : context'.stderr = context.stderr
  notDone : context'.done = false → context.done = false
  stdin : context'.done = false → context'.stdin = context.stdin
  stdout : context'.done = false → context'.stdout = context.stdout

@[refl] theorem Keeps.refl (context : Kcontext) : Keeps context context :=
  ⟨rfl, fun h => h, fun _ => rfl, fun _ => rfl⟩

theorem Keeps.trans {a b c : Kcontext} (hab : Keeps a b) (hbc : Keeps b c) : Keeps a c where
  stderr := hbc.stderr.trans hab.stderr
  notDone h := hab.notDone (hbc.notDone h)
  stdin h := (hbc.stdin h).trans (hab.stdin (hbc.notDone h))
  stdout h := (hbc.stdout h).trans (hab.stdout (hbc.notDone h))

/-- The streams of a context and whether it is done with them. -/
structure SameStreams (context context' : Kcontext) : Prop where
  stdin : context'.stdin = context.stdin
  stdout : context'.stdout = context.stdout
  stderr : context'.stderr = context.stderr
  done : context'.done = context.done

theorem SameStreams.keeps {context context' : Kcontext} (h : SameStreams context context') :
    Keeps context context' :=
  ⟨h.stderr, fun hdone => h.done ▸ hdone, fun _ => h.stdin, fun _ => h.stdout⟩

/-- What a call leaves behind, with the moments of the call. -/
inductive LoopEnd (context : Kcontext) (w : World) :
    Kcontext × World → List (Option Kaction × Kcontext × World) → Prop
  | waits {context' : Kcontext} {w' : World} {trace : List (Option Kaction × Kcontext × World)}
      (htrace : ∀ t ∈ trace, t.1 ≠ none) (hsame : SameStreams context context')
      (hfds : w'.fds = w.fds) : LoopEnd context w (context', w') trace
  | ends {context' : Kcontext} {w' : World} {trace : List (Option Kaction × Kcontext × World)}
      (htrace : ∃ t ∈ trace, t.1 = none) (hdone : context'.done = true)
      (hstderr : context'.stderr = context.stderr)
      (hfds : w'.fds = ((w.close context.stdout).close context.stdin).fds) :
      LoopEnd context w (context', w') trace

section Invariant

variable {scheme : Kscheme} {env : KexecEnv}

theorem close_fds_congr {w w' : World} {fd : Option Fd} (h : w'.fds = w.fds) :
    (w'.close fd).fds = (w.close fd).fds := by
  cases fd with
  | none => exact h
  | some fd => rw [World.close, World.close, h]

section Same

variable {context context₁ : Kcontext} {w w₁ : World} {r : Kcontext × World}
  {trace : List (Option Kaction × Kcontext × World)}

theorem SameStreams.trans {context₂ : Kcontext} (h : SameStreams context context₁)
    (h' : SameStreams context₁ context₂) : SameStreams context context₂ :=
  ⟨h'.stdin.trans h.stdin, h'.stdout.trans h.stdout, h'.stderr.trans h.stderr,
    h'.done.trans h.done⟩

theorem LoopEnd.of_same (hsame : SameStreams context context₁) (hfds : w₁.fds = w.fds)
    (h : LoopEnd context₁ w₁ r trace) : LoopEnd context w r trace := by
  cases h with
  | waits htrace hsame' hfds' => exact .waits htrace (hsame.trans hsame') (hfds'.trans hfds)
  | ends htrace hdone hstderr hfds' =>
    refine .ends htrace hdone (hstderr.trans hsame.stderr) ?_
    rw [hfds', hsame.stdin, hsame.stdout]
    exact close_fds_congr (close_fds_congr hfds)

end Same

/-- Up to the end of the sequence nothing is opened and nothing is closed. -/
structure TraceSpec (context : Kcontext) (w : World) (r : Kcontext × World)
    (trace : List (Option Kaction × Kcontext × World)) : Prop where
  same : ∀ t ∈ trace, SameStreams context t.2.1 ∧ t.2.2.fds = w.fds
  loopEnd : LoopEnd context w r trace

theorem TraceSpec.of_same {context context₁ : Kcontext} {w w₁ : World} {r : Kcontext × World}
    {trace : List (Option Kaction × Kcontext × World)} (hsame : SameStreams context context₁)
    (hfds : w₁.fds = w.fds) (h : TraceSpec context₁ w₁ r trace) : TraceSpec context w r trace where
  same t ht := ⟨hsame.trans (h.same t ht).1, (h.same t ht).2.trans hfds⟩
  loopEnd := h.loopEnd.of_same hsame hfds

/-- One more launch, before the others. -/
theorem TraceSpec.cons {context current : Kcontext} {w : World} {r : Kcontext × World}
    {trace : List (Option Kaction × Kcontext × World)} {action : Kaction}
    (hsame : SameStreams context current) (h : TraceSpec context w r trace) :
    TraceSpec context w r ((some action, current, w) :: trace) where
  same := List.forall_mem_cons.mpr ⟨⟨hsame, rfl⟩, h.same⟩
  loopEnd := by
    cases h.loopEnd with
    | waits htrace hsame' hfds =>
      exact .waits (List.forall_mem_cons.mpr ⟨Option.some_ne_none action, htrace⟩) hsame' hfds
    | ends htrace hdone hstderr hfds =>
      obtain ⟨t, ht, hnone⟩ := htrace
      exact .ends ⟨t, List.mem_cons_of_mem _ ht, hnone⟩ hdone hstderr hfds

theorem actionTrace_spec {dryRun : Bool} {actions : List Kaction} {exitstatus : ℤ}
    {context : Kcontext} {w : World} :
    TraceSpec context w (actionLoop env dryRun actions exitstatus context w)
      (actionTrace env dryRun actions exitstatus context w) := by
  induction actions generalizing exitstatus context w with
  | nil =>
    refine ⟨?_, .ends ⟨_, List.mem_singleton_self _, rfl⟩ rfl rfl rfl⟩
    intro t ht
    obtain rfl := List.mem_singleton.mp ht
    exact ⟨⟨rfl, rfl, rfl, rfl⟩, rfl⟩
  | cons action rest ih =>
    rw [actionLoop, actionTrace]
    dsimp only
    have hcurrent : SameStreams context { context with actionIter := action :: rest } :=
      ⟨rfl, rfl, rfl, rfl⟩
    split
    · exact ih.of_same hcurrent rfl
    split
    · refine TraceSpec.of_same ?_ ?_ ih
      · exact ⟨rfl, rfl, rfl, rfl⟩
      · rfl
    · have hfds := execAction_fds env { context with actionIter := action :: rest } action
        exitstatus w
      generalize execAction env { context with actionIter := action :: rest } action
        exitstatus w = r at hfds ⊢
      cases hpid : r.pid with
      | some pid =>
        refine TraceSpec.cons hcurrent ⟨by simp, .waits (by simp) ?_ hfds⟩
        exact ⟨rfl, rfl, rfl, rfl⟩
      | none =>
        refine TraceSpec.cons hcurrent (TraceSpec.of_same ?_ ?_ ih)
        · exact ⟨rfl, rfl, rfl, rfl⟩
        · exact hfds

variable (scheme env) in
theorem sequenceTrace_spec (dryRun : Bool) (context : Kcontext) (pid : Option Pid)
    (status : WaitStatus) (w : World) :
    TraceSpec context w (execActionSequence scheme env dryRun context pid status w).2
      (sequenceTrace scheme env dryRun context pid status w) := by
  rw [execActionSequence, sequenceTrace]
  split
  · exact ⟨by simp, .waits (by simp) ⟨rfl, rfl, rfl, rfl⟩ rfl⟩
  · have hnote : SameStreams context (noteTermination context status w).1 ∧
        (noteTermination context status w).2.fds = w.fds := by
      unfold noteTermination
      split
      · exact ⟨⟨rfl, rfl, rfl, rfl⟩, rfl⟩
      · exact ⟨⟨rfl, rfl, rfl, rfl⟩, rfl⟩
    exact .of_same hnote.1 hnote.2 actionTrace_spec

theorem notDone_of_mem_sequenceTrace {dryRun : Bool} {context : Kcontext} {pid : Option Pid}
    {status : WaitStatus} {w : World} {t : Option Kaction × Kcontext × World}
    (ht : t ∈ sequenceTrace scheme env dryRun context pid status w) : context.done = false := by
  rw [sequenceTrace] at ht
  split at ht
  · cases ht
  · rename_i hmine
    cases hdone : context.done with
    | false => rfl
    | true => simp [hdone] at hmine

theorem TraceSpec.keeps {context : Kcontext} {w : World} {r : Kcontext × World}
    {trace : List (Option Kaction × Kcontext × World)} (h : TraceSpec context w r trace) :
    Keeps context r.1 := by
  obtain ⟨context', w'⟩ := r
  cases h.loopEnd with
  | waits htrace hsame hfds => exact hsame.keeps
  | ends htrace hdone hstderr hfds =>
    have hnot {p : Prop} (hfalse : context'.done = false) : p :=
      Bool.noConfusion (hdone.symm.trans hfalse)
    exact ⟨hstderr, hnot, hnot, hnot⟩

/-- The moments of a list of stages: the stages keep their streams, and the one that is on is
not done. -/
structure Kept (stages : List Kcontext) (m : Moment) : Prop where
  keeps : List.Forall₂ Keeps stages m.stages
  notDone : m.context.done = false

theorem keeps_refl (stages : List Kcontext) : List.Forall₂ Keeps stages stages :=
  List.forall₂_same.mpr fun context _ => Keeps.refl context

theorem keeps_trans {a b c : List Kcontext} (hab : List.Forall₂ Keeps a b)
    (hbc : List.Forall₂ Keeps b c) : List.Forall₂ Keeps a c := by
  induction hab generalizing c with
  | nil => exact hbc
  | cons hhead htail ih =>
    cases hbc with
    | cons hhead' htail' => exact .cons (hhead.trans hhead') (ih htail')

theorem Kept.of_keeps {stages stages' : List Kcontext} {m : Moment}
    (hkeeps : List.Forall₂ Keeps stages stages') (h : Kept stages' m) : Kept stages m :=
  ⟨keeps_trans hkeeps h.keeps, h.notDone⟩

/-- One stage of the list may have got further. -/
theorem keeps_middle (before after : List Kcontext) {context context' : Kcontext}
    (h : Keeps context context') :
    List.Forall₂ Keeps (before ++ context :: after) (before ++ context' :: after) :=
  List.rel_append (keeps_refl before) (.cons h (keeps_refl after))

theorem continueTrace_kept {dryRun : Bool} {pid : Option Pid} {status : WaitStatus}
    {before contexts : List Kcontext} {w : World} :
    (∀ m ∈ continueTrace scheme env dryRun pid status before contexts w,
      Kept (before ++ contexts) m) ∧
    List.Forall₂ Keeps contexts (continueContexts scheme env dryRun pid status contexts w).1 := by
  induction contexts generalizing before w with
  | nil => exact ⟨by simp [continueTrace], .nil⟩
  | cons context contexts ih =>
    have hspec := sequenceTrace_spec scheme env dryRun context pid status w
    have hhead : ∀ t ∈ sequenceTrace scheme env dryRun context pid status w,
        Kept (before ++ context :: contexts) ⟨t.1, before, t.2.1, contexts, t.2.2⟩ := by
      intro t ht
      obtain ⟨hsame, -⟩ := hspec.same t ht
      exact ⟨keeps_middle before contexts hsame.keeps,
        hsame.done.trans (notDone_of_mem_sequenceTrace ht)⟩
    obtain ⟨hmoments, hcontexts⟩ := @ih (before ++
      [(execActionSequence scheme env dryRun context pid status w).2.1])
      (execActionSequence scheme env dryRun context pid status w).2.2
    rw [continueTrace, continueContexts]
    dsimp only
    constructor
    · intro m hm
      rcases List.mem_append.mp hm with hm | hm
      · obtain ⟨t, ht, rfl⟩ := List.mem_map.mp hm
        exact hhead t ht
      · split at hm
        · cases hm
        · refine Kept.of_keeps (keeps_middle before contexts hspec.keeps) ?_
          have hkept := hmoments m hm
          rwa [List.append_assoc] at hkept
    · split
      · exact .cons hspec.keeps (keeps_refl contexts)
      · exact .cons hspec.keeps hcontexts

/-- The streams of the stages that are not done are open. -/
def StreamsOpen (stages : List Kcontext) (w : World) : Prop :=
  ∀ context ∈ stages, context.done = false → ∀ fd, Uses context fd → fd ∈ w.fds

/-- The end of the stage closes no stream of another stage that is not done. -/
def Moment.ClosesOwn (m : Moment) : Prop :=
  ∀ other ∈ m.before ++ m.after, other.done = false → ∀ fd, Closes m.context fd → ¬Uses other fd

theorem SameStreams.closes_iff {context context' : Kcontext} {fd : Fd}
    (h : SameStreams context context') : Closes context' fd ↔ Closes context fd := by
  rw [Closes, Closes, h.stdin, h.stdout]

theorem SameStreams.uses_iff {context context' : Kcontext} {fd : Fd}
    (h : SameStreams context context') : Uses context' fd ↔ Uses context fd := by
  rw [Uses, Uses, h.closes_iff, h.stderr]

section Open

variable {before after : List Kcontext} {context context' : Kcontext} {w w' : World}

theorem StreamsOpen.of_same (hopen : StreamsOpen (before ++ context :: after) w)
    (hsame : SameStreams context context') (hfds : w'.fds = w.fds) :
    StreamsOpen (before ++ context' :: after) w' := by
  intro c hc hdone fd huses
  rw [hfds]
  rcases List.mem_append.mp hc with hc | hc
  · exact hopen c (List.mem_append_left _ hc) hdone fd huses
  · rcases List.mem_cons.mp hc with rfl | hc
    · refine hopen context ?_ (hsame.done ▸ hdone) fd (hsame.uses_iff.mp huses)
      exact List.mem_append_right _ List.mem_cons_self
    · exact hopen c (List.mem_append_right _ (List.mem_cons_of_mem _ hc)) hdone fd huses

/-- A stage that closes its own streams only leaves those of the others open. -/
theorem StreamsOpen.close (hopen : StreamsOpen (before ++ context :: after) w)
    (hown : ∀ other ∈ before ++ after, other.done = false →
      ∀ fd, Closes context fd → ¬Uses other fd)
    (hdone : context'.done = true)
    (hfds : w'.fds = ((w.close context.stdout).close context.stdin).fds) :
    StreamsOpen (before ++ context' :: after) w' := by
  have hother : ∀ c ∈ before ++ after, c.done = false → ∀ fd, Uses c fd → fd ∈ w'.fds := by
    intro c hc hnot fd huses
    have hmem : c ∈ before ++ context :: after := by
      rcases List.mem_append.mp hc with hc | hc
      · exact List.mem_append_left _ hc
      · exact List.mem_append_right _ (List.mem_cons_of_mem _ hc)
    rw [hfds]
    apply mem_close
    · apply mem_close
      · exact hopen c hmem hnot fd huses
      · exact fun heq => hown c hc hnot fd (.inr heq) huses
    · exact fun heq => hown c hc hnot fd (.inl heq) huses
  intro c hc hnot fd huses
  rcases List.mem_append.mp hc with hc | hc
  · exact hother c (List.mem_append_left _ hc) hnot fd huses
  · rcases List.mem_cons.mp hc with rfl | hc
    · exact Bool.noConfusion (hdone.symm.trans hnot)
    · exact hother c (List.mem_append_right _ hc) hnot fd huses

end Open

theorem continueTrace_open {dryRun : Bool} {pid : Option Pid} {status : WaitStatus}
    {before contexts : List Kcontext} {w : World} (hopen : StreamsOpen (before ++ contexts) w)
    (hown : ∀ m ∈ continueTrace scheme env dryRun pid status before contexts w,
      m.action = none → m.ClosesOwn) :
    (∀ m ∈ continueTrace scheme env dryRun pid status before contexts w,
      StreamsOpen m.stages m.world) ∧
    StreamsOpen (before ++ (continueContexts scheme env dryRun pid status contexts w).1)
      (continueContexts scheme env dryRun pid status contexts w).2 := by
  induction contexts generalizing before w with
  | nil => exact ⟨by simp [continueTrace], hopen⟩
  | cons context contexts ih =>
    have hspec := sequenceTrace_spec scheme env dryRun context pid status w
    rw [continueTrace] at hown ⊢
    rw [continueContexts]
    dsimp only at hown ⊢
    generalize execActionSequence scheme env dryRun context pid status w = r at hspec hown ⊢
    obtain ⟨found, context', w'⟩ := r
    dsimp only at hspec hown ⊢
    -- The streams are open after the call too.
    have hnext : StreamsOpen (before ++ context' :: contexts) w' := by
      cases hspec.loopEnd with
      | waits htrace hsame hfds => exact hopen.of_same hsame hfds
      | ends htrace hdone hstderr hfds =>
        obtain ⟨t, ht, hnone⟩ := htrace
        have hclosing := hown _ (List.mem_append_left _ (List.mem_map_of_mem ht)) hnone
        refine hopen.close (fun other hmem hnot fd hcloses => ?_) hdone hfds
        exact hclosing other hmem hnot fd ((hspec.same t ht).1.closes_iff.mpr hcloses)
    have hhead : ∀ m ∈ (sequenceTrace scheme env dryRun context pid status w).map
        (fun t => (⟨t.1, before, t.2.1, contexts, t.2.2⟩ : Moment)),
        StreamsOpen m.stages m.world := by
      intro m hm
      obtain ⟨t, ht, rfl⟩ := List.mem_map.mp hm
      exact hopen.of_same (hspec.same t ht).1 (hspec.same t ht).2
    by_cases hstop : (found && pid.isSome) = true
    · rw [if_pos hstop, if_pos hstop, List.append_nil]
      exact ⟨hhead, hnext⟩
    · rw [if_neg hstop, if_neg hstop]
      rw [if_neg hstop] at hown
      have hrest := @ih (before ++ [context']) w' (by rwa [List.append_assoc])
        fun m hm => hown m (List.mem_append_right _ hm)
      refine ⟨List.forall_mem_append.mpr ⟨hhead, hrest.1⟩, ?_⟩
      have hlast := hrest.2
      rwa [List.append_assoc] at hlast

theorem runTrace_kept {exec : Kexec} {w : World} {events : List (Pid × WaitStatus)} :
    ∀ m ∈ runTrace scheme env exec w events, Kept exec.contexts m := by
  induction events generalizing exec w with
  | nil => simp [runTrace]
  | cons event events ih =>
    have hpass := @continueTrace_kept scheme env exec.dryRun (some event.1) event.2 []
      exec.contexts { w with live := w.live.erase event.1 }
    intro m hm
    rcases List.mem_append.mp hm with hm | hm
    · exact hpass.1 m hm
    · exact (ih m hm).of_keeps hpass.2

theorem runTrace_open {exec : Kexec} {w : World} {events : List (Pid × WaitStatus)}
    (hopen : StreamsOpen exec.contexts w)
    (hown : ∀ m ∈ runTrace scheme env exec w events, m.action = none → m.ClosesOwn) :
    ∀ m ∈ runTrace scheme env exec w events, StreamsOpen m.stages m.world := by
  induction events generalizing exec w with
  | nil => simp [runTrace]
  | cons event events ih =>
    have hpass := @continueTrace_open scheme env exec.dryRun (some event.1) event.2 []
      exec.contexts { w with live := w.live.erase event.1 } hopen
      fun m hm => hown m (List.mem_append_left _ hm)
    intro m hm
    rcases List.mem_append.mp hm with hm | hm
    · exact hpass.1 m hm
    · exact ih hpass.2 (fun m hm => hown m (List.mem_append_right _ hm)) m hm

theorem restoreWorld_fds (exec : Kexec) (w : World) :
    (restoreWorld scheme exec w).fds = w.fds := by
  unfold restoreWorld
  split <;> rfl

end Invariant

section Launches

variable (scheme : Kscheme) (env : KexecEnv) (exec : Kexec) (w : World)
  (events : List (Pid × WaitStatus))

/-- An ACTION is launched with open streams that are those of the pipeline, and the end of a
stage closes no stream of another one that is not done. -/
def Moment.Sound (m : Moment) : Prop :=
  match m.action with
  | some _ => ∀ stream ∈ [m.context.stdin, m.context.stdout, m.context.stderr],
      ∃ fd, stream = some fd ∧ fd ∈ openedFds scheme env exec w ∧ fd ∈ m.world.fds
  | none => m.ClosesOwn

/-- A stage that closes the pseudo-terminal is the last one to finish of those that have it. -/
def Moment.PtsLast (m : Moment) : Prop :=
  m.action = none → ClosesPts scheme exec w m.before.length → ∀ j other,
    m.stages[j]? = some other → j ≠ m.before.length → UsesPts scheme exec w j → other.done = true

variable {scheme env exec w events}

/-- What the moments of a pipeline are about, where there are any. -/
theorem prepared_of_mem_moments {m : Moment} (hm : m ∈ moments scheme env exec w events) :
    ∃ contexts w₁, Prepared scheme env exec w contexts w₁ ∧ Kept contexts m ∧
      ((∀ m ∈ moments scheme env exec w events, m.action = none → m.ClosesOwn) →
        StreamsOpen m.stages m.world) := by
  rw [moments] at hm ⊢
  cases hprepare : kexecPrepare scheme env exec w with
  | none => simp [hprepare] at hm
  | some prepared =>
    obtain ⟨exec₁, w₁⟩ := prepared
    simp only [hprepare] at hm ⊢
    have hprepared := kexecPrepare_prepared hprepare
    have hpass := @continueTrace_kept scheme env exec₁.dryRun none .zero [] exec₁.contexts
      (restoreWorld scheme exec₁ w₁)
    refine ⟨exec₁.contexts, w₁, hprepared, ?_, fun hown => ?_⟩
    · rcases List.mem_append.mp hm with hm | hm
      · exact hpass.1 m hm
      · exact (runTrace_kept m hm).of_keeps hpass.2
    · have hopen : StreamsOpen exec₁.contexts (restoreWorld scheme exec₁ w₁) := by
        intro context hcontext _ fd huses
        rw [restoreWorld_fds]
        obtain ⟨fd', heq, -, hmem⟩ :=
          hprepared.opened context hcontext _ (uses_iff_mem.mp huses)
        exact Option.some.inj heq ▸ hmem
      have hstart := @continueTrace_open scheme env exec₁.dryRun none .zero [] exec₁.contexts
        (restoreWorld scheme exec₁ w₁) hopen fun m hm => hown m (List.mem_append_left _ hm)
      rcases List.mem_append.mp hm with hm | hm
      · exact hstart.1 m hm
      · exact runTrace_open hstart.2 (fun m hm => hown m (List.mem_append_right _ hm)) m hm

theorem mem_others_iff {m : Moment} {other : Kcontext} :
    other ∈ m.before ++ m.after ↔ ∃ j, j ≠ m.before.length ∧ m.stages[j]? = some other := by
  have herase : m.stages.eraseIdx m.before.length = m.before ++ m.after := by
    rw [Moment.stages, List.eraseIdx_append_of_length_le (Nat.le_refl _), Nat.sub_self]
    rfl
  rw [← herase, List.mem_eraseIdx_iff_getElem?]

/-- A stage that is not done has the streams it was given. -/
theorem Kept.original {contexts : List Kcontext} {m : Moment} (h : Kept contexts m) {j : ℕ}
    {context : Kcontext} (hj : m.stages[j]? = some context) :
    ∃ first, contexts[j]? = some first ∧ Keeps first context := by
  obtain ⟨hlength, hall⟩ := List.forall₂_iff_get.mp h.keeps
  obtain ⟨hlt, heq⟩ := List.getElem?_eq_some_iff.mp hj
  refine ⟨contexts[j], List.getElem?_eq_getElem (hlength ▸ hlt), ?_⟩
  exact heq ▸ hall j (hlength ▸ hlt) hlt

theorem Keeps.closes_iff {first context : Kcontext} (h : Keeps first context)
    (hdone : context.done = false) (fd : Fd) : Closes context fd ↔ Closes first fd := by
  rw [Closes, Closes, h.stdin hdone, h.stdout hdone]

theorem Keeps.uses_iff {first context : Kcontext} (h : Keeps first context)
    (hdone : context.done = false) (fd : Fd) : Uses context fd ↔ Uses first fd := by
  rw [Uses, Uses, h.closes_iff hdone, h.stderr]

theorem closesOwn_iff {contexts : List Kcontext} {w₁ : World} {m : Moment}
    (hprepared : Prepared scheme env exec w contexts w₁) (hkept : Kept contexts m) :
    m.ClosesOwn ↔ (ClosesPts scheme exec w m.before.length → ∀ j other,
      m.stages[j]? = some other → j ≠ m.before.length → UsesPts scheme exec w j →
        other.done = true) := by
  have hself : m.stages[m.before.length]? = some m.context := by simp [Moment.stages]
  obtain ⟨first, hfirst, hkeeps⟩ := hkept.original hself
  -- What two stages share is told by the flags of the terminal.
  have hshared : ∀ j other, m.stages[j]? = some other → j ≠ m.before.length →
      other.done = false → ((∃ fd, Closes m.context fd ∧ Uses other fd) ↔
        ClosesPts scheme exec w m.before.length ∧ UsesPts scheme exec w j) := by
    intro j other hj hne hnot
    obtain ⟨first', hfirst', hkeeps'⟩ := hkept.original hj
    rw [← hprepared.shared _ j first first' hfirst hfirst' hne.symm]
    refine exists_congr fun fd => and_congr ?_ ?_
    · exact hkeeps.closes_iff hkept.notDone fd
    · exact hkeeps'.uses_iff hnot fd
  constructor
  · intro hown hcloses j other hj hne huses
    by_contra hnot
    have hnot : other.done = false := (Bool.not_eq_true _).mp hnot
    obtain ⟨fd, hfd, hfd'⟩ := (hshared j other hj hne hnot).mpr ⟨hcloses, huses⟩
    exact hown other (mem_others_iff.mpr ⟨j, hne, hj⟩) hnot fd hfd hfd'
  · intro hlast other hother hnot fd hfd hfd'
    obtain ⟨j, hne, hj⟩ := mem_others_iff.mp hother
    obtain ⟨hcloses, huses⟩ := (hshared j other hj hne hnot).mp ⟨fd, hfd, hfd'⟩
    exact Bool.noConfusion (hnot.symm.trans (hlast hcloses j other hj hne huses))

variable (scheme env exec w events) in
/-- The descriptors are in order throughout a run if the stages that close the pseudo-terminal
finish after all those that have it. -/
theorem launches_sound_iff :
    (∀ m ∈ moments scheme env exec w events, m.Sound scheme env exec w) ↔
      ∀ m ∈ moments scheme env exec w events, m.PtsLast scheme exec w := by
  have hends : ∀ m ∈ moments scheme env exec w events, m.action = none →
      (m.ClosesOwn ↔ m.PtsLast scheme exec w) := by
    intro m hm hnone
    obtain ⟨contexts, w₁, hprepared, hkept, -⟩ := prepared_of_mem_moments hm
    rw [closesOwn_iff hprepared hkept]
    exact ⟨fun h _ => h, fun h => h hnone⟩
  constructor
  · intro hsound m hm hnone
    have hown : m.ClosesOwn := by
      have hm' := hsound m hm
      rwa [Moment.Sound, hnone] at hm'
    exact (hends m hm hnone).mp hown hnone
  · intro hlast m hm
    have hown : ∀ m ∈ moments scheme env exec w events, m.action = none → m.ClosesOwn :=
      fun m hm hnone => (hends m hm hnone).mpr (hlast m hm)
    obtain ⟨contexts, w₁, hprepared, hkept, hopen⟩ := prepared_of_mem_moments hm
    cases haction : m.action with
    | none =>
      rw [Moment.Sound, haction]
      exact hown m hm haction
    | some action =>
      rw [Moment.Sound, haction]
      dsimp only
      have hself : m.stages[m.before.length]? = some m.context := by simp [Moment.stages]
      obtain ⟨first, hfirst, hkeeps⟩ := hkept.original hself
      have hstreams : [m.context.stdin, m.context.stdout, m.context.stderr] =
          [first.stdin, first.stdout, first.stderr] := by
        rw [hkeeps.stdin hkept.notDone, hkeeps.stdout hkept.notDone, hkeeps.stderr]
      intro stream hstream
      rw [hstreams] at hstream
      obtain ⟨fd, heq, hopened, -⟩ :=
        hprepared.opened first (List.mem_of_getElem? hfirst) stream hstream
      have hmem := List.mem_of_getElem? hself
      refine ⟨fd, heq, hopened, hopen hown m.context hmem hkept.notDone fd ?_⟩
      rw [hkeeps.uses_iff hkept.notDone, uses_iff_mem]
      exact heq ▸ hstream

end Launches

/-- The sample scheme, with two ACTIONs in the command `b`. -/
def twoActions : Kscheme :=
  { Ksession.sampleScheme with
    body := fun b =>
      if b = 4 then { Ksession.sampleBody b with actions := [.new, .new] }
      else Ksession.sampleBody b }

/-- The pipeline `x | b`. -/
def twoStages : Kexec :=
  { Kexec.new true with
    contexts := [.new { Kpargv.new with command := some 2, status := .ok } 0 false,
      .new { Kpargv.new with command := some 4, status := .ok } 1 true] }

/-- A client that has a terminal and takes the output of the command to a file. -/
def ttyWorld : World :=
  ⟨{ Ksession.sampleRoot with isattyStdin := true, isattyStderr := true }, [], [], []⟩

/-- The first stage ends and closes the pseudo-terminal. The second ACTION of the other one is
launched with it as stderr. -/
theorem launched_without_stderr :
    ¬∀ m ∈ moments twoActions (sampleEnv fun _ => false) twoStages ttyWorld
        [(1, .exited 0), (2, .exited 0)],
      m.Sound twoActions (sampleEnv fun _ => false) twoStages ttyWorld := by
  intro hsound
  have hrun : (moments twoActions (sampleEnv fun _ => false) twoStages ttyWorld
      [(1, .exited 0), (2, .exited 0)])[3]?.map (fun m =>
        (m.action.isSome, m.context.stderr, m.world.fds)) = some (true, some 2, [5, 3, 4, 1]) := by
    decide
  obtain ⟨m, hm, heq⟩ := Option.map_eq_some_iff.mp hrun
  obtain ⟨haction, hstderr, hfds⟩ : m.action.isSome = true ∧ m.context.stderr = some 2 ∧
      m.world.fds = [5, 3, 4, 1] := by simpa using heq
  obtain ⟨action, haction⟩ := Option.isSome_iff_exists.mp haction
  have hm' := hsound m (List.mem_of_getElem? hm)
  rw [Moment.Sound, haction] at hm'
  obtain ⟨fd, hfd, -, hopen⟩ := hm' m.context.stderr (by simp)
  obtain rfl : 2 = fd := Option.some.inj (hstderr.symm.trans hfd)
  rw [hfds] at hopen
  exact absurd hopen (by decide)

end Kexec

end Klish
