import Klish.Kpath

/-!
# Execution of a pipeline

A `Kexec` holds one context for each stage of a pipeline. A context runs the ACTIONs of its
command one after another; the event loop calls in again each time a child has ended.
What the system does (results of the symbols, refused calls, numbers of new processes and
descriptors) is a parameter, and the world keeps a record of what has happened so far.
-/

namespace Klish

abbrev Fd := ℕ
abbrev Pid := ℕ

/-- What `waitpid` reports of a child. -/
inductive WaitStatus where
  | exited (code : Fin 256)
  | signaled (signal : Fin 127) (core : Bool)
  deriving DecidableEq, Repr

namespace WaitStatus

/-- The status word. -/
def toNat : WaitStatus → ℕ
  | exited code => code * 256
  | signaled signal core => signal + if core then 128 else 0

/-- The status word 0, that of an exit with code 0. -/
def zero : WaitStatus := exited 0

/-- `WEXITSTATUS` -/
def exitstatus (status : WaitStatus) : ℤ := (status.toNat / 256 % 256 : ℕ)

theorem exitstatus_exited (code : Fin 256) : (exited code).exitstatus = (code : ℕ) := by
  have hcode := code.isLt
  simp only [exitstatus, toNat]
  omega

/-- The macro reads a normal exit with code 0 out of a death by a signal. -/
theorem exitstatus_signaled (signal : Fin 127) (core : Bool) :
    (signaled signal core).exitstatus = 0 := by
  have hsignal := signal.isLt
  simp only [exitstatus, toNat]
  split <;> omega

end WaitStatus

structure Kcontext where
  pargv : Kpargv
  retcode : ℤ
  /-- The current ACTION and those after it, empty for NULL. -/
  actionIter : List Kaction
  stdin : Option Fd
  stdout : Option Fd
  stderr : Option Fd
  pid : Option Pid
  done : Bool
  pipelineStage : ℕ
  isLastPipelineStage : Bool

/-- `kcontext_new`, for one component of a line. -/
def Kcontext.new (pargv : Kpargv) (pipelineStage : ℕ) (isLastPipelineStage : Bool) : Kcontext where
  pargv := pargv
  retcode := 0
  actionIter := []
  stdin := none
  stdout := none
  stderr := none
  pid := none
  done := false
  pipelineStage := pipelineStage
  isLastPipelineStage := isLastPipelineStage

/-- A context, but for its streams. -/
def Kcontext.withoutStreams (context : Kcontext) : Kcontext :=
  { context with stdin := none, stdout := none, stderr := none }

structure Kexec where
  /-- Common ACTIONs, not service ACTIONs. -/
  isAction : Bool
  contexts : List Kcontext
  dryRun : Bool
  stdin : Option Fd
  stdout : Option Fd
  stderr : Option Fd
  pts : Option Fd
  savedPath : Option Kpath

/-- `kexec_new` -/
def Kexec.new (isAction : Bool) : Kexec where
  isAction := isAction
  contexts := []
  dryRun := false
  stdin := none
  stdout := none
  stderr := none
  pts := none
  savedPath := none

/-- What became of one ACTION. -/
inductive ActionOutcome where
  /-- Not run because of the dry-run flag. -/
  | simulated
  /-- A sync symbol returned. The process grabs its output. -/
  | returned (value : ℤ) (grabber : Option Pid)
  /-- A process was forked for an async symbol. -/
  | started (pid : Pid)
  /-- The system refused a pipe or a process. -/
  | refused
  /-- The process has ended. -/
  | ended (status : WaitStatus)
  deriving DecidableEq

/-- One step of an ACTION. It is named by its stage and by the number of ACTIONs after it. -/
structure ActionRecord where
  stage : ℕ
  left : ℕ
  action : Kaction
  outcome : ActionOutcome
  /-- The retcode of the context after the step. -/
  retcode : ℤ
  deriving DecidableEq

/-- The session, the children that have not been waited for, the open descriptors and the
record of the ACTIONs. -/
structure World where
  session : Ksession
  live : List Pid
  fds : List Fd
  log : List ActionRecord

/-- The system and the symbols of the plugins. -/
structure KexecEnv where
  refused : World → Kcontext → Kaction → Bool
  newPid : World → Pid
  newPid_fresh : ∀ w, newPid w ∉ w.live
  symResult : World → Kcontext → Kaction → ℤ
  symEffect : World → Kcontext → Kaction → Ksession
  /-- The read and the write end of a new pipe. -/
  pipe : World → Option (Fd × Fd)
  pipe_fresh : ∀ w r s, pipe w = some (r, s) → r ∉ w.fds ∧ s ∉ w.fds ∧ r ≠ s
  /-- The master and the slave side of a new pseudo-terminal. -/
  openPty : World → Option (Fd × Fd)
  openPty_fresh : ∀ w m s, openPty w = some (m, s) → m ∉ w.fds ∧ s ∉ w.fds ∧ m ≠ s

namespace World

/-- `close`. Nothing happens to -1. -/
def close (w : World) (fd : Option Fd) : World :=
  match fd with
  | none => w
  | some fd => { w with fds := w.fds.filter (· ≠ fd) }

def record (w : World) (r : ActionRecord) : World := { w with log := w.log ++ [r] }

def fork (env : KexecEnv) (w : World) : Pid × World :=
  (env.newPid w, { w with live := env.newPid w :: w.live })

def openPair (w : World) (ends : Fd × Fd) : World :=
  { w with fds := ends.1 :: ends.2 :: w.fds }

section Fields

variable (w : World) (fd : Option Fd) (r : ActionRecord)

@[simp] theorem close_log : (w.close fd).log = w.log := by cases fd <;> rfl

@[simp] theorem close_live : (w.close fd).live = w.live := by cases fd <;> rfl

@[simp] theorem close_session : (w.close fd).session = w.session := by cases fd <;> rfl

@[simp] theorem record_log : (w.record r).log = w.log ++ [r] := rfl

@[simp] theorem record_live : (w.record r).live = w.live := rfl

end Fields

end World

namespace Kexec

variable (scheme : Kscheme) (env : KexecEnv)

/-- The ACTIONs of the context's command. -/
def commandActions (context : Kcontext) : List Kaction :=
  match context.pargv.command with
  | none => []
  | some e => scheme.actions e

/-- `kexec_interactive` -/
def kexecInteractive : List Kcontext → Bool
  | [] => false
  | context :: contexts =>
    match context.pargv.command with
    | none => false
    | some e => scheme.kentryOut e == .tty || kexecInteractive contexts

/-- `kexec_need_stdin`. The first command needs it with `in=true` too. -/
def kexecNeedStdin : ℕ → List Kcontext → Bool
  | _, [] => false
  | num, context :: contexts =>
    match context.pargv.command with
    | none => false
    | some e =>
      (num == 0 && scheme.kentryIn e == .yes) || scheme.kentryIn e == .tty ||
        kexecNeedStdin (num + 1) contexts

/-- Two ends for one of the global streams: those of the terminal, or of a new pipe. -/
def streamEnds (tty : Option (Fd × Fd)) (w : World) : Option ((Fd × Fd) × World) :=
  match tty with
  | some ends => some (ends, w)
  | none => (env.pipe w).map fun ends => (ends, w.openPair ends)

/-- The loop of `kexec_prepare` over the contexts. `stdin` is the stream of the next one. -/
def linkContexts (globalStderr lastStdout : Fd) :
    Fd → List Kcontext → World → Option (List Kcontext × World)
  | _, [], w => some ([], w)
  | stdin, [context], w =>
    some ([{ context with
      stdin := some stdin, stdout := some lastStdout, stderr := some globalStderr }], w)
  | stdin, context :: next :: contexts, w =>
    match env.pipe w with
    | none => none
    | some (readEnd, writeEnd) =>
      (linkContexts globalStderr lastStdout readEnd (next :: contexts)
          (w.openPair (readEnd, writeEnd))).map fun r =>
        ({ context with
          stdin := some stdin, stdout := some writeEnd, stderr := some globalStderr } :: r.1, r.2)

/-- `kexec_prepare` -/
def kexecPrepare (exec : Kexec) (w : World) : Option (Kexec × World) :=
  if exec.contexts.isEmpty then none
  else
    let isattyStdin := exec.isAction && w.session.isattyStdin
    let isattyStdout :=
      exec.isAction && kexecInteractive scheme exec.contexts && w.session.isattyStdout
    let isattyStderr := exec.isAction && w.session.isattyStderr
    let pty : Option (Option (Fd × Fd) × World) :=
      if isattyStdin || isattyStdout || isattyStderr then
        (env.openPty w).map fun ends => (some ends, w.openPair ends)
      else some (none, w)
    pty.bind fun (pty, w) =>
      -- The read end of stdin is the slave side, the read ends of stdout and stderr the master.
      let ptsFirst := pty.map fun (ptm, pts) => (pts, ptm)
      (streamEnds env (if isattyStdin then ptsFirst else none) w).bind fun (stdinEnds, w) =>
      (streamEnds env (if isattyStdout then pty else none) w).bind fun (stdoutEnds, w) =>
      (streamEnds env (if isattyStderr then pty else none) w).bind fun (stderrEnds, w) =>
      (linkContexts env stderrEnds.2 stdoutEnds.2 stdinEnds.1 exec.contexts w).map
        fun (contexts, w) =>
        ({ exec with
            contexts := contexts
            stdin := some stdinEnds.2
            stdout := some stdoutEnds.1
            stderr := some stderrEnds.1
            pts := pty.map Prod.snd
            savedPath := some w.session.path }, w)

/-- What `exec_action` gives back: the forked process, the exit status, the record. -/
structure Launch where
  pid : Option Pid
  exitstatus : ℤ
  outcome : ActionOutcome
  world : World

/-- The symbol of a sync ACTION, run in the server itself. -/
def runSym (context : Kcontext) (action : Kaction) (grabber : Option Pid) (w : World) : Launch where
  pid := grabber
  exitstatus := env.symResult w context action
  outcome := .returned (env.symResult w context action) grabber
  world := { w with session := env.symEffect w context action }

/-- `exec_action_sync`. A silent ACTION of the last stage has no grabber. -/
def execActionSync (context : Kcontext) (action : Kaction) (exitstatus : ℤ) (w : World) : Launch :=
  if action.sym.any Ksym.silent && context.isLastPipelineStage then
    runSym env context action none w
  else if env.refused w context action then ⟨none, exitstatus, .refused, w⟩
  else
    let (grabber, w) := w.fork env
    runSym env context action (some grabber) w

/-- `exec_action_async` -/
def execActionAsync (context : Kcontext) (action : Kaction) (exitstatus : ℤ) (w : World) : Launch :=
  if env.refused w context action then ⟨none, exitstatus, .refused, w⟩
  else
    let (child, w) := w.fork env
    ⟨some child, exitstatus, .started child, w⟩

/-- `exec_action`. Its result is not looked at by its caller. -/
def execAction (context : Kcontext) (action : Kaction) (exitstatus : ℤ) (w : World) : Launch :=
  if action.isSync then execActionSync env context action exitstatus w
  else execActionAsync env context action exitstatus w

/-- The end of an ACTION sequence. -/
def finish (context : Kcontext) (w : World) : Kcontext × World :=
  ({ context with actionIter := [], done := true, stdout := none, stdin := none },
    (w.close context.stdout).close context.stdin)

/-- The loop of `exec_action_sequence`, over the ACTIONs after the current one. -/
def actionLoop (dryRun : Bool) :
    List Kaction → ℤ → Kcontext → World → Kcontext × World
  | [], _, context, w => finish context w
  | action :: rest, exitstatus, context, w =>
    let context := { context with actionIter := action :: rest }
    if !action.meetExecConditions context.retcode then actionLoop dryRun rest exitstatus context w
    else if dryRun && !action.isPermanent then
      let retcode := if action.updateRetcode then 0 else context.retcode
      actionLoop dryRun rest 0 { context with retcode }
        (w.record ⟨context.pipelineStage, rest.length, action, .simulated, retcode⟩)
    else
      let r := execAction env context action exitstatus w
      let retcode :=
        if action.isSync && action.updateRetcode then r.exitstatus else context.retcode
      let w := r.world.record ⟨context.pipelineStage, rest.length, action, r.outcome, retcode⟩
      match r.pid with
      | some pid => ({ context with retcode, pid := some pid }, w)
      | none => actionLoop dryRun rest r.exitstatus { context with retcode } w

/-- The retcode that the end of its process gives the context. -/
def noteTermination (context : Kcontext) (status : WaitStatus) (w : World) : Kcontext × World :=
  match context.actionIter with
  | [] => (context, w)
  | terminated :: rest =>
    let retcode :=
      if !terminated.isSync && terminated.updateRetcode then status.exitstatus else context.retcode
    ({ context with retcode },
      w.record ⟨context.pipelineStage, rest.length, terminated, .ended status, retcode⟩)

/-- `exec_action_sequence`. It finds out itself whether the process belongs to the context. -/
def execActionSequence (dryRun : Bool) (context : Kcontext) (pid : Option Pid)
    (status : WaitStatus) (w : World) : Bool × Kcontext × World :=
  if context.done || context.pid != pid then (false, context, w)
  else
    let todo :=
      match context.actionIter with
      | [] => commandActions scheme context
      | _ :: rest => rest
    let (context, w) := noteTermination context status w
    (true, actionLoop env dryRun todo status.exitstatus context w)

/-- The loop of `kexec_continue_command_execution`. -/
def continueContexts (dryRun : Bool) (pid : Option Pid) (status : WaitStatus) :
    List Kcontext → World → List Kcontext × World
  | [], w => ([], w)
  | context :: contexts, w =>
    let (found, context, w) := execActionSequence scheme env dryRun context pid status w
    if found && pid.isSome then (context :: contexts, w)
    else
      let (contexts, w) := continueContexts dryRun pid status contexts w
      (context :: contexts, w)

/-- `kexec_continue_command_execution` -/
def kexecContinueCommandExecution (exec : Kexec) (pid : Option Pid) (status : WaitStatus)
    (w : World) : Kexec × World :=
  let (contexts, w) := continueContexts scheme env exec.dryRun pid status exec.contexts w
  ({ exec with contexts }, w)

/-- `kexec_done` -/
def kexecDone (exec : Kexec) : Bool := exec.contexts.all Kcontext.done

/-- `kexec_retcode`, when the caller wants the value. -/
def kexecRetcode (exec : Kexec) : Option ℤ :=
  if exec.contexts.isEmpty then none
  else if !kexecDone exec then none
  else some (((exec.contexts.map Kcontext.retcode).find? (· ≠ 0)).getD 0)

/-- The loop that pops the path down to a number of levels. The counter is the length. -/
def popLevels (limit : ℕ) : ℕ → Kpath → Kpath
  | 0, path => path
  | n + 1, path =>
    if limit < path.len then
      match path.pop with
      | none => path
      | some path => popLevels limit n path
    else path

/-- The restoring of the path in `kexec_exec`, for the first context of a pipeline. -/
def restorePath (context : Kcontext) (path : Kpath) : Kpath :=
  match context.pargv.command with
  | none => path
  | some e =>
    if (scheme.entry e).restore then popLevels (sizeInc context.pargv.level) path.len path
    else path

/-- The state of the world when the path has been restored. -/
def restoreWorld (exec : Kexec) (w : World) : World :=
  match exec.contexts with
  | [] => w
  | context :: _ =>
    { w with session := { w.session with path := restorePath scheme context w.session.path } }

/-- `kexec_exec` -/
def kexecExec (exec : Kexec) (w : World) : Option (Kexec × World) :=
  (kexecPrepare scheme env exec w).map fun (exec, w) =>
    kexecContinueCommandExecution scheme env exec none .zero (restoreWorld scheme exec w)

/-- A child is reported by `waitpid`. -/
def childEnded (exec : Kexec) (pid : Pid) (status : WaitStatus) (w : World) : Kexec × World :=
  kexecContinueCommandExecution scheme env exec (some pid) status { w with live := w.live.erase pid }

/-- The event loop over the termination events of the children. -/
def step (s : Kexec × World) (event : Pid × WaitStatus) : Option (Kexec × World) :=
  some (childEnded scheme env s.1 event.1 event.2 s.2)

end Kexec

end Klish
