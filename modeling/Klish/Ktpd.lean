import Klish.KexecSpec
import Klish.KtpdHint
import Klish.ParseConservation
import Klish.Ktp
import Klish.Lib.EventLoop

/-!
# The server session

The callbacks of `ktpd_session`, each a function from one state to the next. What the system
answers during a callback (bytes read and written, local executions) is given by a `KtpdSys`.
A message sent is added to those on their way to the client.
-/

namespace Klish

/-- `BUF_LIMIT` -/
def bufLimit : ℕ := 65536

inductive KtpdState where
  | disconnected | unauthorized | idle | waitForProcess
  deriving DecidableEq, Repr

/-- The function the event loop calls for a descriptor. -/
inductive KtpdCallback where
  | client | actionStdout | actionStderr
  deriving DecidableEq, Repr

/-- A `kexec_t` with its buffers. -/
structure KtpdExec extends Kexec where
  bufin : Bytes
  bufout : Bytes
  buferr : Bytes
  /-- What `write` has taken for the stdin of the command. -/
  written : Bytes

/-- What does not change during a session. -/
structure KtpdEnv where
  scheme : Kscheme
  kexec : KexecEnv
  L : EventLoop KtpdCallback
  /-- The socket of the client. -/
  clientFd : Fd
  argvParse : String → Option FauxArgv
  getlines : String → List String
  hasContent : String → Bool
  /-- `faux_conv_atous` -/
  atous : String → Option ℕ
  /-- `faux_str_charsn`, for the place of a ^C. -/
  charsn : Bytes → Option ℕ
  charsn_spec : ∀ data pos, charsn data = some pos → data[pos]? = some 3

/-- What the system does during one callback. -/
structure KtpdSys where
  /-- The service ACTIONs. -/
  V : Oracle
  fuel : ℕ
  /-- `getsockopt` knows the peer. -/
  peercred : Bool
  isatty : Fd → Bool
  /-- The number of bytes that `write` takes, 0 on an error. -/
  taken : ℕ
  /-- What is read from the streams of the command. -/
  readOut : Bytes
  readErr : Bytes
  /-- What silent symbols have put into the buffers of the command themselves. -/
  printedOut : Bytes
  printedErr : Bytes
  /-- The length of the buffer of bytes to send to the client. -/
  obufLen : ℕ
  /-- Bytes are left in that buffer when a message has been sent. -/
  stalls : Bool

/-- `ktpd_session_t`, with the world it runs in and the messages on their way to the client. -/
structure Ktpd (env : KtpdEnv) where
  state : KtpdState
  exec : Option KtpdExec
  exit : Bool
  stdinMustBeClosed : Bool
  eloop : env.L.State
  world : World
  toClient : List KtpMsg

namespace Ktpd

variable {env : KtpdEnv} (sys : KtpdSys) (ktpd : Ktpd env)

/-- `ktpd_session_new`, on an event loop that does not know the session yet. -/
def new (eloop : env.L.State) (world : World) : Ktpd env where
  state := .unauthorized
  exec := none
  exit := false
  stdinMustBeClosed := false
  eloop := env.L.includeFdEvent (env.L.addFd eloop env.clientFd .client) env.clientFd .pollin
  world := world
  toClient := []

/-- `faux_msg_send_async`. When bytes are left in the queue, `ktp_stall_cb` is called. -/
def send (msg : KtpMsg) : Ktpd env :=
  { ktpd with
    toClient := ktpd.toClient ++ [msg]
    eloop :=
      if sys.stalls then env.L.includeFdEvent ktpd.eloop env.clientFd .pollout else ktpd.eloop }

def withSession (session : Ksession) : Ktpd env :=
  { ktpd with world := { ktpd.world with session } }

/-- The loop of `generate_prompt` over the levels, from the current one up. -/
def promptLoop (scheme : Kscheme) (V : Oracle) :
    List EntryId → Ksession → Option String × Ksession
  | [], session => (none, session)
  | view :: levels, session =>
    match scheme.nestedByPurpose view .prompt with
    | none => promptLoop scheme V levels session
    | some promptEntry =>
      let r :=
        if (scheme.actions promptEntry).isEmpty then (none, session)
        else
          let res := V promptEntry [] none
          (Ksession.execOutput res, session.noteStopped res)
      match r.1.or (scheme.entry promptEntry).value with
      | some prompt => (some prompt, r.2)
      | none => promptLoop scheme V levels r.2

/-- `generate_prompt` -/
def generatePrompt : Option String × Ksession :=
  promptLoop env.scheme sys.V ktpd.world.session.path.levels.reverse ktpd.world.session

/-- The value of a hotkey parameter. -/
def hotkeyData (hotkey : Khotkey) : Bytes := cbytes hotkey.key ++ 0 :: cbytes hotkey.cmd

/-- The hotkeys of the path. Those of the current level hide others with the same key. -/
def pathHotkeys (scheme : Kscheme) (path : Kpath) : List Khotkey :=
  match path.levels with
  | [view] => (scheme.bodyOf view).hotkeys
  | levels =>
    (levels.reverse.flatMap fun view => (scheme.bodyOf view).hotkeys).foldl
      (fun list hotkey => if list.any fun h => h.key == hotkey.key then list else list ++ [hotkey]) []

/-- `add_hotkeys_to_msg` -/
def addHotkeysToMsg (msg : KtpMsg) : KtpMsg :=
  (pathHotkeys env.scheme ktpd.world.session.path).foldl
    (fun msg hotkey => msg.addParam .hotkey (hotkeyData hotkey)) msg

/-- The return code as a parameter, cut to 8 bits. -/
def addRetcode (msg : KtpMsg) (retcode : ℤ) : KtpMsg :=
  msg.addParam .retcode [UInt8.ofNat (retcode % 256).toNat]

/-- The prompt is generated and added to the answer, and the hotkeys if the path is another one
than before. -/
def sendAck (ack : KtpMsg) (hotkeys : Bool) : Ktpd env :=
  let prompt := ktpd.generatePrompt sys
  let ktpd := ktpd.withSession prompt.2
  let ack := ack.addStr .prompt prompt.1
  ktpd.send sys (if hotkeys then ktpd.addHotkeysToMsg ack else ack)

/-- `ktpd_session_process_auth` -/
def processAuth (msg : KtpMsg) : Ktpd env :=
  if !sys.peercred then
    { ktpd.send sys ((KtpMsg.preform .authAck { error := true, exit := true }).addStr .error
        (some "Can't get peer credentials")) with exit := true }
  else
    let ktpd := ktpd.withSession { ktpd.world.session with
      isattyStdin := msg.status.ttyStdin
      isattyStdout := msg.status.ttyStdout
      isattyStderr := msg.status.ttyStderr }
    { ktpd.sendAck sys (addRetcode (.preform .authAck {}) 0) true with state := .idle }

/-- The buffer of a stream after the descriptor has been read. One that is closed gives nothing. -/
def readStream (exec : KtpdExec) (fd : Option Fd) (isStderr : Bool) : Bytes :=
  let buf := if isStderr then exec.buferr else exec.bufout
  if fd.any (· ∈ ktpd.world.fds) then buf ++ if isStderr then sys.readErr else sys.readOut else buf

def emptyStream (exec : KtpdExec) (isStderr : Bool) : KtpdExec :=
  if isStderr then { exec with buferr := [] } else { exec with bufout := [] }

/-- The message of `get_stream`. -/
def streamMsg (buf : Bytes) (isStderr : Bool) : KtpMsg :=
  (KtpMsg.preform (if isStderr then .stderr else .stdout) {}).addParam .line buf

/-- `get_stream`. There is nothing to read if the descriptor is -1. -/
def getStream (exec : KtpdExec) (fd : Option Fd) (isStderr : Bool) : KtpdExec × Ktpd env :=
  let buf := ktpd.readStream sys exec fd isStderr
  if buf.isEmpty then (exec, ktpd)
  else
    let ktpd := ktpd.send sys (streamMsg buf isStderr)
    let eloop :=
      match fd with
      | none => ktpd.eloop
      | some fd =>
        -- Pause stdout/stderr receiving because buffer is full.
        if bufLimit < sys.obufLen then env.L.excludeFdEvent ktpd.eloop fd .pollin else ktpd.eloop
    (emptyStream exec isStderr, { ktpd with eloop })

/-- `ktpd_session_log` -/
def sessionLog (exec : KtpdExec) : Ktpd env :=
  exec.contexts.foldl (fun ktpd context =>
    match context.pargv.command.bind fun e => env.scheme.nestedByPurpose e .log with
    | none => ktpd
    | some log =>
      if (env.scheme.actions log).isEmpty then ktpd
      else ktpd.withSession
        (ktpd.world.session.noteStopped (sys.V log context.pargv.pargs none))) ktpd

/-- `kexec_free` closes the streams of the contexts and those of the pipeline. -/
def kexecFree (exec : KtpdExec) : Ktpd env :=
  let world := exec.contexts.foldl (fun world context =>
    ((world.close context.stdin).close context.stdout).close context.stderr) ktpd.world
  { ktpd with world := ((world.close exec.stdin).close exec.stdout).close exec.stderr }

/-- The path is not the one that was saved when the pipeline was prepared. -/
def viewWasChanged (exec : KtpdExec) : Bool :=
  exec.savedPath.map Kpath.levels != some ktpd.world.session.path.levels

/-- What `ktpd_session_exec` gives back. -/
structure ExecEnd (env : KtpdEnv) where
  rc : Bool
  retcode : ℤ
  error : Option String
  viewWasChanged : Bool
  ktpd : Ktpd env

/-- `faux_eloop_add_fd` for a stream, and nothing for -1. -/
def addStream (eloop : env.L.State) (fd : Option Fd) (callback : KtpdCallback) : env.L.State :=
  match fd with
  | none => eloop
  | some fd => env.L.addFd eloop fd callback

/-- `faux_eloop_include_fd_event` with POLLIN for a stream. -/
def pollStream (eloop : env.L.State) (fd : Option Fd) : env.L.State :=
  match fd with
  | none => eloop
  | some fd => env.L.includeFdEvent eloop fd .pollin

/-- The descriptors of a command that is left running. The streams may be one descriptor. -/
def addStreams (exec : KtpdExec) : Ktpd env :=
  let eloop := addStream ktpd.eloop exec.stdin .actionStdout
  let eloop := addStream eloop exec.stdout .actionStdout
  let eloop := addStream eloop exec.stderr .actionStderr
  { ktpd with eloop := pollStream (pollStream eloop exec.stdout) exec.stderr }

/-- `ktpd_session_exec`. There is no result while the parser has not returned. -/
def sessionExec (line : String) (dryRun : Bool) : Option (ExecEnd env) :=
  (Ksession.parseForExec env.scheme sys.V env.argvParse ktpd.world.session line sys.fuel).map
    fun r =>
      let ktpd := ktpd.withSession r.session
      match r.result with
      | .error error => ⟨false, -1, error, false, ktpd⟩
      | .ok exec =>
        match Kexec.kexecExec env.scheme env.kexec { exec with dryRun } ktpd.world with
        | none => ⟨false, -1, none, false, ktpd⟩
        | some (exec, world) =>
          let ktpd := { ktpd with world }
          let exec : KtpdExec := ⟨exec, [], sys.printedOut, sys.printedErr, []⟩
          match Kexec.kexecRetcode exec.toKexec with
          | some retcode =>
            let viewWasChanged := ktpd.viewWasChanged exec
            -- A silent symbol writes directly to the buffers.
            let out := ktpd.getStream sys exec none false
            let err := out.2.getStream sys out.1 none true
            ⟨true, retcode, none, viewWasChanged, (err.2.sessionLog sys err.1).kexecFree err.1⟩
          | none =>
            ⟨true, -1, none, false,
              { ktpd with state := .waitForProcess, exec := some exec }.addStreams exec⟩

/-- The answer to a command that is left running. -/
def incompletedAck (scheme : Kscheme) (exec : KtpdExec) : KtpMsg :=
  .preform .cmdAck
    { incompleted := true
      interactive := Kexec.kexecInteractive scheme exec.contexts
      needStdin := Kexec.kexecNeedStdin scheme 0 exec.contexts }

/-- The exit flag follows the session's flag, and the client is told. -/
def noteDone (status : KtpStatus) : Ktpd env × KtpStatus :=
  if ktpd.world.session.done then ({ ktpd with exit := true }, { status with exit := true })
  else (ktpd, status)

/-- `ktpd_session_process_cmd` -/
def processCmd (msg : KtpMsg) : Option (Ktpd env) :=
  match (msg.strParam .line).filter env.hasContent with
  -- User sent empty command. It's not bug.
  | none => some (ktpd.sendAck sys (.preform .cmdAck {}) false)
  | some line =>
    ({ ktpd with exec := none }.sessionExec sys line msg.status.dryRun).map fun (r : ExecEnd env) =>
      match r.ktpd.exec with
      -- Command is scheduled.
      | some exec => r.ktpd.send sys (incompletedAck env.scheme exec)
      | none =>
        let done := r.ktpd.noteDone {}
        let ack := KtpMsg.preform .cmdAck done.2
        let ack :=
          if r.rc then addRetcode ack r.retcode
          else { ack with status := { error := true } }.addStr .error (some (r.error.getD ""))
        done.1.sendAck sys ack r.viewWasChanged

/-- `ktpd_session_process_completion` -/
def processCompletion (msg : KtpMsg) : Option (Ktpd env) :=
  match msg.strParam .line with
  | none => some (ktpd.send sys (.ofError .completionAck none))
  | some line =>
    (Ksession.parseForHint env.scheme sys.V env.argvParse ktpd.world.session line .completion
        sys.fuel).map fun r =>
      let ktpd := ktpd.withSession r.2
      match r.1 with
      | none => ktpd.send sys (.ofError .completionAck none)
      | some pargv =>
        let done := ktpd.noteDone {}
        let ack := KtpMsg.preform .completionAck done.2
        let ack := ack.addStr .prefx (pargv.lastArg.filter (· ≠ ""))
        let completions := Ksession.completionLoop env.scheme sys.V env.getlines pargv
          pargv.completions [] done.1.world.session
        (done.1.withSession completions.2).send sys
          (completions.1.foldl (fun ack s => ack.addParam .line (cbytes s)) ack)

/-- `ktpd_session_process_help` -/
def processHelp (msg : KtpMsg) : Option (Ktpd env) :=
  match msg.strParam .line with
  | none => some (ktpd.send sys (.ofError .helpAck none))
  | some line =>
    (Ksession.parseForHint env.scheme sys.V env.argvParse ktpd.world.session line .help
        sys.fuel).map fun r =>
      let ktpd := ktpd.withSession r.2
      match r.1 with
      | none => ktpd.send sys (.ofError .helpAck none)
      | some pargv =>
        let done := ktpd.noteDone {}
        let helps := Ksession.helpLoop env.scheme sys.V env.getlines pargv
          pargv.completions [] done.1.world.session
        (done.1.withSession helps.2).send sys
          (helps.1.foldl (fun ack h =>
            (ack.addParam .prefx (cbytes h.1)).addParam .line (cbytes h.2))
            (.preform .helpAck done.2))

/-- `stdin_out`, when it need not process all data: one call of `write`. -/
def stdinOut (exec : KtpdExec) (fd : Fd) : KtpdExec :=
  let n := if fd ∈ ktpd.world.fds then sys.taken else 0
  { exec with
    bufin := exec.bufin.drop n
    written := exec.written ++ exec.bufin.take n }

/-- What `push_stdin` changes in the event loop, with what is left in the buffer. -/
def pushEloop (eloop : env.L.State) (fd : Fd) (bufin : Bytes) : env.L.State :=
  -- Restore data receiving from client.
  let eloop :=
    if bufin.length < bufLimit then env.L.includeFdEvent eloop env.clientFd .pollin else eloop
  -- All data is written.
  if bufin.isEmpty then env.L.excludeFdEvent eloop fd .pollout else eloop

/-- `push_stdin` -/
def pushStdin : Ktpd env :=
  match ktpd.exec with
  | none => ktpd
  | some exec =>
    match exec.stdin with
    | none => ktpd
    | some fd =>
      let exec := ktpd.stdinOut sys exec fd
      { ktpd with
        exec := some exec
        eloop := pushEloop ktpd.eloop fd exec.bufin
        world :=
          if exec.bufin.isEmpty && ktpd.stdinMustBeClosed then ktpd.world.close (some fd)
          else ktpd.world }

/-- `kexec_current_action` -/
def kexecCurrentAction (exec : Kexec) : Option Kaction :=
  exec.contexts.head?.bind fun context => context.actionIter.head?

/-- The loop that leaves out the ^C symbols. The counter is the length. -/
def dropInterrupts (env : KtpdEnv) : ℕ → Bytes → Bytes
  | 0, start => start
  | n + 1, start =>
    match env.charsn start with
    | none => start
    | some pos => start.take pos ++ dropInterrupts env n (start.drop (pos + 1))

/-- The bytes of a message that are meant for the command. A ^C is not delivered to an ACTION
that must not be interrupted. -/
def stdinData (env : KtpdEnv) (sys : KtpdSys) (exec : Kexec) (fd : Fd) (line : Bytes) : Bytes :=
  let interrupt := (kexecCurrentAction exec).any Kaction.interrupt
  if sys.isatty fd && !interrupt then dropInterrupts env line.length line else line

/-- What `ktpd_session_process_stdin` changes in the event loop, with what is left in the
buffer. -/
def stdinEloop (eloop : env.L.State) (fd : Fd) (bufin : Bytes) : env.L.State :=
  if bufin.isEmpty then eloop
  else
    -- Non-blocking write can't write all data so plan to write later.
    let eloop := env.L.includeFdEvent eloop fd .pollout
    -- Temporarily stop data receiving from client because buffer is full.
    if bufLimit < bufin.length then env.L.excludeFdEvent eloop env.clientFd .pollin else eloop

/-- The bytes a message has for the stdin of the running command, and its descriptor. -/
def stdinOf (msg : KtpMsg) : Option (KtpdExec × Fd × Bytes) :=
  ktpd.exec.bind fun exec => exec.stdin.bind fun fd =>
    ((msg.param .line).filter (· ≠ [])).map fun line =>
      (exec, fd, stdinData env sys exec.toKexec fd line)

/-- `ktpd_session_process_stdin` -/
def processStdin (msg : KtpMsg) : Ktpd env :=
  match ktpd.stdinOf sys msg with
  | none => ktpd
  | some (exec, fd, data) =>
    let exec := ktpd.stdinOut sys { exec with bufin := exec.bufin ++ data } fd
    { ktpd with
      exec := some exec
      eloop := stdinEloop ktpd.eloop fd exec.bufin }

/-- `ktpd_session_process_winch`. The setting of the pseudo-terminal's size is not seen here. -/
def processWinch (msg : KtpMsg) : Ktpd env :=
  match msg.strParam .winch with
  | none => ktpd
  | some line =>
    let width := line.toList.takeWhile (· ≠ ' ')
    -- Two numbers with a space between them.
    if width.isEmpty || width.length == line.toList.length then ktpd
    else
      match env.atous line, env.atous (String.ofList (line.toList.drop (width.length + 1))) with
      | some termWidth, some termHeight =>
        ktpd.withSession { ktpd.world.session with termWidth, termHeight }
      | _, _ => ktpd

/-- `ktpd_session_process_notification` -/
def processNotification (msg : KtpMsg) : Ktpd env := ktpd.processWinch msg

/-- `ktpd_session_process_stdin_close` -/
def processStdinClose : Ktpd env :=
  match ktpd.exec.bind fun exec => exec.stdin with
  | none => ktpd
  | some _ => { ktpd with stdinMustBeClosed := true }.pushStdin sys

/-- `ktpd_session_process_stdout_close` -/
def processStdoutClose : Ktpd env :=
  match ktpd.exec with
  | none => ktpd
  | some exec =>
    match exec.stdout with
    | none => ktpd
    | some fd =>
      { ktpd with
        world := ktpd.world.close (some fd)
        exec := some { exec with bufout := [] } }

/-- `ktpd_session_process_stderr_close` -/
def processStderrClose : Ktpd env :=
  match ktpd.exec with
  | none => ktpd
  | some exec =>
    match exec.stderr with
    | none => ktpd
    | some fd =>
      { ktpd with
        world := ktpd.world.close (some fd)
        exec := some { exec with buferr := [] } }

/-- `ktpd_session_dispatch` -/
def dispatch (msg : KtpMsg) : Option (Ktpd env) :=
  let error (ktpCmd : KtpCmd) (err : String) : Option (Ktpd env) :=
    some (ktpd.send sys (.ofError ktpCmd (some err)))
  match msg.cmd with
  | .auth =>
    if ktpd.state = .unauthorized ∨ ktpd.state = .idle then some (ktpd.processAuth sys msg)
    else error .authAck "Server illegal state for authorization"
  | .cmd =>
    if ktpd.state = .idle then ktpd.processCmd sys msg
    else error .cmdAck "Server illegal state for command execution"
  | .completion =>
    if ktpd.state = .idle then ktpd.processCompletion sys msg
    else error .completionAck "Server illegal state for completion"
  | .help =>
    if ktpd.state = .idle then ktpd.processHelp sys msg
    else error .helpAck "Server illegal state for help"
  | .stdin =>
    if ktpd.state = .waitForProcess then some (ktpd.processStdin sys msg)
    else error .notification "Nobody is waiting for stdin"
  | .notification => some (ktpd.processNotification msg)
  | .stdinClose =>
    some (if ktpd.state = .waitForProcess then ktpd.processStdinClose sys else ktpd)
  | .stdoutClose =>
    some (if ktpd.state = .waitForProcess then ktpd.processStdoutClose else ktpd)
  | .stderrClose =>
    some (if ktpd.state = .waitForProcess then ktpd.processStderrClose else ktpd)
  | _ => error .notification "Unsupported command"

/-- The loop of `waitpid` with a pipeline. -/
def reapLoop (env : KtpdEnv) : List (Pid × WaitStatus) → Kexec → World → Kexec × World
  | [], exec, world => (exec, world)
  | (pid, status) :: reports, exec, world =>
    let r := Kexec.childEnded env.scheme env.kexec exec pid status world
    reapLoop env reports r.1 r.2

/-- The loop of `waitpid` in `wait_for_actions_ev`. -/
def reapChildren (reports : List (Pid × WaitStatus)) : Ktpd env :=
  match ktpd.exec with
  | none =>
    { ktpd with world := { ktpd.world with
      live := reports.foldl (fun live report => live.erase report.1) ktpd.world.live } }
  | some exec =>
    let r := reapLoop env reports exec.toKexec ktpd.world
    { ktpd with
      world := r.2
      exec := some { exec with
        toKexec := r.1
        bufout := exec.bufout ++ sys.printedOut
        buferr := exec.buferr ++ sys.printedErr } }

/-- `faux_eloop_del_fd` for a stream. -/
def delStream (eloop : env.L.State) (fd : Option Fd) : env.L.State :=
  match fd with
  | none => eloop
  | some fd => env.L.delFd eloop fd

/-- The end of a command in `wait_for_actions_ev`. -/
def finishCommand (exec : KtpdExec) (retcode : ℤ) : Ktpd env :=
  let out := ktpd.getStream sys exec exec.stdout false
  let err := out.2.getStream sys out.1 exec.stderr true
  let ktpd := { err.2 with
    eloop := delStream (delStream (delStream err.2.eloop exec.stdin) exec.stdout) exec.stderr }
  let ktpd := ktpd.sessionLog sys err.1
  let viewWasChanged := ktpd.viewWasChanged err.1
  let ktpd := { ktpd.kexecFree err.1 with exec := none, state := .idle }
  -- All ACTIONs are done so can break the loop if needed.
  let done := ktpd.noteDone {}
  done.1.sendAck sys (addRetcode (.preform .cmdAck done.2) retcode) viewWasChanged

/-- `wait_for_actions_ev` -/
def waitForActionsEv (reports : List (Pid × WaitStatus)) : Ktpd env :=
  let ktpd := ktpd.reapChildren sys reports
  match ktpd.exec with
  | none => ktpd
  | some exec =>
    match Kexec.kexecRetcode exec.toKexec with
    | none => ktpd
    | some retcode => ktpd.finishCommand sys exec retcode

/-- What `poll` reports of a descriptor. -/
structure Revents where
  pollin : Bool
  pollout : Bool
  /-- `POLLHUP`, `POLLERR` or `POLLNVAL` -/
  failed : Bool
  deriving DecidableEq, Repr

/-- `get_stream` for the running command. -/
def receive (fd : Fd) (isStderr : Bool) : Ktpd env :=
  match ktpd.exec with
  | none => ktpd
  | some exec =>
    let r := ktpd.getStream sys exec (some fd) isStderr
    { r.2 with exec := some r.1 }

/-- `action_stdout_ev` -/
def actionStdoutEv (fd : Fd) (revents : Revents) : Ktpd env :=
  let ktpd := if revents.pollout then ktpd.pushStdin sys else ktpd
  let ktpd := if revents.pollin then ktpd.receive sys fd false else ktpd
  if revents.failed then { ktpd with eloop := env.L.delFd ktpd.eloop fd } else ktpd

/-- `action_stderr_ev` -/
def actionStderrEv (fd : Fd) (revents : Revents) : Ktpd env :=
  let ktpd := if revents.pollin then ktpd.receive sys fd true else ktpd
  if revents.failed then { ktpd with eloop := env.L.delFd ktpd.eloop fd } else ktpd

/-- The part of `client_ev` that writes. What it reads is dispatched message by message. -/
def clientOut : Ktpd env :=
  let ktpd := { ktpd with eloop := env.L.excludeFdEvent ktpd.eloop env.clientFd .pollout }
  -- A queue that is not empty stalls again.
  let ktpd :=
    if 0 < sys.obufLen then
      { ktpd with eloop := env.L.includeFdEvent ktpd.eloop env.clientFd .pollout }
    else ktpd
  match ktpd.exec with
  | none => ktpd
  | some exec =>
    -- Restore stdout and stderr receiving if out buffer is not full.
    if sys.obufLen < bufLimit then
      { ktpd with eloop := pollStream (pollStream ktpd.eloop exec.stdout) exec.stderr }
    else ktpd

/-- What makes the event loop call the session. -/
inductive Event where
  | dispatch (msg : KtpMsg)
  | poll (fd : Fd) (revents : Revents)
  | sigchld (reports : List (Pid × WaitStatus))

/-- One callback. The loop goes on after it: the errors of the client's socket, which stop it,
are no steps. -/
def step (ktpd : Ktpd env) (event : Event × KtpdSys) : Option (Ktpd env) :=
  match event with
  | (.dispatch msg, sys) => ktpd.dispatch sys msg
  | (.sigchld reports, sys) => some (ktpd.waitForActionsEv sys reports)
  | (.poll fd revents, sys) =>
    if (revents.pollin = true → env.L.polls ktpd.eloop fd .pollin = true) ∧
        (revents.pollout = true → env.L.polls ktpd.eloop fd .pollout = true) then
      match env.L.watch ktpd.eloop fd with
      | none => none
      | some watch =>
        match watch.callback with
        | .actionStdout => some (ktpd.actionStdoutEv sys fd revents)
        | .actionStderr => some (ktpd.actionStderrEv sys fd revents)
        | .client =>
          if revents.failed then none
          else some (if revents.pollout then ktpd.clientOut sys else ktpd)
    else none

/-- A server of the sample scheme, whose client has the socket 3. -/
def sampleEnv : KtpdEnv where
  scheme := Ksession.sampleScheme
  kexec := Kexec.sampleEnv fun _ => false
  L := .table KtpdCallback
  clientFd := 3
  argvParse := Ksession.words
  getlines _ := []
  hasContent line := line != ""
  atous _ := none
  charsn data := data.findIdx? (· == 3)
  charsn_spec data pos h := by
    obtain ⟨hlt, hpos, -⟩ := List.findIdx?_eq_some_iff_getElem.mp h
    rw [List.getElem?_eq_getElem hlt]
    simpa using hpos

/-- A system without terminals that writes at most so many bytes. -/
def sampleSys (taken : ℕ) : KtpdSys where
  V := Ksession.commandPtype Ksession.sampleEntry
  fuel := 5
  peercred := true
  isatty _ := false
  taken := taken
  readOut := []
  readErr := []
  printedOut := []
  printedErr := []
  obufLen := 0
  stalls := true

def sampleWorld : World := ⟨Ksession.sampleRoot, [], [3], []⟩

def sampleCmd : KtpMsg := (KtpMsg.preform .cmd {}).addParam .line (cbytes "x")

/-- A command that goes on. -/
def sampleStart : List (Event × KtpdSys) :=
  [(.dispatch (.preform .auth {}), sampleSys 0), (.dispatch sampleCmd, sampleSys 0)]

def sampleStdin (data : Bytes) : KtpMsg := (KtpMsg.preform .stdin {}).addParam .line data

end Ktpd

end Klish
