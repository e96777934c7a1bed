import Klish.Ktp
import Klish.Lib.Lines
import Mathlib.Logic.Function.Basic

/-!
# The client program

The context of `klish` and the callbacks of its event loop. The standard input and the files are
bytes. What is printed and the modes of the terminal are left out.
-/

namespace Klish

/-- `client_mode_e` -/
inductive ClientMode where
  | cmdline | files | stdin | interactive
  deriving DecidableEq, Repr

/-- The options that the callbacks look at. -/
structure ClientOpts where
  stopOnError : Bool
  dryRun : Bool
  pagerEnabled : Bool
  deriving DecidableEq, Repr

/-- What the system does while a message is processed. -/
structure ClientSys where
  /-- The number of bytes that `faux_file_getline` reads beyond the line. -/
  ahead : ℕ
  /-- The pager can be started, and it takes what is written to it. -/
  popen : Bool
  pagerTakes : Bool
  width : ℕ
  height : ℕ
  deriving Repr

/-- `OBUF_LIMIT` -/
def obufLimit : ℕ := 65536

/-- `hotkey_map` -/
def hotkeyMap : List String :=
  ["^@", "^A", "^B", "^C", "^D", "^E", "^F", "^G", "^H", "^I", "^J", "^K", "^L", "^M", "^N", "^O",
    "^P", "^Q", "^R", "^S", "^T", "^U", "^V", "^W", "^X", "^Y", "^Z", "^[", "^\\", "^]", "^^", "^_"]

/-- `vt100_hotkey_decode` -/
def hotkeyDecode (hotkey : String) : Option ℕ := hotkeyMap.findIdx? (· == hotkey)

/-- What the client says, and the acks it has waited for. -/
inductive Spoken where
  | sent (msg : KtpMsg)
  | ack (msg : KtpMsg)
  deriving DecidableEq, Repr

/-- `ctx_t`, with the streams that the commands are read from. -/
structure Ctx where
  ktp : Ktp
  opts : ClientOpts
  mode : ClientMode
  prompt : String
  busy : Bool
  hotkeys : ℕ → Option String
  /-- `TRI_UNDEFINED` is `none`. -/
  pagerWorking : Option Bool
  cmdlineIter : List String
  /-- A file that can't be opened is `none`. -/
  filesIter : List (Option Bytes)
  filesFd : Option (LineReader UInt8)
  /-- The standard input, with what `stdin_fd` has read of it. -/
  stdin : LineReader UInt8
  /-- The standard input is in the event loop. -/
  stdinWatched : Bool
  /-- All messages that were sent and all acks, in their order. -/
  log : List Spoken

namespace Ctx

/-- The next line of the files. -/
def openNext (ahead : ℕ) :
    List (Option Bytes) → Option Bytes × Option (LineReader UInt8) × List (Option Bytes)
  | [] => (none, none, [])
  -- Can't open file. Try next file.
  | none :: files => openNext ahead files
  | some data :: files =>
    match (LineReader.mk [] data).getline 10 ahead with
    | (none, _) => openNext ahead files
    | (some line, fd) => (some line, some fd, files)

/-- The loop of `send_next_command` over the files. -/
def filesGetline (ahead : ℕ) (filesFd : Option (LineReader UInt8)) (files : List (Option Bytes)) :
    Option Bytes × Option (LineReader UInt8) × List (Option Bytes) :=
  match filesFd with
  | none => openNext ahead files
  | some fd =>
    match fd.getline 10 ahead with
    | (none, _) => openNext ahead files
    | (some line, fd) => (some line, some fd, files)

variable (ctx : Ctx) (msg : KtpMsg) (sys : ClientSys)

/-- The session is used. What it sends is noted. -/
def call (f : Ktp → Ktp) : Ctx :=
  { ctx with
    ktp := f ctx.ktp
    log := ctx.log ++ ((f ctx.ktp).toServer.drop ctx.ktp.toServer.length).map .sent }

/-- `ktp_session_set_done` -/
def setDone : Ctx := { ctx with ktp := { ctx.ktp with done := true } }

/-- The part of `send_next_command` that gets the line. -/
def nextLine (ahead : ℕ) : Option String × Ctx :=
  match ctx.mode with
  | .cmdline => (ctx.cmdlineIter.head?, { ctx with cmdlineIter := ctx.cmdlineIter.tail })
  | .files =>
    let r := filesGetline ahead ctx.filesFd ctx.filesIter
    (r.1.map cstr, { ctx with filesFd := r.2.1, filesIter := r.2.2 })
  | .stdin =>
    let r := ctx.stdin.getline 10 ahead
    (r.1.map cstr, { ctx with stdin := r.2 })
  | .interactive => (none, ctx)

/-- `send_next_command` -/
def sendNextCommand : Ctx :=
  -- User must type next interactive command. So just return.
  if ctx.mode = .interactive then ctx
  else
    match ctx.nextLine sys.ahead with
    | (none, ctx) => ctx.setDone
    | (some line, ctx) => ctx.call fun ktp => ktp.sessionCmd line ctx.opts.dryRun

/-- `process_prompt_param` -/
def processPromptParam : Ctx := { ctx with prompt := (msg.strParam .prompt).getD ctx.prompt }

/-- What one hotkey parameter does to the table. The key ends at a zero byte. -/
def setHotkey (hotkeys : ℕ → Option String) (data : Bytes) : ℕ → Option String :=
  let key := data.takeWhile (· ≠ 0)
  if data.length < 3 || key.isEmpty then hotkeys
  else
    match hotkeyDecode (cstr data) with
    | none => hotkeys
    | some code => Function.update hotkeys code (some (cstr (data.drop (key.length + 1))))

/-- `process_hotkey_param` -/
def processHotkeyParam : Ctx :=
  match msg.param .hotkey with
  | none => ctx
  | some _ =>
    -- If there is HOTKEY parameter then reinitialize whole hotkey table.
    { ctx with
      hotkeys := msg.params.foldl (fun hotkeys p =>
        if p.1 = .hotkey then setHotkey hotkeys p.2 else hotkeys) fun _ => none }

/-- What the callbacks of the acks read of the return code. -/
def retcode : ℤ := if ctx.ktp.cmdRetcodeAvailable then ctx.ktp.cmdRetcode else -1

/-- `auth_ack_cb` -/
def authAckCb : Ctx :=
  let ctx := (ctx.processPromptParam msg).processHotkeyParam msg
  if ctx.retcode < 0 ∧ ctx.ktp.error ≠ [] then ctx
  else
    let ctx := ctx.call fun ktp => ktp.sendWinchNotification sys.width sys.height
    if ctx.mode = .interactive then { ctx with stdinWatched := true } else ctx.sendNextCommand sys

/-- `cmd_ack_cb` -/
def cmdAckCb : Ctx :=
  let ctx := ({ ctx with pagerWorking := none }.processPromptParam msg).processHotkeyParam msg
  if ctx.retcode ≠ 0 ∧ ctx.opts.stopOnError then ctx.setDone
  else
    let ctx :=
      if ctx.mode = .interactive then { ctx with busy := false, stdinWatched := true } else ctx
    ctx.sendNextCommand sys

/-- `cmd_incompleted_ack_cb` -/
def cmdIncompletedAckCb : Ctx :=
  -- It can't get data from stdin, it gets commands from stdin instead.
  if ctx.mode = .stdin then ctx
  else if ctx.ktp.state = .waitForCmd ∧ ctx.ktp.cmdFeatures.needStdin then
    { ctx with stdinWatched := true }
  else ctx

/-- `completion_ack_cb` and `help_ack_cb`. The line and what is displayed are left out. -/
def hintAckCb : Ctx := { ctx.processPromptParam msg with busy := false, stdinWatched := true }

/-- `stdout_cb` -/
def stdoutCb : Ctx :=
  let ctx :=
    if ctx.opts.pagerEnabled ∧ ctx.pagerWorking = none ∧ !ctx.ktp.cmdFeatures.interactive then
      { ctx with pagerWorking := some sys.popen }
    else ctx
  if ctx.pagerWorking = some true ∧ !sys.pagerTakes then
    { ctx.call Ktp.sessionStdoutClose with pagerWorking := some false }
  else ctx

/-- The session has changed its state for an ack. -/
def noteAck : Ctx := { ctx with ktp := ctx.ktp.dispatch msg, log := ctx.log ++ [.ack msg] }

/-- `ktp_session_dispatch` with the callbacks of the client. -/
def dispatch : Ctx :=
  match msg.cmd with
  | .authAck => if ctx.ktp.state = .unauthorized then (ctx.noteAck msg).authAckCb msg sys else ctx
  | .cmdAck =>
    if ctx.ktp.state = .waitForCmd then
      if msg.status.incompleted then (ctx.noteAck msg).cmdIncompletedAckCb
      else (ctx.noteAck msg).cmdAckCb msg sys
    else ctx
  | .completionAck =>
    if ctx.ktp.state = .waitForCompletion then (ctx.noteAck msg).hintAckCb msg else ctx
  | .helpAck => if ctx.ktp.state = .waitForHelp then (ctx.noteAck msg).hintAckCb msg else ctx
  | .stdout =>
    let next := { ctx with ktp := ctx.ktp.dispatch msg }
    if ctx.ktp.state = .waitForCmd ∧ ctx.ktp.stdoutCb ∧ (msg.param .line).isSome then
      next.stdoutCb sys
    else next
  -- The stderr of the command and notifications are only printed.
  | _ => { ctx with ktp := ctx.ktp.dispatch msg }

/-- The keys of the command line that need the server. -/
inductive Key where
  | enter (line : String)
  | hotkey (code : ℕ)
  | tab (line : String)
  | help (line : String)

/-- `tinyrl_key_enter`, `tinyrl_key_hotkey`, `tinyrl_key_tab` and `tinyrl_key_help` -/
def key : Key → Ctx
  | .enter line => { ctx.call fun ktp => ktp.sessionCmd line ctx.opts.dryRun with busy := true }
  | .hotkey code =>
    match (ctx.hotkeys code).filter (· ≠ "") with
    | none => ctx
    | some line => { ctx.call fun ktp => ktp.sessionCmd line ctx.opts.dryRun with busy := true }
  | .tab line =>
    { ctx.call fun ktp => ktp.sessionCompletion line ctx.opts.dryRun with busy := true }
  | .help line => { ctx.call fun ktp => ktp.sessionHelp line with busy := true }

/-- What `stdin_cb` finds. -/
structure StdinEvent where
  /-- One of POLLHUP, POLLERR and POLLNVAL. -/
  hup : Bool
  obufLen : ℕ
  /-- The number of bytes that `read` gives, if there are as many. -/
  size : ℕ
  /-- The key that ends `tinyrl_read`. -/
  key : Option Key

/-- The bytes that `stdin_cb` reads for the command. -/
def StdinEvent.data (event : StdinEvent) : Bytes := ctx.stdin.rest.take (min event.size 1024)

/-- `stdin_cb`, with its return value. -/
def stdinCb (event : StdinEvent) : Ctx × Bool :=
  if obufLimit < event.obufLen then ({ ctx with stdinWatched := false }, true)
  -- Standard klish command line.
  else if ctx.ktp.state = .idle ∧ ctx.mode = .interactive then
    let ctx := (event.key.map ctx.key).getD ctx
    if event.hup then ({ ctx with stdinWatched := false }, false) else (ctx, true)
  -- Command needs stdin.
  else if ctx.ktp.state = .waitForCmd ∧ ctx.ktp.cmdFeatures.needStdin then
    let data := event.data ctx
    if data ≠ [] then
      ({ ctx with stdin := ctx.stdin.skip data.length }.call fun ktp => ktp.sessionStdin data, true)
    else if event.hup then
      ({ ctx.call Ktp.sessionStdinClose with stdinWatched := false }, true)
    else (ctx, true)
  -- Input is not needed.
  else ({ ctx with stdinWatched := false }, true)

/-- `async_stdin_sent_cb` -/
def asyncStdinSentCb : Ctx := { ctx with stdinWatched := true }

/-- `ctrl_c_cb`, with its return value. -/
def ctrlCCb : Ctx × Bool :=
  if ctx.mode ≠ .interactive then (ctx, false)
  else if ctx.ktp.state = .waitForCmd then (ctx.call fun ktp => ktp.sessionStdin [3], true)
  else (ctx, true)

/-- The messages of one read, in their order. -/
def dispatchAll : Ctx → List (KtpMsg × ClientSys) → Ctx
  | ctx, [] => ctx
  | ctx, (msg, sys) :: msgs => dispatchAll (ctx.dispatch msg sys) msgs

/-- The state of the program when its loop starts. -/
def init (opts : ClientOpts) (mode : ClientMode) (commands : List String)
    (files : List (Option Bytes)) (stdin : Bytes) (ttyStdin ttyStdout ttyStderr : Bool) : Ctx where
  ktp := (Ktp.new true true).sessionAuth ttyStdin ttyStdout ttyStderr
  opts := opts
  mode := mode
  prompt := "$ "
  busy := false
  hotkeys := fun _ => none
  pagerWorking := none
  cmdlineIter := commands
  filesIter := files
  filesFd := none
  stdin := ⟨[], stdin⟩
  stdinWatched := false
  log := [.sent (.preform .auth { ttyStdin, ttyStdout, ttyStderr })]

/-- The exit status of `main`. Without an answer `retcode` is what it was set to. -/
def exitStatus : ℤ :=
  if ctx.mode ≠ .interactive ∧ ctx.ktp.cmdRetcodeAvailable ∧ ctx.ktp.cmdRetcode ≠ 0 then -1 else 0

variable {ctx msg sys} in
/-- What holds between the states before and after all parts of `stdout_cb` holds for it. -/
theorem stdoutCb_rel {R : Ctx → Ctx → Prop} (hrefl : ∀ c, R c c)
    (htrans : ∀ {a b c}, R a b → R b c → R a c)
    (hpager : ∀ c pagerWorking, R c { c with pagerWorking })
    (hclose : ∀ c : Ctx, R c (c.call Ktp.sessionStdoutClose)) : R ctx (ctx.stdoutCb sys) := by
  unfold stdoutCb
  dsimp only
  split
  · split
    · exact htrans (htrans (hpager ctx _) (hclose _)) (hpager _ _)
    · exact hpager ctx _
  · split
    · exact htrans (hclose ctx) (hpager _ _)
    · exact hrefl ctx

end Ctx

/-- What `server_ev` finds. -/
structure SocketEvent where
  pollout : Bool
  pollin : Bool
  pollhup : Bool
  outFailed : Bool
  inFailed : Bool
  /-- The messages that are completed by what is read. -/
  msgs : List (KtpMsg × ClientSys)

/-- The event loop of the client. -/
structure Client where
  ctx : Ctx
  /-- The socket has not taken all. The loop waits until it can be written. -/
  stalled : Bool
  /-- A callback has returned `BOOL_FALSE`. -/
  stopped : Bool

namespace Client

inductive Event where
  /-- The socket may not take all that has been sent. -/
  | server (event : SocketEvent) (stalls : Bool)
  | stdin (event : Ctx.StdinEvent) (stalls : Bool)
  /-- SIGINT, SIGTERM, SIGQUIT or SIGTSTP -/
  | ctrlC (stalls : Bool)
  | sigwinch (width height : ℕ) (stalls : Bool)

/-- The messages that are read. Nothing is read after an error of the write. -/
def read (event : SocketEvent) : List (KtpMsg × ClientSys) :=
  if event.pollin && !(event.pollout && event.outFailed) then event.msgs else []

/-- `server_ev`, with its return value. -/
def serverEv (ctx : Ctx) (event : SocketEvent) : Ctx × Bool :=
  if event.pollout && event.outFailed then (ctx, false)
  else
    let ctx := if event.pollout then ctx.asyncStdinSentCb else ctx
    let ctx := ctx.dispatchAll (read event)
    if (event.pollin && event.inFailed) || event.pollhup then (ctx, false) else (ctx, !ctx.ktp.done)

/-- The state after a callback. -/
def after (client : Client) (pollout stalls : Bool) (r : Ctx × Bool) : Client where
  ctx := r.1
  stalled := (client.stalled && !pollout) ||
    ((pollout || client.ctx.ktp.toServer.length < r.1.ktp.toServer.length) && stalls)
  stopped := !r.2

/-- One callback. -/
def step (client : Client) (event : Event) : Option Client :=
  if client.stopped then none
  else
    match event with
    | .server event stalls =>
      if event.pollout && !client.stalled then none
      else some (client.after event.pollout stalls (serverEv client.ctx event))
    | .stdin event stalls =>
      if client.ctx.stdinWatched then
        some (client.after false stalls (client.ctx.stdinCb event))
      else none
    | .ctrlC stalls => some (client.after false stalls client.ctx.ctrlCCb)
    | .sigwinch width height stalls =>
      some (client.after false stalls
        (client.ctx.call fun ktp => ktp.sendWinchNotification width height, true))

/-- The loop starts. -/
def start (ctx : Ctx) (stalled : Bool) : Client := ⟨ctx, stalled, false⟩

end Client

end Klish
