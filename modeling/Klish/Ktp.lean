import Mathlib.Data.Nat.Notation
import Mathlib.Data.Int.Notation

/-!
# The Klish Transfer Protocol: messages and the client session

The strings of a message are bytes. A string of C is a `String` whose characters are its bytes.
-/

namespace Klish

abbrev Bytes := List UInt8

/-- The bytes of a C string. -/
def cbytes (s : String) : Bytes := s.toList.map fun c => UInt8.ofNat c.toNat

/-- The C string that begins at the first of the bytes. It ends at a zero byte. -/
def cstr (bytes : Bytes) : String :=
  String.ofList ((bytes.takeWhile (· ≠ 0)).map fun b => Char.ofNat b.toNat)

inductive KtpCmd where
  | null | stdin | stdout | stderr | cmd | cmdAck | completion | completionAck | help | helpAck
  | notification | auth | authAck | keepalive | stdinClose | stdoutClose | stderrClose
  /-- A code that the protocol does not define. -/
  | other (code : UInt16)
  deriving DecidableEq, Repr

inductive KtpParam where
  | null | line | prefx | prompt | hotkey | winch | error | retcode
  deriving DecidableEq, Repr

/-- The messages that are answered. -/
inductive KtpRequest where
  | auth | cmd | completion | help
  deriving DecidableEq, Repr

namespace KtpRequest

def kind : KtpRequest → KtpCmd
  | auth => .auth | cmd => .cmd | completion => .completion | help => .help

def ack : KtpRequest → KtpCmd
  | auth => .authAck | cmd => .cmdAck | completion => .completionAck | help => .helpAck

end KtpRequest

/-- `ktp_status_e`, the bits of the status field. -/
structure KtpStatus where
  error : Bool := false
  incompleted : Bool := false
  ttyStdin : Bool := false
  ttyStdout : Bool := false
  ttyStderr : Bool := false
  needStdin : Bool := false
  interactive : Bool := false
  dryRun : Bool := false
  exit : Bool := false
  deriving DecidableEq, Repr

structure KtpMsg where
  cmd : KtpCmd
  status : KtpStatus
  params : List (KtpParam × Bytes)
  deriving DecidableEq, Repr

namespace KtpMsg

/-- `ktp_msg_preform` -/
def preform (ktpCmd : KtpCmd) (status : KtpStatus) : KtpMsg := ⟨ktpCmd, status, []⟩

/-- `faux_msg_add_param` -/
def addParam (msg : KtpMsg) (type : KtpParam) (data : Bytes) : KtpMsg :=
  { msg with params := msg.params ++ [(type, data)] }

/-- A parameter that is added when there is a value for it. -/
def addStr (msg : KtpMsg) (type : KtpParam) : Option String → KtpMsg
  | none => msg
  | some s => msg.addParam type (cbytes s)

/-- `faux_msg_get_param_by_type` -/
def param (msg : KtpMsg) (type : KtpParam) : Option Bytes :=
  (msg.params.find? fun p => p.1 == type).map Prod.snd

/-- `faux_msg_get_str_param_by_type` -/
def strParam (msg : KtpMsg) (type : KtpParam) : Option String := (msg.param type).map cstr

/-- The message of `ktp_send_error`. -/
def ofError (ktpCmd : KtpCmd) (error : Option String) : KtpMsg :=
  (preform ktpCmd { error := true }).addStr .error error

section Fields

variable (msg : KtpMsg) (ktpCmd : KtpCmd) (status : KtpStatus) (type : KtpParam) (data : Bytes)
  (s : Option String)

@[simp] theorem preform_cmd : (preform ktpCmd status).cmd = ktpCmd := rfl

@[simp] theorem preform_status : (preform ktpCmd status).status = status := rfl

@[simp] theorem addParam_cmd : (msg.addParam type data).cmd = msg.cmd := rfl

@[simp] theorem addParam_status : (msg.addParam type data).status = msg.status := rfl

@[simp] theorem addStr_cmd : (msg.addStr type s).cmd = msg.cmd := by cases s <;> rfl

@[simp] theorem addStr_status : (msg.addStr type s).status = msg.status := by cases s <;> rfl

@[simp] theorem ofError_cmd : (ofError ktpCmd s).cmd = ktpCmd := addStr_cmd _ _ s

@[simp] theorem ofError_status : (ofError ktpCmd s).status = { error := true } := addStr_status _ _ s

end Fields

end KtpMsg

inductive KtpSessionState where
  | error | disconnected | unauthorized | idle | waitForCompletion | waitForHelp | waitForCmd
  deriving DecidableEq, Repr

inductive KtpStream where
  | stdout | stderr
  deriving DecidableEq, Repr

/-- `ktp_session_t`, with the messages that are on their way to the server. -/
structure Ktp where
  state : KtpSessionState
  done : Bool
  /-- The callbacks for the streams have been set. -/
  stdoutCb : Bool
  stderrCb : Bool
  error : List String
  requestDone : Bool
  cmdRetcode : ℤ
  cmdRetcodeAvailable : Bool
  cmdFeatures : KtpStatus
  cmdFeaturesAvailable : Bool
  stdoutNeedNewline : Bool
  stderrNeedNewline : Bool
  lastStream : KtpStream
  toServer : List KtpMsg

namespace Ktp

/-- `ktp_session_new` -/
def new (stdoutCb stderrCb : Bool) : Ktp where
  state := .idle
  done := false
  stdoutCb := stdoutCb
  stderrCb := stderrCb
  error := []
  requestDone := false
  cmdRetcode := 0
  cmdRetcodeAvailable := false
  cmdFeatures := {}
  cmdFeaturesAvailable := false
  stdoutNeedNewline := false
  stderrNeedNewline := false
  lastStream := .stdout
  toServer := []

variable (ktp : Ktp) (msg : KtpMsg)

/-- `faux_msg_send_async` -/
def send : Ktp := { ktp with toServer := ktp.toServer ++ [msg] }

/-- `ktp_session_drop_state` -/
def dropState : Ktp :=
  { ktp with
    error := []
    cmdRetcode := 0
    cmdRetcodeAvailable := false
    requestDone := false
    cmdFeatures := {}
    cmdFeaturesAvailable := false
    stdoutNeedNewline := false
    stderrNeedNewline := false
    lastStream := .stdout }

/-- `ktp_session_req` -/
def req (ktpCmd : KtpCmd) (line : Option Bytes) (dryRun drop : Bool) : Ktp :=
  let msg := KtpMsg.preform ktpCmd { dryRun }
  let ktp := ktp.send (match line with
    | none => msg
    | some line => msg.addParam .line line)
  if drop then ktp.dropState else ktp

/-- `ktp_session_cmd` -/
def sessionCmd (line : String) (dryRun : Bool) : Ktp :=
  { ktp.req .cmd (some (cbytes line)) dryRun true with state := .waitForCmd }

/-- `ktp_session_auth`, with what `isatty` says of the client's streams. -/
def sessionAuth (ttyStdin ttyStdout ttyStderr : Bool) : Ktp :=
  { (ktp.send (.preform .auth { ttyStdin, ttyStdout, ttyStderr })).dropState with
    state := .unauthorized }

/-- `ktp_session_completion` -/
def sessionCompletion (line : String) (dryRun : Bool) : Ktp :=
  { ktp.req .completion (some (cbytes line)) dryRun true with state := .waitForCompletion }

/-- `ktp_session_help` -/
def sessionHelp (line : String) : Ktp :=
  { ktp.req .help (some (cbytes line)) true true with state := .waitForHelp }

/-- `ktp_session_stdin` -/
def sessionStdin (line : Bytes) : Ktp := ktp.req .stdin (some line) true false

/-- `ktp_session_stdin_close` -/
def sessionStdinClose : Ktp := ktp.req .stdinClose none true false

/-- `ktp_session_stdout_close` -/
def sessionStdoutClose : Ktp := ktp.req .stdoutClose none true false

/-- `ktp_session_stderr_close` -/
def sessionStderrClose : Ktp := ktp.req .stderrClose none true false

/-- `send_winch_notification` -/
def sendWinchNotification (width height : ℕ) : Ktp :=
  ktp.send ((KtpMsg.preform .notification {}).addParam .winch
    (cbytes (toString width ++ " " ++ toString height)))

/-- `ktp_session_process_stdout`, but for the call of the callback. -/
def processStdout : Ktp :=
  if !ktp.stdoutCb then ktp
  else
    match msg.param .line with
    | none => ktp
    | some line =>
      match line.getLast? with
      | none => ktp
      | some last => { ktp with stdoutNeedNewline := last != 10, lastStream := .stdout }

/-- `ktp_session_process_stderr`, but for the call of the callback. -/
def processStderr : Ktp :=
  if !ktp.stderrCb then ktp
  else
    match msg.param .line with
    | none => ktp
    | some line =>
      match line.getLast? with
      | none => ktp
      | some last => { ktp with stderrNeedNewline := last != 10, lastStream := .stderr }

/-- The return code of an answer, the first byte of its parameter. -/
def msgRetcode : Option ℤ := (msg.param .retcode).bind fun data => data.head?.map fun b => b.toNat

/-- The messages the server has put into an answer. -/
def addError : Ktp :=
  { ktp with error := ktp.error ++ (msg.strParam .error).toList }

/-- The end of a request. -/
def finish : Ktp :=
  { ktp with requestDone := true, state := .idle, done := ktp.done || msg.status.exit }

/-- `ktp_session_process_auth_ack` -/
def processAuthAck : Ktp :=
  finish (addError
    { ktp with
      cmdRetcode := (msgRetcode msg).getD ktp.cmdRetcode
      cmdRetcodeAvailable := true } msg) msg

/-- `ktp_session_process_cmd_ack` -/
def processCmdAck : Ktp :=
  if msg.status.incompleted then
    -- Only first 'incompleted' cmd ack sets cmd features.
    if ktp.cmdFeaturesAvailable then ktp
    else
      { ktp with
        cmdFeaturesAvailable := true
        cmdFeatures :=
          { interactive := msg.status.interactive, needStdin := msg.status.needStdin } }
  else
    finish (addError
      { ktp with
        cmdRetcode := (msgRetcode msg).getD (if msg.status.error then -1 else 0)
        cmdRetcodeAvailable := true } msg) msg

/-- `ktp_session_process_completion_ack` -/
def processCompletionAck : Ktp := ktp.finish msg

/-- `ktp_session_process_help_ack` -/
def processHelpAck : Ktp := ktp.finish msg

/-- `ktp_session_process_notification` -/
def processNotification : Ktp := { ktp with done := ktp.done || msg.status.exit }

/-- `ktp_session_dispatch` -/
def dispatch : Ktp :=
  match msg.cmd with
  | .authAck => if ktp.state = .unauthorized then ktp.processAuthAck msg else ktp
  | .cmdAck => if ktp.state = .waitForCmd then ktp.processCmdAck msg else ktp
  | .completionAck => if ktp.state = .waitForCompletion then ktp.processCompletionAck msg else ktp
  | .helpAck => if ktp.state = .waitForHelp then ktp.processHelpAck msg else ktp
  | .stdout => if ktp.state = .waitForCmd then ktp.processStdout msg else ktp
  | .stderr => if ktp.state = .waitForCmd then ktp.processStderr msg else ktp
  | .notification => ktp.processNotification msg
  -- Unsupported commands are ignored.
  | _ => ktp

end Ktp

end Klish
