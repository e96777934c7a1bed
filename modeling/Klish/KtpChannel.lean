import Klish.KtpdDispatch
import Klish.Lib.Runs

/-!
# Requests and answers between a client and a server

The client and the server are joined by two queues of messages. A request is a token that
is in the queue to the server, held by the server, or in the queue to the client as an answer.
-/

namespace Klish

/-- The request of a message. -/
def KtpMsg.request (msg : KtpMsg) : Option KtpRequest :=
  match msg.cmd with
  | .auth => some .auth
  | .cmd => some .cmd
  | .completion => some .completion
  | .help => some .help
  | _ => none

/-- The request that a message answers for good. -/
def KtpMsg.answer (msg : KtpMsg) : Option KtpRequest :=
  if msg.status.incompleted then none
  else
    match msg.cmd with
    | .authAck => some .auth
    | .cmdAck => some .cmd
    | .completionAck => some .completion
    | .helpAck => some .help
    | _ => none

/-- A message of the server about a command: its output or an answer. -/
def KtpMsg.OfCmd (msg : KtpMsg) : Prop :=
  msg.cmd = .stdout ∨ msg.cmd = .stderr ∨ msg.cmd = .cmdAck

/-- The request whose answer the client waits for. -/
def KtpSessionState.pending : KtpSessionState → Option KtpRequest
  | unauthorized => some .auth
  | waitForCmd => some .cmd
  | waitForCompletion => some .completion
  | waitForHelp => some .help
  | error | disconnected | idle => none

/-- A client and a server. Each has the messages that are on their way to the other. -/
structure Channel (env : KtpdEnv) where
  ktp : Ktp
  ktpd : Ktpd env

namespace Channel

variable {env : KtpdEnv}

/-- What the client can do of itself. -/
inductive ClientCall where
  | auth (ttyStdin ttyStdout ttyStderr : Bool)
  | cmd (line : String) (dryRun : Bool)
  | completion (line : String) (dryRun : Bool)
  | help (line : String)
  | stdin (line : Bytes)
  | stdinClose
  | stdoutClose
  | stderrClose
  | winch (width height : ℕ)

namespace ClientCall

/-- The request that a call makes. -/
def request : ClientCall → Option KtpRequest
  | auth .. => some .auth
  | cmd .. => some .cmd
  | completion .. => some .completion
  | help _ => some .help
  | stdin _ | stdinClose | stdoutClose | stderrClose | winch .. => none

def run (ktp : Ktp) : ClientCall → Ktp
  | auth ttyStdin ttyStdout ttyStderr => ktp.sessionAuth ttyStdin ttyStdout ttyStderr
  | cmd line dryRun => ktp.sessionCmd line dryRun
  | completion line dryRun => ktp.sessionCompletion line dryRun
  | help line => ktp.sessionHelp line
  | stdin line => ktp.sessionStdin line
  | stdinClose => ktp.sessionStdinClose
  | stdoutClose => ktp.sessionStdoutClose
  | stderrClose => ktp.sessionStderrClose
  | winch width height => ktp.sendWinchNotification width height

end ClientCall

inductive Event where
  | call (call : ClientCall)
  /-- The server takes the next message. -/
  | serve (sys : KtpdSys)
  /-- The event loop of the server calls for another reason. -/
  | server (event : Ktpd.Event) (sys : KtpdSys)
  /-- The client takes the next message. -/
  | deliver

/-- One step before any exit. The client makes a request only when it waits for no answer. -/
def step (s : Channel env) (event : Event) : Option (Channel env) :=
  if s.ktpd.exit || s.ktp.done then none
  else
    match event with
    | .call call =>
      if call.request.isSome && s.ktp.state.pending.isSome then none
      else some { s with ktp := call.run s.ktp }
    | .serve sys =>
      match s.ktp.toServer with
      | [] => none
      | msg :: toServer =>
        (s.ktpd.dispatch sys msg).map fun ktpd => ⟨{ s.ktp with toServer }, ktpd⟩
    | .server (.dispatch _) _ => none
    | .server event sys => (s.ktpd.step (event, sys)).map fun ktpd => { s with ktpd }
    | .deliver =>
      match s.ktpd.toClient with
      | [] => none
      | msg :: toClient => some ⟨s.ktp.dispatch msg, { s.ktpd with toClient }⟩

/-- The client and the server when the connection is new. -/
def init (stdoutCb stderrCb : Bool) (eloop : env.L.State) (world : World) : Channel env :=
  ⟨.new stdoutCb stderrCb, .new eloop world⟩

/-- What has gone over the channel. -/
structure History where
  /-- The requests the client has made. -/
  requested : List KtpRequest
  /-- The messages the client has taken. -/
  received : List KtpMsg
  /-- The number of commands the server has taken. -/
  commands : ℕ
  /-- The messages of the server, each with the number of the last command it had taken. -/
  sent : List (ℕ × KtpMsg)

namespace History

def empty : History := ⟨[], [], 0, []⟩

/-- The message that the server takes in a step. -/
def served (s : Channel env) : Event → Option KtpMsg
  | .serve _ => s.ktp.toServer.head?
  | .call _ | .server .. | .deliver => none

/-- The messages that the server sends in a step. -/
def sentIn (s s' : Channel env) : List KtpMsg :=
  s'.ktpd.toClient.drop s.ktpd.toClient.length

def note (s : Channel env) (event : Event) (s' : Channel env) (h : History) : History :=
  match event with
  | .call call => { h with requested := h.requested ++ call.request.toList }
  | .deliver => { h with received := h.received ++ s.ktpd.toClient.head?.toList }
  | event =>
    let commands := h.commands +
      (((served s event).bind KtpMsg.request).toList.count .cmd)
    { h with commands, sent := h.sent ++ (sentIn s s').map fun msg => (commands, msg) }

end History

section Tokens

variable (r : KtpRequest)

/-- The server has a request in hand. -/
def busy (ktpd : Ktpd env) : ℕ := if r = .cmd ∧ ktpd.state = .waitForProcess then 1 else 0

/-- A request in flight, held by the server, or answered with the answer in flight. -/
def tokens (s : Channel env) : ℕ :=
  (s.ktp.toServer.filterMap KtpMsg.request).count r + busy r s.ktpd +
    (s.ktpd.toClient.filterMap KtpMsg.answer).count r

end Tokens

/-- No message about a command comes after the command's last answer. -/
def AnswerLast (msgs : List KtpMsg) : Prop :=
  msgs.Pairwise fun first msg => first.answer = some .cmd → ¬ msg.OfCmd

/-- Only the answer to a command can be an incompleted one. -/
def Whole (msg : KtpMsg) : Prop :=
  msg.status.incompleted = true → ∀ r : KtpRequest, msg.cmd = r.ack → r = .cmd

end Channel

end Klish
