import Klish.KexecStreams
import Klish.Ktpd

/-!
# What the functions of the server session leave alone

Most of them send messages, run service ACTIONs and change what is polled, and no more.
-/

namespace Klish.Ktpd

variable {env : KtpdEnv}

/-- The client's socket is read as before, and no stream is polled differently for writing. -/
structure Keeps (env : KtpdEnv) (e e' : env.L.State) : Prop where
  callback : env.L.callbackOf e' env.clientFd = env.L.callbackOf e env.clientFd
  pollin : env.L.polls e' env.clientFd .pollin = env.L.polls e env.clientFd .pollin
  pollout : ∀ fd, fd ≠ env.clientFd → env.L.polls e' fd .pollout = env.L.polls e fd .pollout

namespace Keeps

variable {a b c : env.L.State} {fd : Fd}

theorem refl (a : env.L.State) : Keeps env a a := ⟨rfl, rfl, fun _ _ => rfl⟩

theorem trans (h : Keeps env a b) (h' : Keeps env b c) : Keeps env a c :=
  ⟨h'.callback.trans h.callback, h'.pollin.trans h.pollin,
    fun fd hfd => (h'.pollout fd hfd).trans (h.pollout fd hfd)⟩

theorem includeClientOut : Keeps env a (env.L.includeFdEvent a env.clientFd .pollout) := by
  refine ⟨by simp, by simp [EventLoop.polls_includeFdEvent], fun fd hfd => ?_⟩
  simp [EventLoop.polls_includeFdEvent, hfd]

/-- A message is sent. -/
theorem sent {stalls : Bool} : Keeps env a
    (if stalls then env.L.includeFdEvent a env.clientFd .pollout else a) := by
  split
  · exact includeClientOut
  · exact refl a

theorem excludeClientOut : Keeps env a (env.L.excludeFdEvent a env.clientFd .pollout) := by
  refine ⟨by simp, by simp [EventLoop.polls_excludeFdEvent], fun fd hfd => ?_⟩
  simp [EventLoop.polls_excludeFdEvent, hfd]

theorem includeIn (hfd : fd ≠ env.clientFd) :
    Keeps env a (env.L.includeFdEvent a fd .pollin) := by
  refine ⟨by simp, ?_, fun fd' _ => ?_⟩ <;>
    simp [EventLoop.polls_includeFdEvent, hfd.symm]

theorem excludeIn (hfd : fd ≠ env.clientFd) :
    Keeps env a (env.L.excludeFdEvent a fd .pollin) := by
  refine ⟨by simp, ?_, fun fd' _ => ?_⟩ <;>
    simp [EventLoop.polls_excludeFdEvent, hfd.symm]

theorem addFd (callback : KtpdCallback) (hfd : fd ≠ env.clientFd) :
    Keeps env a (env.L.addFd a fd callback) :=
  ⟨EventLoop.callbackOf_addFd hfd.symm, by simp, fun fd' _ => by simp⟩

end Keeps

/-- Messages are sent. Nothing else changes but the klish session, what is polled and what
descriptors have been opened. -/
structure Reports (ktpd ktpd' : Ktpd env) (out : List KtpMsg) : Prop where
  toClient : ktpd'.toClient = ktpd.toClient ++ out
  state : ktpd'.state = ktpd.state
  exec : ktpd'.exec = ktpd.exec
  exit : ktpd'.exit = ktpd.exit
  stdinMustBeClosed : ktpd'.stdinMustBeClosed = ktpd.stdinMustBeClosed
  fds : ktpd.world.fds ⊆ ktpd'.world.fds

/-- The same, and no descriptor is opened or closed. -/
structure Sends (ktpd ktpd' : Ktpd env) (out : List KtpMsg) : Prop
    extends Reports ktpd ktpd' out where
  sameFds : ktpd'.world.fds = ktpd.world.fds

variable {sys : KtpdSys} {ktpd ktpd' ktpd'' : Ktpd env} {out out' : List KtpMsg}

theorem Reports.trans (h : Reports ktpd ktpd' out) (h' : Reports ktpd' ktpd'' out') :
    Reports ktpd ktpd'' (out ++ out') where
  toClient := by rw [h'.toClient, h.toClient, List.append_assoc]
  state := h'.state.trans h.state
  exec := h'.exec.trans h.exec
  exit := h'.exit.trans h.exit
  stdinMustBeClosed := h'.stdinMustBeClosed.trans h.stdinMustBeClosed
  fds := fun _ hfd => h'.fds (h.fds hfd)

namespace Sends

theorem of_eq (htoClient : ktpd'.toClient = ktpd.toClient ++ out)
    (hstate : ktpd'.state = ktpd.state) (hexec : ktpd'.exec = ktpd.exec)
    (hexit : ktpd'.exit = ktpd.exit)
    (hclose : ktpd'.stdinMustBeClosed = ktpd.stdinMustBeClosed)
    (hfds : ktpd'.world.fds = ktpd.world.fds) : Sends ktpd ktpd' out :=
  ⟨⟨htoClient, hstate, hexec, hexit, hclose, fun _ h => hfds ▸ h⟩, hfds⟩

theorem refl (ktpd : Ktpd env) : Sends ktpd ktpd [] := .of_eq (by simp) rfl rfl rfl rfl rfl

theorem trans (h : Sends ktpd ktpd' out) (h' : Sends ktpd' ktpd'' out') :
    Sends ktpd ktpd'' (out ++ out') :=
  ⟨h.toReports.trans h'.toReports, h'.sameFds.trans h.sameFds⟩

theorem send (ktpd : Ktpd env) (sys : KtpdSys) (msg : KtpMsg) :
    Sends ktpd (ktpd.send sys msg) [msg] :=
  .of_eq rfl rfl rfl rfl rfl rfl

theorem withSession (ktpd : Ktpd env) (session : Ksession) :
    Sends ktpd (ktpd.withSession session) [] :=
  .of_eq (by simp [Ktpd.withSession]) rfl rfl rfl rfl rfl

end Sends

theorem send_keeps (ktpd : Ktpd env) (sys : KtpdSys) (msg : KtpMsg) :
    Keeps env ktpd.eloop (ktpd.send sys msg).eloop := .sent

theorem foldl_addParam {α : Type} (add : KtpMsg → α → KtpMsg)
    (hadd : ∀ msg a, (add msg a).cmd = msg.cmd ∧ (add msg a).status = msg.status) (list : List α)
    (msg : KtpMsg) :
    (list.foldl add msg).cmd = msg.cmd ∧ (list.foldl add msg).status = msg.status := by
  induction list generalizing msg with
  | nil => exact ⟨rfl, rfl⟩
  | cons a list ih =>
    obtain ⟨hcmd, hstatus⟩ := ih (add msg a)
    exact ⟨hcmd.trans (hadd msg a).1, hstatus.trans (hadd msg a).2⟩

/-- The hotkeys are parameters of the message. -/
theorem addHotkeysToMsg_spec (ktpd : Ktpd env) (msg : KtpMsg) :
    (ktpd.addHotkeysToMsg msg).cmd = msg.cmd ∧ (ktpd.addHotkeysToMsg msg).status = msg.status := by
  exact foldl_addParam (fun msg hotkey => msg.addParam .hotkey (hotkeyData hotkey))
    (fun _ _ => ⟨rfl, rfl⟩) _ msg

/-- One answer is sent, with parameters added. -/
theorem sendAck_spec (ktpd : Ktpd env) (sys : KtpdSys) (ack : KtpMsg) (hotkeys : Bool) :
    Keeps env ktpd.eloop (ktpd.sendAck sys ack hotkeys).eloop ∧
      ∃ msg, Sends ktpd (ktpd.sendAck sys ack hotkeys) [msg] ∧ msg.cmd = ack.cmd ∧
        msg.status = ack.status := by
  obtain ⟨hcmd, hstatus⟩ := addHotkeysToMsg_spec
    (ktpd.withSession (ktpd.generatePrompt sys).2)
    (ack.addStr .prompt (ktpd.generatePrompt sys).1)
  refine ⟨.sent, _, (Sends.withSession ktpd _).trans (.send _ _ _), ?_, ?_⟩
  · split
    · simpa using hcmd
    · simp
  · split
    · simpa using hstatus
    · simp

theorem sessionLog_spec (ktpd : Ktpd env) (sys : KtpdSys) (exec : KtpdExec) :
    (ktpd.sessionLog sys exec).eloop = ktpd.eloop ∧ Sends ktpd (ktpd.sessionLog sys exec) [] := by
  unfold sessionLog
  induction exec.contexts generalizing ktpd with
  | nil => exact ⟨rfl, .refl ktpd⟩
  | cons context contexts ih =>
    rw [List.foldl_cons]
    split
    · exact ih ktpd
    · split
      · exact ih ktpd
      · rename_i log _ _
        obtain ⟨heloop, hsends⟩ := ih (ktpd.withSession
          (ktpd.world.session.noteStopped (sys.V log context.pargv.pargs none)))
        exact ⟨heloop, (Sends.withSession ktpd _).trans hsends⟩

/-- A message of `get_stream`. -/
def IsStream (msg : KtpMsg) : Prop := msg.cmd = .stdout ∨ msg.cmd = .stderr

/-- The exec keeps everything but its output. -/
structure SameInput (exec exec' : KtpdExec) : Prop where
  toKexec : exec'.toKexec = exec.toKexec
  bufin : exec'.bufin = exec.bufin
  written : exec'.written = exec.written

theorem SameInput.refl (exec : KtpdExec) : SameInput exec exec := ⟨rfl, rfl, rfl⟩

theorem getStream_spec (ktpd : Ktpd env) (sys : KtpdSys) (exec : KtpdExec) (fd : Option Fd)
    (isStderr : Bool) :
    SameInput exec (ktpd.getStream sys exec fd isStderr).1 ∧
      (fd ≠ some env.clientFd →
        Keeps env ktpd.eloop (ktpd.getStream sys exec fd isStderr).2.eloop) ∧
      ∃ out, Sends ktpd (ktpd.getStream sys exec fd isStderr).2 out ∧ ∀ msg ∈ out, IsStream msg := by
  unfold getStream
  dsimp only
  split
  · exact ⟨.refl exec, fun _ => .refl _, [], .refl ktpd, by simp⟩
  · refine ⟨?_, fun hfd => ?_, _, .of_eq rfl rfl rfl rfl rfl rfl, ?_⟩
    · cases isStderr <;> exact ⟨rfl, rfl, rfl⟩
    · cases fd with
      | none => exact .sent
      | some fd =>
        have hne : fd ≠ env.clientFd := fun h => hfd (h ▸ rfl)
        dsimp only
        split
        · exact Keeps.trans .sent (.excludeIn hne)
        · exact .sent
    · intro msg hmsg
      obtain rfl := List.mem_singleton.mp hmsg
      cases isStderr
      · exact .inl rfl
      · exact .inr rfl

theorem noteDone_spec (ktpd : Ktpd env) (status : KtpStatus) :
    ∃ exit exit', ktpd.noteDone status = ({ ktpd with exit }, { status with exit := exit' }) := by
  unfold noteDone
  split
  · exact ⟨true, true, rfl⟩
  · exact ⟨ktpd.exit, status.exit, rfl⟩

theorem kexecFree_fds {exec : KtpdExec} {fd : Fd} (h : Kexec.Held fd exec.contexts ktpd.world)
    (hin : exec.stdin ≠ some fd) (hout : exec.stdout ≠ some fd) (herr : exec.stderr ≠ some fd) :
    fd ∈ (ktpd.kexecFree exec).world.fds := by
  have hcontexts : ∀ (contexts : List Kcontext) (w : World), Kexec.Held fd contexts w →
      fd ∈ (contexts.foldl (fun world context =>
        ((world.close context.stdin).close context.stdout).close context.stderr) w).fds := by
    intro contexts
    induction contexts with
    | nil => exact fun w h => h.isOpen
    | cons context contexts ih =>
      intro w hw
      have hcontext := hw.avoids context List.mem_cons_self
      refine ih _ ⟨?_, fun c hc => hw.avoids c (List.mem_cons_of_mem _ hc)⟩
      exact Kexec.mem_close (Kexec.mem_close (Kexec.mem_close hw.isOpen hcontext.stdin)
        hcontext.stdout) hcontext.stderr
  exact Kexec.mem_close (Kexec.mem_close (Kexec.mem_close (hcontexts _ _ h) hin) hout) herr

theorem addStream_keeps {e : env.L.State} {fd : Option Fd} {callback : KtpdCallback}
    (hfd : fd ≠ some env.clientFd) : Keeps env e (addStream e fd callback) := by
  cases fd with
  | none => exact .refl e
  | some fd => exact .addFd callback fun h => hfd (h ▸ rfl)

theorem pollStream_keeps {e : env.L.State} {fd : Option Fd} (hfd : fd ≠ some env.clientFd) :
    Keeps env e (pollStream e fd) := by
  cases fd with
  | none => exact .refl e
  | some fd => exact .includeIn fun h => hfd (h ▸ rfl)

theorem addStreams_keeps {exec : KtpdExec} (hin : exec.stdin ≠ some env.clientFd)
    (hout : exec.stdout ≠ some env.clientFd) (herr : exec.stderr ≠ some env.clientFd) :
    Keeps env ktpd.eloop (ktpd.addStreams exec).eloop :=
  have hadd : Keeps env ktpd.eloop _ :=
    ((addStream_keeps hin).trans (addStream_keeps hout)).trans (addStream_keeps herr)
  (hadd.trans (pollStream_keeps hout)).trans (pollStream_keeps herr)

/-- A command is left running. -/
structure Scheduled (ktpd ktpd' : Ktpd env) (exec : KtpdExec) : Prop where
  running : ktpd'.exec = some exec
  unfinished : Kexec.kexecRetcode exec.toKexec = none
  state : ktpd'.state = .waitForProcess
  exit : ktpd'.exit = ktpd.exit
  stdinMustBeClosed : ktpd'.stdinMustBeClosed = ktpd.stdinMustBeClosed
  bufin : exec.bufin = []
  written : exec.written = []
  streams : Kexec.StreamsHeld exec.toKexec ktpd.world ktpd'.world
  keeps : env.clientFd ∈ ktpd.world.fds → Keeps env ktpd.eloop ktpd'.eloop

theorem sessionExec_spec {line : String} {dryRun : Bool} {r : ExecEnd env}
    (h : ktpd.sessionExec sys line dryRun = some r) :
    (Keeps env ktpd.eloop r.ktpd.eloop ∧
      ∃ out, Reports ktpd r.ktpd out ∧ ∀ msg ∈ out, IsStream msg) ∨
    (r.ktpd.toClient = ktpd.toClient ∧ ∃ exec, Scheduled ktpd r.ktpd exec) := by
  obtain ⟨forExec, -, rfl⟩ := Option.map_eq_some_iff.mp h
  dsimp only
  have hsession := Sends.withSession ktpd forExec.session
  split
  · exact .inl ⟨.refl _, [], hsession.toReports, by simp⟩
  rename_i exec _
  split
  · exact .inl ⟨.refl _, [], hsession.toReports, by simp⟩
  rename_i kexec world hkexec
  obtain ⟨hold, i, o, e, hi, ho, he, hi', ho', he', hheld⟩ := Kexec.kexecExec_streams hkexec
  have hne : ∀ fd ∈ ktpd.world.fds, kexec.stdin ≠ some fd ∧ kexec.stdout ≠ some fd ∧
      kexec.stderr ≠ some fd := by
    intro fd hfd
    rw [hi, ho, he]
    refine ⟨?_, ?_, ?_⟩ <;> rintro ⟨⟩
    · exact hi' hfd
    · exact ho' hfd
    · exact he' hfd
  split
  · left
    generalize hstart : KtpdExec.mk kexec [] sys.printedOut sys.printedErr [] = exec
    generalize hworld : ({ ktpd.withSession forExec.session with world } : Ktpd env) = ktpd₁
    have hreports : Reports ktpd ktpd₁ [] := by
      subst hworld
      exact ⟨by simp [withSession], rfl, rfl, rfl, rfl, fun fd hfd => (hold fd hfd).isOpen⟩
    obtain ⟨hsame₁, hkeeps₁, out₁, hsends₁, hstream₁⟩ := getStream_spec ktpd₁ sys exec none false
    generalize ktpd₁.getStream sys exec none false = out at *
    obtain ⟨hsame₂, hkeeps₂, out₂, hsends₂, hstream₂⟩ := getStream_spec out.2 sys out.1 none true
    generalize out.2.getStream sys out.1 none true = err at *
    obtain ⟨hlog, hsends₃⟩ := sessionLog_spec err.2 sys err.1
    have hsends := (hsends₁.trans hsends₂).trans hsends₃
    have hkexec : err.1.toKexec = kexec := by
      rw [hsame₂.toKexec, hsame₁.toKexec, ← hstart]
    refine ⟨?_, out₁ ++ out₂, ?_, ?_⟩
    · show Keeps env ktpd.eloop (err.2.sessionLog sys err.1).eloop
      rw [hlog]
      have hstart : ktpd₁.eloop = ktpd.eloop := by
        rw [← hworld]
        rfl
      exact hstart ▸ (hkeeps₁ (by simp)).trans (hkeeps₂ (by simp))
    · have h := hreports.trans hsends.toReports
      simp only [List.nil_append, List.append_nil] at h
      refine ⟨h.toClient, h.state, h.exec, h.exit, h.stdinMustBeClosed, fun fd hfd => ?_⟩
      obtain ⟨hin, hout, herr⟩ := hne fd hfd
      refine kexecFree_fds ⟨h.fds hfd, ?_⟩ ?_ ?_ ?_
      · rw [hkexec]
        exact (hold fd hfd).avoids
      · rwa [hkexec]
      · rwa [hkexec]
      · rwa [hkexec]
    · intro msg hmsg
      rcases List.mem_append.mp hmsg with hmsg | hmsg
      · exact hstream₁ msg hmsg
      · exact hstream₂ msg hmsg
  · rename_i hretcode
    right
    refine ⟨rfl, _, rfl, hretcode, rfl, rfl, rfl, rfl, rfl, ?_, fun hclient => ?_⟩
    · exact ⟨hold, i, o, e, hi, ho, he, hi', ho', he', hheld⟩
    · obtain ⟨hin, hout, herr⟩ := hne env.clientFd hclient
      exact addStreams_keeps hin hout herr

end Klish.Ktpd
