import Klish.KtpdFrame

/-!
# What a message and the end of a process make of the server session

One lemma for each function of the session that the event loop calls.
-/

namespace Klish.Ktpd

variable {env : KtpdEnv} {sys : KtpdSys} {ktpd ktpd' : Ktpd env} {out : List KtpMsg}

/-- A message has been answered for good. -/
structure Answered (ktpd ktpd' : Ktpd env) (kind : KtpCmd) : Prop where
  toClient : ∃ out ack, ktpd'.toClient = ktpd.toClient ++ (out ++ [ack]) ∧
    (∀ msg ∈ out, IsStream msg) ∧ (kind ≠ .cmdAck → out = []) ∧
    ack.cmd = kind ∧ ack.status.incompleted = false
  exec : ktpd'.exec = ktpd.exec
  state : ktpd'.state = ktpd.state ∨ (ktpd.state ≠ .waitForProcess ∧ ktpd'.state = .idle)
  stdinMustBeClosed : ktpd'.stdinMustBeClosed = ktpd.stdinMustBeClosed
  fds : ktpd.world.fds ⊆ ktpd'.world.fds
  sameFds : ktpd.state = .waitForProcess → ktpd'.world.fds = ktpd.world.fds
  keeps : Keeps env ktpd.eloop ktpd'.eloop

theorem Answered.of_sends {kind : KtpCmd} {ack : KtpMsg} (h : Sends ktpd ktpd' [ack])
    (hcmd : ack.cmd = kind) (hfinal : ack.status.incompleted = false)
    (hkeeps : Keeps env ktpd.eloop ktpd'.eloop) : Answered ktpd ktpd' kind :=
  ⟨⟨[], ack, h.toClient, by simp, fun _ => rfl, hcmd, hfinal⟩, h.exec, .inl h.state,
    h.stdinMustBeClosed, h.fds, fun _ => h.sameFds, hkeeps⟩

theorem Answered.of_withSession {kind : KtpCmd} {session : Ksession}
    (h : Answered (ktpd.withSession session) ktpd' kind) : Answered ktpd ktpd' kind :=
  ⟨h.toClient, h.exec, h.state, h.stdinMustBeClosed, h.fds, h.sameFds, h.keeps⟩

/-- An error is an answer too. -/
theorem Answered.error (ktpd : Ktpd env) (sys : KtpdSys) (kind : KtpCmd) (err : Option String) :
    Answered ktpd (ktpd.send sys (.ofError kind err)) kind :=
  .of_sends (.send ktpd sys _) (by simp) (by simp) (send_keeps ktpd sys _)

theorem processAuth_answered {msg : KtpMsg} (hstate : ktpd.state ≠ .waitForProcess) :
    Answered ktpd (ktpd.processAuth sys msg) .authAck := by
  unfold processAuth
  split
  · refine ⟨⟨[], _, rfl, by simp, fun _ => rfl, ?_, ?_⟩, rfl, .inl rfl, rfl, fun _ h => h,
      fun _ => rfl, .sent⟩
    · simp
    · simp
  · dsimp only
    obtain ⟨hkeeps, ack, hsends, hcmd, hstatus⟩ := sendAck_spec
      (ktpd.withSession { ktpd.world.session with
        isattyStdin := msg.status.ttyStdin
        isattyStdout := msg.status.ttyStdout
        isattyStderr := msg.status.ttyStderr }) sys (addRetcode (.preform .authAck {}) 0) true
    refine ⟨⟨[], ack, hsends.toClient, by simp, fun _ => rfl, hcmd, ?_⟩, hsends.exec,
      .inr ⟨hstate, rfl⟩, hsends.stdinMustBeClosed, hsends.fds, fun _ => hsends.sameFds, hkeeps⟩
    rw [hstatus]
    rfl

/-- The answer to a request for hints, after the exit flag has been set. -/
theorem Answered.hint {kind : KtpCmd} {ack : KtpMsg} (ktpd : Ktpd env) (s s' : Ksession)
    (hcmd : ack.cmd = kind) (hstatus : ack.status = ((ktpd.withSession s).noteDone {}).2) :
    Answered ktpd ((((ktpd.withSession s).noteDone {}).1.withSession s').send sys ack) kind := by
  obtain ⟨exit, exit', hdone⟩ := noteDone_spec (ktpd.withSession s) {}
  rw [hdone] at hstatus ⊢
  refine ⟨⟨[], ack, rfl, by simp, fun _ => rfl, hcmd, ?_⟩, rfl, .inl rfl, rfl, fun _ h => h,
    fun _ => rfl, .sent⟩
  rw [hstatus]

theorem processCompletion_answered {msg : KtpMsg}
    (h : ktpd.processCompletion sys msg = some ktpd') : Answered ktpd ktpd' .completionAck := by
  unfold processCompletion at h
  split at h
  · cases h
    exact .error ktpd sys _ _
  · obtain ⟨r, -, rfl⟩ := Option.map_eq_some_iff.mp h
    dsimp only
    split
    · exact (Answered.error (ktpd.withSession r.2) sys _ _).of_withSession
    · have hadd := foldl_addParam
        (fun (ack : KtpMsg) (s : String) => ack.addParam .line (cbytes s)) fun _ _ => ⟨rfl, rfl⟩
      refine .hint ktpd r.2 _ ?_ ?_
      · rw [(hadd _ _).1]
        simp
      · rw [(hadd _ _).2]
        simp

theorem processHelp_answered {msg : KtpMsg}
    (h : ktpd.processHelp sys msg = some ktpd') : Answered ktpd ktpd' .helpAck := by
  unfold processHelp at h
  split at h
  · cases h
    exact .error ktpd sys _ _
  · obtain ⟨r, -, rfl⟩ := Option.map_eq_some_iff.mp h
    dsimp only
    split
    · exact (Answered.error (ktpd.withSession r.2) sys _ _).of_withSession
    · have hadd := foldl_addParam (fun (ack : KtpMsg) (h : String × String) =>
        (ack.addParam .prefx (cbytes h.1)).addParam .line (cbytes h.2)) fun _ _ => ⟨rfl, rfl⟩
      refine .hint ktpd r.2 _ ?_ ?_
      · rw [(hadd _ _).1]
        rfl
      · rw [(hadd _ _).2]
        rfl

/-- The last steps of a command: the exit flag is set and the answer is sent. -/
theorem Answered.finish {kind : KtpCmd} {r : Ktpd env} {ack : KtpMsg} (h : Reports ktpd r out)
    (hstream : ∀ msg ∈ out, IsStream msg) (hout : kind ≠ .cmdAck → out = [])
    (hkeeps : Keeps env ktpd.eloop r.eloop) (hcmd : ack.cmd = kind)
    (hfinal : ack.status.incompleted = false) (hidle : ktpd.state ≠ .waitForProcess)
    (hotkeys : Bool) : Answered ktpd ((r.noteDone {}).1.sendAck sys ack hotkeys) kind := by
  obtain ⟨exit, exit', hdone⟩ := noteDone_spec r {}
  rw [hdone]
  obtain ⟨hkeeps', msg, hsends, hcmd', hstatus⟩ := sendAck_spec { r with exit } sys ack hotkeys
  refine ⟨⟨out, msg, ?_, hstream, hout, hcmd'.trans hcmd, by rw [hstatus, hfinal]⟩,
    hsends.exec.trans h.exec, .inl (hsends.state.trans h.state),
    hsends.stdinMustBeClosed.trans h.stdinMustBeClosed, fun fd hfd => hsends.fds (h.fds hfd),
    fun hstate => absurd hstate hidle, hkeeps.trans hkeeps'⟩
  rw [hsends.toClient, ← List.append_assoc, ← h.toClient]

theorem processCmd_spec {msg : KtpMsg} (h : ktpd.processCmd sys msg = some ktpd')
    (hexec : ktpd.exec = none) (hidle : ktpd.state ≠ .waitForProcess) :
    Answered ktpd ktpd' .cmdAck ∨ ∃ exec ack, Scheduled ktpd ktpd' exec ∧
      ktpd'.toClient = ktpd.toClient ++ [ack] ∧ ack.cmd = .cmdAck ∧
      ack.status.incompleted = true := by
  have hself : { ktpd with exec := none } = ktpd := by
    rw [← hexec]
  unfold processCmd at h
  split at h
  · cases h
    left
    obtain ⟨hkeeps, ack, hsends, hcmd, hstatus⟩ := sendAck_spec ktpd sys (.preform .cmdAck {}) false
    exact .of_sends hsends hcmd (by rw [hstatus]; rfl) hkeeps
  · obtain ⟨r, hr, rfl⟩ := Option.map_eq_some_iff.mp h
    rw [hself] at hr
    rcases sessionExec_spec hr with ⟨hkeeps, out, hreports, hstream⟩ | ⟨htoClient, exec, hexec'⟩
    · left
      rw [hreports.exec, hexec]
      refine .finish hreports hstream (fun h => absurd rfl h) hkeeps ?_ ?_ hidle _
      · split <;> simp [addRetcode]
      · obtain ⟨exit, exit', hdone⟩ := noteDone_spec r.ktpd {}
        rw [hdone]
        split <;> simp [addRetcode]
    · right
      rw [hexec'.running]
      refine ⟨exec, incompletedAck env.scheme exec, ?_, ?_, rfl, rfl⟩
      · exact ⟨hexec'.running, hexec'.unfinished, hexec'.state, hexec'.exit,
          hexec'.stdinMustBeClosed, hexec'.bufin, hexec'.written, hexec'.streams,
          fun hclient => (hexec'.keeps hclient).trans .sent⟩
      · show r.ktpd.toClient ++ _ = _
        rw [htoClient]

/-- A command is held exactly while the session waits for its processes. -/
def Live (ktpd : Ktpd env) : Prop := ktpd.exec.isSome = true ↔ ktpd.state = .waitForProcess

theorem Live.of_eq (h : Live ktpd) (hexec : ktpd'.exec.isSome = ktpd.exec.isSome)
    (hstate : ktpd'.state = ktpd.state) : Live ktpd' := by
  unfold Live
  rw [hexec, hstate]
  exact h

/-- An answer does not end a command, and starts none. -/
theorem Answered.live {kind : KtpCmd} (h : Answered ktpd ktpd' kind) (hlive : Live ktpd) :
    Live ktpd' := by
  rcases h.state with hstate | ⟨hstate, hidle⟩
  · exact hlive.of_eq (by rw [h.exec]) hstate
  · unfold Live
    rw [h.exec, hidle]
    constructor
    · intro hsome
      exact absurd (hlive.mp hsome) hstate
    · intro heq
      cases heq

/-- The command that is held has something left to run. -/
def Unfinished (ktpd : Ktpd env) : Prop :=
  ∀ exec, ktpd.exec = some exec → Kexec.kexecRetcode exec.toKexec = none

theorem Unfinished.of_eq (h : Unfinished ktpd)
    (hkexec : ktpd'.exec.map KtpdExec.toKexec = ktpd.exec.map KtpdExec.toKexec) :
    Unfinished ktpd' := by
  intro exec' hexec'
  rw [hexec'] at hkexec
  obtain ⟨exec, hexec, heq⟩ := Option.map_eq_some_iff.mp hkexec.symm
  rw [← heq]
  exact h exec hexec

/-- No message is sent, and a command goes on or there is none. -/
structure Silent (ktpd ktpd' : Ktpd env) : Prop where
  toClient : ktpd'.toClient = ktpd.toClient
  state : ktpd'.state = ktpd.state
  kexec : ktpd'.exec.map KtpdExec.toKexec = ktpd.exec.map KtpdExec.toKexec

theorem Silent.exec (h : Silent ktpd ktpd') : ktpd'.exec.isSome = ktpd.exec.isSome := by
  have hisSome := congrArg Option.isSome h.kexec
  rwa [Option.isSome_map, Option.isSome_map] at hisSome

/-- The descriptor to which the bytes for the running command are written. -/
def stdinFd (ktpd : Ktpd env) : Option Fd := ktpd.exec.bind fun exec => exec.stdin

theorem stdinFd_eq_some {fd : Fd} :
    ktpd.stdinFd = some fd ↔ ∃ exec, ktpd.exec = some exec ∧ exec.stdin = some fd :=
  Option.bind_eq_some_iff

theorem stdinFd_eq {exec : KtpdExec} (hexec : ktpd.exec = some exec) :
    ktpd.stdinFd = exec.stdin := by rw [stdinFd, hexec, Option.bind_some]

theorem pushStdin_of_none (h : ktpd.stdinFd = none) : ktpd.pushStdin sys = ktpd := by
  unfold pushStdin
  split
  · rfl
  · rename_i exec hexec
    rw [stdinFd_eq hexec] at h
    simp only [h]

theorem pushStdin_eq {exec : KtpdExec} {fd : Fd} (hexec : ktpd.exec = some exec)
    (hstdin : exec.stdin = some fd) :
    ktpd.pushStdin sys =
      { ktpd with
        exec := some (ktpd.stdinOut sys exec fd)
        eloop := pushEloop ktpd.eloop fd (ktpd.stdinOut sys exec fd).bufin
        world :=
          if (ktpd.stdinOut sys exec fd).bufin.isEmpty && ktpd.stdinMustBeClosed then
            ktpd.world.close (some fd)
          else ktpd.world } := by
  rw [pushStdin, hexec]
  simp only [hstdin]

theorem pushStdin_silent (sys : KtpdSys) (ktpd : Ktpd env) : Silent ktpd (ktpd.pushStdin sys) := by
  cases hfd : ktpd.stdinFd with
  | none =>
    rw [pushStdin_of_none hfd]
    exact ⟨rfl, rfl, rfl⟩
  | some fd =>
    obtain ⟨exec, hexec, hstdin⟩ := stdinFd_eq_some.mp hfd
    rw [pushStdin_eq hexec hstdin]
    exact ⟨rfl, rfl, by rw [hexec]; rfl⟩

theorem pushStdin_stdinFd (sys : KtpdSys) (ktpd : Ktpd env) :
    (ktpd.pushStdin sys).stdinFd = ktpd.stdinFd := by
  cases hfd : ktpd.stdinFd with
  | none => rw [pushStdin_of_none hfd, hfd]
  | some fd =>
    obtain ⟨exec, hexec, hstdin⟩ := stdinFd_eq_some.mp hfd
    rw [pushStdin_eq hexec hstdin]
    exact hstdin

theorem stdinOf_eq_some {msg : KtpMsg} {exec : KtpdExec} {fd : Fd} {data : Bytes} :
    ktpd.stdinOf sys msg = some (exec, fd, data) ↔ ktpd.exec = some exec ∧ exec.stdin = some fd ∧
      ∃ line, msg.param .line = some line ∧ line ≠ [] ∧
        data = stdinData env sys exec.toKexec fd line := by
  simp only [stdinOf, Option.bind_eq_some_iff, Option.map_eq_some_iff, Option.filter_eq_some_iff]
  constructor
  · rintro ⟨exec', hexec, fd', hstdin, line, ⟨hline, hne⟩, heq⟩
    cases heq
    exact ⟨hexec, hstdin, line, hline, by simpa using hne, rfl⟩
  · rintro ⟨hexec, hstdin, line, hline, hne, rfl⟩
    exact ⟨exec, hexec, fd, hstdin, line, ⟨hline, by simpa using hne⟩, rfl⟩

theorem processStdin_silent (sys : KtpdSys) (ktpd : Ktpd env) (msg : KtpMsg) :
    Silent ktpd (ktpd.processStdin sys msg) := by
  unfold processStdin
  split
  · exact ⟨rfl, rfl, rfl⟩
  · rename_i exec fd data hstdin
    obtain ⟨hexec, -⟩ := stdinOf_eq_some.mp hstdin
    exact ⟨rfl, rfl, by rw [hexec]; rfl⟩

theorem processStdinClose_silent (sys : KtpdSys) (ktpd : Ktpd env) :
    Silent ktpd (ktpd.processStdinClose sys) := by
  unfold processStdinClose
  split
  · exact ⟨rfl, rfl, rfl⟩
  · have h := pushStdin_silent sys { ktpd with stdinMustBeClosed := true }
    exact ⟨h.toClient, h.state, h.kexec⟩

theorem emptyStream_same (exec : KtpdExec) (isStderr : Bool) :
    SameInput exec (emptyStream exec isStderr) := by
  cases isStderr <;> exact ⟨rfl, rfl, rfl⟩

/-- The client has closed a stream of the command, if there is one. -/
inductive Closes (ktpd : Ktpd env) : Ktpd env → Prop
  | none : Closes ktpd ktpd
  | closed {exec : KtpdExec} {fd : Fd} (isStderr : Bool) (hexec : ktpd.exec = some exec)
      (hfd : (if isStderr then exec.stderr else exec.stdout) = some fd) :
      Closes ktpd { ktpd with
        world := ktpd.world.close (some fd)
        exec := some (emptyStream exec isStderr) }

theorem processStdoutClose_closes (ktpd : Ktpd env) : Closes ktpd ktpd.processStdoutClose := by
  unfold processStdoutClose
  split
  · exact .none
  · rename_i exec hexec
    split
    · exact .none
    · rename_i fd hfd
      exact .closed false hexec hfd

theorem processStderrClose_closes (ktpd : Ktpd env) : Closes ktpd ktpd.processStderrClose := by
  unfold processStderrClose
  split
  · exact .none
  · rename_i exec hexec
    split
    · exact .none
    · rename_i fd hfd
      exact .closed true hexec hfd

theorem Closes.silent (h : Closes ktpd ktpd') : Silent ktpd ktpd' := by
  cases h with
  | none => exact ⟨rfl, rfl, rfl⟩
  | closed isStderr hexec hfd =>
    refine ⟨rfl, rfl, ?_⟩
    rw [hexec]
    exact congrArg some (emptyStream_same _ isStderr).toKexec

theorem processNotification_spec (ktpd : Ktpd env) (msg : KtpMsg) :
    ∃ session, ktpd.processNotification msg = ktpd.withSession session := by
  unfold processNotification processWinch
  have hself : ktpd = ktpd.withSession ktpd.world.session := rfl
  split
  · exact ⟨_, hself⟩
  · dsimp only
    split
    · exact ⟨_, hself⟩
    · split
      · exact ⟨_, rfl⟩
      · exact ⟨_, hself⟩

/-- What a message makes of the session. -/
inductive DispatchSpec (sys : KtpdSys) (ktpd : Ktpd env) (msg : KtpMsg) : Ktpd env → Prop
  | answered (r : KtpRequest) {ktpd' : Ktpd env} (hkind : msg.cmd = r.kind)
      (h : Answered ktpd ktpd' r.ack) : DispatchSpec sys ktpd msg ktpd'
  | scheduled {ktpd' : Ktpd env} {exec : KtpdExec} {ack : KtpMsg}
      (hkind : msg.cmd = KtpRequest.cmd.kind) (hidle : ktpd.exec = none)
      (h : Scheduled ktpd ktpd' exec) (htoClient : ktpd'.toClient = ktpd.toClient ++ [ack])
      (hack : ack.cmd = .cmdAck) (hincompleted : ack.status.incompleted = true) :
      DispatchSpec sys ktpd msg ktpd'
  | notified {ktpd' : Ktpd env} {out : List KtpMsg} (hkind : ∀ r : KtpRequest, msg.cmd ≠ r.kind)
      (hinput : msg.cmd = .stdin ∨ msg.cmd = .stdinClose → ktpd.state ≠ .waitForProcess)
      (hnotify : ∀ m ∈ out, m.cmd = .notification) (h : Sends ktpd ktpd' out)
      (hkeeps : Keeps env ktpd.eloop ktpd'.eloop) : DispatchSpec sys ktpd msg ktpd'
  | stdin (hkind : msg.cmd = .stdin) : DispatchSpec sys ktpd msg (ktpd.processStdin sys msg)
  | stdinClose (hkind : msg.cmd = .stdinClose) :
      DispatchSpec sys ktpd msg (ktpd.processStdinClose sys)
  | stdoutClose (hkind : msg.cmd = .stdoutClose) :
      DispatchSpec sys ktpd msg ktpd.processStdoutClose
  | stderrClose (hkind : msg.cmd = .stderrClose) :
      DispatchSpec sys ktpd msg ktpd.processStderrClose

theorem ne_kind {msg : KtpMsg} {ktpCmd : KtpCmd} (h : msg.cmd = ktpCmd)
    (hne : ∀ r : KtpRequest, ktpCmd ≠ r.kind) (r : KtpRequest) : msg.cmd ≠ r.kind := h ▸ hne r

/-- Which handler a message is given to, or why to none. -/
inductive Handler (sys : KtpdSys) (ktpd : Ktpd env) (msg : KtpMsg) : Ktpd env → Prop
  | auth (hkind : msg.cmd = .auth) (hstate : ktpd.state = .unauthorized ∨ ktpd.state = .idle) :
      Handler sys ktpd msg (ktpd.processAuth sys msg)
  | cmd {ktpd' : Ktpd env} (hkind : msg.cmd = .cmd) (hidle : ktpd.state = .idle)
      (h : ktpd.processCmd sys msg = some ktpd') : Handler sys ktpd msg ktpd'
  | completion {ktpd' : Ktpd env} (hkind : msg.cmd = .completion) (hidle : ktpd.state = .idle)
      (h : ktpd.processCompletion sys msg = some ktpd') : Handler sys ktpd msg ktpd'
  | help {ktpd' : Ktpd env} (hkind : msg.cmd = .help) (hidle : ktpd.state = .idle)
      (h : ktpd.processHelp sys msg = some ktpd') : Handler sys ktpd msg ktpd'
  | illegal (r : KtpRequest) (err : String) (hkind : msg.cmd = r.kind) (hbusy : ktpd.state ≠ .idle)
      (hauth : msg.cmd = .auth → ktpd.state ≠ .unauthorized) :
      Handler sys ktpd msg (ktpd.send sys (.ofError r.ack (some err)))
  | stdin (hkind : msg.cmd = .stdin) (hwait : ktpd.state = .waitForProcess) :
      Handler sys ktpd msg (ktpd.processStdin sys msg)
  | stdinClose (hkind : msg.cmd = .stdinClose) (hwait : ktpd.state = .waitForProcess) :
      Handler sys ktpd msg (ktpd.processStdinClose sys)
  | stdoutClose (hkind : msg.cmd = .stdoutClose) (hwait : ktpd.state = .waitForProcess) :
      Handler sys ktpd msg ktpd.processStdoutClose
  | stderrClose (hkind : msg.cmd = .stderrClose) (hwait : ktpd.state = .waitForProcess) :
      Handler sys ktpd msg ktpd.processStderrClose
  | notification (hkind : msg.cmd = .notification) :
      Handler sys ktpd msg (ktpd.processNotification msg)
  | unsupported (err : String) (hkind : ∀ r : KtpRequest, msg.cmd ≠ r.kind)
      (hinput : msg.cmd = .stdin ∨ msg.cmd = .stdinClose → ktpd.state ≠ .waitForProcess) :
      Handler sys ktpd msg (ktpd.send sys (.ofError .notification (some err)))
  | ignored (hkind : ∀ r : KtpRequest, msg.cmd ≠ r.kind)
      (hinput : msg.cmd = .stdin ∨ msg.cmd = .stdinClose → ktpd.state ≠ .waitForProcess) :
      Handler sys ktpd msg ktpd

theorem dispatch_handler {msg : KtpMsg} (h : ktpd.dispatch sys msg = some ktpd') :
    Handler sys ktpd msg ktpd' := by
  unfold dispatch at h
  dsimp only at h
  split at h
  case h_1 hkind =>
    split at h
    · rename_i hstate
      cases h
      exact .auth hkind hstate
    · rename_i hstate
      cases h
      obtain ⟨hunauthorized, hidle⟩ := not_or.mp hstate
      exact .illegal .auth _ hkind hidle fun _ => hunauthorized
  case h_2 hkind =>
    split at h
    · rename_i hidle
      exact .cmd hkind hidle h
    · rename_i hbusy
      cases h
      exact .illegal .cmd _ hkind hbusy fun hauth => absurd (hkind.symm.trans hauth) (by decide)
  case h_3 hkind =>
    split at h
    · rename_i hidle
      exact .completion hkind hidle h
    · rename_i hbusy
      cases h
      exact .illegal .completion _ hkind hbusy fun hauth =>
        absurd (hkind.symm.trans hauth) (by decide)
  case h_4 hkind =>
    split at h
    · rename_i hidle
      exact .help hkind hidle h
    · rename_i hbusy
      cases h
      exact .illegal .help _ hkind hbusy fun hauth => absurd (hkind.symm.trans hauth) (by decide)
  case h_5 hkind =>
    split at h
    · rename_i hwait
      cases h
      exact .stdin hkind hwait
    · rename_i hwait
      cases h
      exact .unsupported _ (ne_kind hkind (by rintro (_ | _) <;> decide)) fun _ => hwait
  case h_6 hkind =>
    cases h
    exact .notification hkind
  case h_7 hkind =>
    cases h
    split
    · rename_i hwait
      exact .stdinClose hkind hwait
    · rename_i hwait
      exact .ignored (ne_kind hkind (by rintro (_ | _) <;> decide)) fun _ => hwait
  case h_8 hkind =>
    cases h
    split
    · rename_i hwait
      exact .stdoutClose hkind hwait
    · rename_i hwait
      exact .ignored (ne_kind hkind (by rintro (_ | _) <;> decide)) fun _ => hwait
  case h_9 hkind =>
    cases h
    split
    · rename_i hwait
      exact .stderrClose hkind hwait
    · rename_i hwait
      exact .ignored (ne_kind hkind (by rintro (_ | _) <;> decide)) fun _ => hwait
  case h_10 hauth hcmd hcompletion hhelp hstdin _ hclose _ _ =>
    cases h
    refine .unsupported _ (fun r => ?_) fun hinput => ?_
    · cases r
      · exact hauth
      · exact hcmd
      · exact hcompletion
      · exact hhelp
    · rcases hinput with hinput | hinput
      · exact absurd hinput hstdin
      · exact absurd hinput hclose

theorem dispatch_spec {msg : KtpMsg} (hlive : Live ktpd)
    (h : ktpd.dispatch sys msg = some ktpd') : DispatchSpec sys ktpd msg ktpd' := by
  cases dispatch_handler h with
  | auth hkind hstate =>
    refine .answered .auth hkind (processAuth_answered ?_)
    rcases hstate with hstate | hstate <;> rw [hstate] <;> decide
  | cmd hkind hidle h =>
    have hne : ktpd.state ≠ .waitForProcess := by
      rw [hidle]
      decide
    have hnone : ktpd.exec = none := by
      cases hexec : ktpd.exec with
      | none => rfl
      | some exec => exact absurd (hlive.mp (by rw [hexec]; rfl)) hne
    rcases processCmd_spec h hnone hne with h | ⟨exec, ack, h, htoClient, hack, hinc⟩
    · exact .answered .cmd hkind h
    · exact .scheduled hkind hnone h htoClient hack hinc
  | completion hkind _ h => exact .answered .completion hkind (processCompletion_answered h)
  | help hkind _ h => exact .answered .help hkind (processHelp_answered h)
  | illegal r err hkind => exact .answered r hkind (.error ktpd sys _ _)
  | stdin hkind => exact .stdin hkind
  | stdinClose hkind => exact .stdinClose hkind
  | stdoutClose hkind => exact .stdoutClose hkind
  | stderrClose hkind => exact .stderrClose hkind
  | notification hkind =>
    obtain ⟨session, hsession⟩ := processNotification_spec ktpd msg
    rw [hsession]
    refine .notified (ne_kind hkind (by rintro (_ | _) <;> decide)) (fun hinput => ?_) (by simp)
      (.withSession ktpd session) (.refl _)
    rw [hkind] at hinput
    exact absurd hinput (by decide)
  | unsupported err hkind hinput =>
    exact .notified hkind hinput (by simp) (.send ktpd sys _) (send_keeps ktpd sys _)
  | ignored hkind hinput => exact .notified hkind hinput (by simp) (.refl ktpd) (.refl _)

/-- The streams and the input of a command whose processes have ended, and what is held. -/
structure Reaped (exec exec' : KtpdExec) (w w' : World) : Prop where
  stdin : exec'.stdin = exec.stdin
  stdout : exec'.stdout = exec.stdout
  stderr : exec'.stderr = exec.stderr
  bufin : exec'.bufin = exec.bufin
  written : exec'.written = exec.written
  held : ∀ fd, Kexec.Held fd exec.contexts w → Kexec.Held fd exec'.contexts w'
  fewer : w'.fds ⊆ w.fds

theorem reapLoop_spec (env : KtpdEnv) (reports : List (Pid × WaitStatus)) (exec : Kexec) (w : World) :
    (reapLoop env reports exec w).1.stdin = exec.stdin ∧
      (reapLoop env reports exec w).1.stdout = exec.stdout ∧
      (reapLoop env reports exec w).1.stderr = exec.stderr ∧
      (∀ fd, Kexec.Held fd exec.contexts w → Kexec.Held fd (reapLoop env reports exec w).1.contexts
        (reapLoop env reports exec w).2) ∧ (reapLoop env reports exec w).2.fds ⊆ w.fds := by
  induction reports generalizing exec w with
  | nil => exact ⟨rfl, rfl, rfl, fun _ h => h, fun _ h => h⟩
  | cons report reports ih =>
    obtain ⟨hin, hout, herr, hheld, hfewer⟩ := ih
      (Kexec.childEnded env.scheme env.kexec exec report.1 report.2 w).1
      (Kexec.childEnded env.scheme env.kexec exec report.1 report.2 w).2
    exact ⟨hin, hout, herr, fun fd h => hheld fd (Kexec.childEnded_held h),
      fun _ h => Kexec.childEnded_subset (hfewer h)⟩

/-- All that the reports of ended processes change. -/
theorem reapChildren_spec (sys : KtpdSys) (ktpd : Ktpd env) (reports : List (Pid × WaitStatus)) :
    (ktpd.reapChildren sys reports).eloop = ktpd.eloop ∧
    (ktpd.reapChildren sys reports).toClient = ktpd.toClient ∧
    (ktpd.reapChildren sys reports).state = ktpd.state ∧
    (ktpd.reapChildren sys reports).stdinMustBeClosed = ktpd.stdinMustBeClosed ∧
    (ktpd.exec = none → (ktpd.reapChildren sys reports).exec = none ∧
      (ktpd.reapChildren sys reports).world.fds = ktpd.world.fds) ∧
    ∀ exec, ktpd.exec = some exec → ∃ exec', (ktpd.reapChildren sys reports).exec = some exec' ∧
      Reaped exec exec' ktpd.world (ktpd.reapChildren sys reports).world := by
  unfold reapChildren
  split
  · rename_i hexec
    exact ⟨rfl, rfl, rfl, rfl, fun _ => ⟨hexec, rfl⟩, by simp [hexec]⟩
  · rename_i exec hexec
    obtain ⟨hin, hout, herr, hheld, hfewer⟩ := reapLoop_spec env reports exec.toKexec ktpd.world
    refine ⟨rfl, rfl, rfl, rfl, by simp [hexec], fun exec₀ hexec₀ => ?_⟩
    cases hexec.symm.trans hexec₀
    exact ⟨_, rfl, hin, hout, herr, rfl, rfl, hheld, hfewer⟩

/-- A command is over. -/
structure Finished (ktpd ktpd' : Ktpd env) (exec : KtpdExec) : Prop where
  toClient : ∃ out ack, ktpd'.toClient = ktpd.toClient ++ (out ++ [ack]) ∧
    (∀ msg ∈ out, IsStream msg) ∧ ack.cmd = .cmdAck ∧ ack.status.incompleted = false
  idle : ktpd'.exec = none
  state : ktpd'.state = .idle
  stdinMustBeClosed : ktpd'.stdinMustBeClosed = ktpd.stdinMustBeClosed
  fds : ∀ fd, Kexec.Held fd exec.contexts ktpd.world → exec.stdin ≠ some fd →
    exec.stdout ≠ some fd → exec.stderr ≠ some fd → fd ∈ ktpd'.world.fds
  pollin : exec.stdin ≠ some env.clientFd → exec.stdout ≠ some env.clientFd →
    exec.stderr ≠ some env.clientFd →
      env.L.callbackOf ktpd'.eloop env.clientFd = env.L.callbackOf ktpd.eloop env.clientFd ∧
        env.L.polls ktpd'.eloop env.clientFd .pollin = env.L.polls ktpd.eloop env.clientFd .pollin

theorem delStream_client (eloop : env.L.State) {fd : Option Fd} (h : fd ≠ some env.clientFd) :
    env.L.callbackOf (delStream eloop fd) env.clientFd = env.L.callbackOf eloop env.clientFd ∧
      env.L.polls (delStream eloop fd) env.clientFd .pollin =
        env.L.polls eloop env.clientFd .pollin := by
  cases fd with
  | none => exact ⟨rfl, rfl⟩
  | some fd =>
    have hne : env.clientFd ≠ fd := fun heq => h (heq ▸ rfl)
    exact ⟨EventLoop.callbackOf_delFd hne, by simp [delStream, hne]⟩

theorem finishCommand_spec (sys : KtpdSys) (ktpd : Ktpd env) (exec : KtpdExec) (retcode : ℤ) :
    Finished ktpd (ktpd.finishCommand sys exec retcode) exec := by
  unfold finishCommand
  dsimp only
  obtain ⟨hsame₁, hkeeps₁, out₁, hsends₁, hstream₁⟩ :=
    getStream_spec ktpd sys exec exec.stdout false
  generalize ktpd.getStream sys exec exec.stdout false = out at *
  obtain ⟨hsame₂, hkeeps₂, out₂, hsends₂, hstream₂⟩ :=
    getStream_spec out.2 sys out.1 exec.stderr true
  generalize out.2.getStream sys out.1 exec.stderr true = err at *
  have hexec : err.1.toKexec = exec.toKexec := hsame₂.toKexec.trans hsame₁.toKexec
  generalize hktpd₃ : ({ err.2 with
    eloop := delStream (delStream (delStream err.2.eloop exec.stdin) exec.stdout) exec.stderr } :
    Ktpd env) = ktpd₃
  obtain ⟨hlog, hsends₃⟩ := sessionLog_spec ktpd₃ sys err.1
  generalize ktpd₃.sessionLog sys err.1 = logged at *
  generalize hidle : ({ logged.kexecFree err.1 with exec := none, state := .idle } : Ktpd env) = idle
  obtain ⟨exit, exit', hdone⟩ := noteDone_spec idle {}
  rw [hdone]
  obtain ⟨hkeeps₄, ack, hsends₄, hcmd, hstatus⟩ := sendAck_spec { idle with exit } sys
    (addRetcode (.preform .cmdAck { exit := exit' }) retcode) (logged.viewWasChanged err.1)
  generalize ({ idle with exit } : Ktpd env).sendAck sys _ _ = final at *
  have hsends : Sends ktpd logged (out₁ ++ out₂) := by
    have h₃ : Sends err.2 logged [] := by
      subst hktpd₃
      exact ⟨⟨hsends₃.toClient, hsends₃.state, hsends₃.exec, hsends₃.exit,
        hsends₃.stdinMustBeClosed, hsends₃.fds⟩, hsends₃.sameFds⟩
    simpa using (hsends₁.trans hsends₂).trans h₃
  subst hidle
  refine ⟨⟨out₁ ++ out₂, ack, ?_, ?_, hcmd, by rw [hstatus]; rfl⟩, hsends₄.exec, hsends₄.state,
    hsends₄.stdinMustBeClosed.trans hsends.stdinMustBeClosed, ?_, ?_⟩
  · rw [hsends₄.toClient, ← List.append_assoc]
    exact congrArg (· ++ [ack]) hsends.toClient
  · intro msg hmsg
    rcases List.mem_append.mp hmsg with hmsg | hmsg
    · exact hstream₁ msg hmsg
    · exact hstream₂ msg hmsg
  · intro fd hheld hin hout herr
    refine hsends₄.fds (kexecFree_fds ⟨hsends.fds hheld.isOpen, ?_⟩ ?_ ?_ ?_)
    · rw [hexec]
      exact hheld.avoids
    · rwa [hexec]
    · rwa [hexec]
    · rwa [hexec]
  · intro hin hout herr
    have hkeeps := (hkeeps₁ hout).trans (hkeeps₂ herr)
    have hdel₁ := delStream_client err.2.eloop hin
    have hdel₂ := delStream_client (delStream err.2.eloop exec.stdin) hout
    have hdel₃ := delStream_client (delStream (delStream err.2.eloop exec.stdin) exec.stdout) herr
    have hlogged : logged.eloop =
        delStream (delStream (delStream err.2.eloop exec.stdin) exec.stdout) exec.stderr := by
      rw [hlog, ← hktpd₃]
    refine ⟨?_, ?_⟩
    · rw [hkeeps₄.callback, ← hkeeps.callback, ← hdel₁.1, ← hdel₂.1, ← hdel₃.1, ← hlogged]
      rfl
    · rw [hkeeps₄.pollin, ← hkeeps.pollin, ← hdel₁.2, ← hdel₂.2, ← hdel₃.2, ← hlogged]
      rfl

/-- Only the polling of the command's output and of the client's socket changes. -/
theorem clientOut_spec (sys : KtpdSys) (ktpd : Ktpd env) :
    ∃ eloop, ktpd.clientOut sys = { ktpd with eloop } ∧
      ((∀ exec, ktpd.exec = some exec → exec.stdout ≠ some env.clientFd ∧
        exec.stderr ≠ some env.clientFd) → Keeps env ktpd.eloop eloop) := by
  have hout : ∀ off on, Keeps env ktpd.eloop off → Keeps env ktpd.eloop on → ∃ eloop,
      (if 0 < sys.obufLen then ({ ktpd with eloop := on } : Ktpd env)
        else { ktpd with eloop := off }) = { ktpd with eloop } ∧ Keeps env ktpd.eloop eloop := by
    intro off on hoff hon
    split
    · exact ⟨on, rfl, hon⟩
    · exact ⟨off, rfl, hoff⟩
  obtain ⟨eloop, heq, hkeeps⟩ := hout
    (env.L.excludeFdEvent ktpd.eloop env.clientFd .pollout)
    (env.L.includeFdEvent (env.L.excludeFdEvent ktpd.eloop env.clientFd .pollout)
      env.clientFd .pollout) .excludeClientOut (Keeps.trans .excludeClientOut .includeClientOut)
  unfold clientOut
  dsimp only
  rw [heq]
  dsimp only
  split
  · exact ⟨eloop, rfl, fun _ => hkeeps⟩
  · rename_i exec hexec
    split
    · refine ⟨_, rfl, fun hstreams => ?_⟩
      obtain ⟨hout, herr⟩ := hstreams exec hexec
      exact (hkeeps.trans (pollStream_keeps hout)).trans (pollStream_keeps herr)
    · exact ⟨eloop, rfl, fun _ => hkeeps⟩

/-- The part of a poll event that writes to the command. -/
def pushed (ktpd : Ktpd env) (sys : KtpdSys) (fd : Fd) (revents : Revents) : Ktpd env :=
  if env.L.callbackOf ktpd.eloop fd = some .actionStdout ∧ revents.pollout = true then
    ktpd.pushStdin sys
  else ktpd

/-- The function that the event loop calls for a stream. -/
def streamCallback (isStderr : Bool) : KtpdCallback :=
  if isStderr then .actionStderr else .actionStdout

/-- The part of a poll event that writes to the command, and the one that reads from it. -/
def received (ktpd : Ktpd env) (sys : KtpdSys) (fd : Fd) (revents : Revents) (isStderr : Bool) :
    Ktpd env :=
  if revents.pollin then (ktpd.pushed sys fd revents).receive sys fd isStderr
  else ktpd.pushed sys fd revents

/-- A descriptor that has failed is removed. -/
def unwatched (ktpd : Ktpd env) (fd : Fd) (failed : Bool) : Ktpd env :=
  if failed then { ktpd with eloop := env.L.delFd ktpd.eloop fd } else ktpd

theorem actionStdoutEv_eq {fd : Fd} {revents : Revents}
    (hcallback : env.L.callbackOf ktpd.eloop fd = some .actionStdout) :
    ktpd.actionStdoutEv sys fd revents =
      (ktpd.received sys fd revents false).unwatched fd revents.failed := by
  have hpushed : ktpd.pushed sys fd revents =
      if revents.pollout then ktpd.pushStdin sys else ktpd := by
    unfold pushed
    simp only [hcallback, true_and]
  unfold actionStdoutEv unwatched received
  rw [hpushed]

theorem actionStderrEv_eq {fd : Fd} {revents : Revents}
    (hcallback : env.L.callbackOf ktpd.eloop fd = some .actionStderr) :
    ktpd.actionStderrEv sys fd revents =
      (ktpd.received sys fd revents true).unwatched fd revents.failed := by
  have hpushed : ktpd.pushed sys fd revents = ktpd := by
    unfold pushed
    simp [hcallback]
  unfold actionStderrEv unwatched received
  rw [hpushed]

/-- A poll event is one of a stream of a command, or one of the client's socket. -/
theorem poll_cases {fd : Fd} {revents : Revents}
    (h : ktpd.step (.poll fd revents, sys) = some ktpd') :
    (∃ isStderr, env.L.callbackOf ktpd.eloop fd = some (streamCallback isStderr) ∧
      ktpd' = (ktpd.received sys fd revents isStderr).unwatched fd revents.failed) ∨
    (env.L.callbackOf ktpd.eloop fd = some .client ∧ revents.failed = false ∧
      ktpd' = if revents.pollout then ktpd.clientOut sys else ktpd) := by
  simp only [step] at h
  split at h
  · split at h
    · cases h
    · rename_i watch hwatch
      have hcallback : env.L.callbackOf ktpd.eloop fd = some watch.callback := by
        rw [EventLoop.callbackOf, hwatch]
        rfl
      split at h
      · rename_i hstdout
        cases h
        rw [hstdout] at hcallback
        exact .inl ⟨false, hcallback, actionStdoutEv_eq hcallback⟩
      · rename_i hstderr
        cases h
        rw [hstderr] at hcallback
        exact .inl ⟨true, hcallback, actionStderrEv_eq hcallback⟩
      · rename_i hclient
        rw [hclient] at hcallback
        split at h
        · cases h
        · rename_i hfailed
          cases h
          exact .inr ⟨hcallback, by simpa using hfailed, rfl⟩
  · cases h

theorem pushed_silent (ktpd : Ktpd env) (sys : KtpdSys) (fd : Fd) (revents : Revents) :
    Silent ktpd (ktpd.pushed sys fd revents) := by
  unfold pushed
  split
  · exact pushStdin_silent sys ktpd
  · exact ⟨rfl, rfl, rfl⟩

/-- What holds between the states before and after all parts of a poll event holds for the event. -/
theorem poll_rel {R : Ktpd env → Ktpd env → Prop} {fd : Fd} {revents : Revents}
    (hrefl : ∀ k, R k k) (htrans : ∀ {a b c}, R a b → R b c → R a c)
    (hpush : ∀ k, R k (k.pushStdin sys)) (hreceive : ∀ k isStderr, R k (k.receive sys fd isStderr))
    (heloop : ∀ k eloop, R k { k with eloop })
    (h : ktpd.step (.poll fd revents, sys) = some ktpd') : R ktpd ktpd' := by
  rcases poll_cases h with ⟨isStderr, -, rfl⟩ | ⟨-, -, rfl⟩
  · have hpushed : R ktpd (ktpd.pushed sys fd revents) := by
      unfold pushed
      split
      · exact hpush ktpd
      · exact hrefl ktpd
    have hreceived : R ktpd (ktpd.received sys fd revents isStderr) := by
      unfold received
      split
      · exact htrans hpushed (hreceive _ isStderr)
      · exact hpushed
    unfold unwatched
    split
    · exact htrans hreceived (heloop _ _)
    · exact hreceived
  · split
    · obtain ⟨eloop, heq, -⟩ := clientOut_spec sys ktpd
      rw [heq]
      exact heloop ktpd eloop
    · exact hrefl ktpd

end Klish.Ktpd
