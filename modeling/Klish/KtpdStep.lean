import Klish.KtpdDispatch

/-!
# The steps of the server session

`StepSpec` lists what a callback can do to the stdin of the running command and to the reading
from the client. All invariants of the session are proved from it.
-/

namespace Klish

/-- What `get_stream` leaves alone in an exec. -/
def KtpdExec.input (exec : KtpdExec) : Kexec × Bytes × Bytes :=
  (exec.toKexec, exec.bufin, exec.written)

namespace Ktpd

variable {env : KtpdEnv}

theorem SameInput.input_eq {exec exec' : KtpdExec} (h : SameInput exec exec') :
    exec'.input = exec.input := by
  unfold KtpdExec.input
  rw [h.toKexec, h.bufin, h.written]

/-- The step has nothing to do with the stdin of the command and the reading from the client. -/
structure Kept (ktpd ktpd' : Ktpd env) : Prop where
  live : Live ktpd → Live ktpd'
  input : ktpd'.exec.map KtpdExec.input = ktpd.exec.map KtpdExec.input
  stdinMustBeClosed : ktpd'.stdinMustBeClosed = ktpd.stdinMustBeClosed
  fds : ktpd.world.fds ⊆ ktpd'.world.fds
  sameFds : ktpd.exec.isSome = true → ktpd'.world.fds = ktpd.world.fds
  keeps : Keeps env ktpd.eloop ktpd'.eloop

/-- The streams of a command are not the client's socket, and its contexts can close neither the
socket nor the server's end of stdin while that is open. -/
structure Apart (env : KtpdEnv) (exec : Kexec) (w : World) : Prop where
  stdin : exec.stdin ≠ some env.clientFd
  stdout : exec.stdout ≠ some env.clientFd
  stderr : exec.stderr ≠ some env.clientFd
  client : ∀ context ∈ exec.contexts, Kexec.Avoids env.clientFd context
  own : ∀ fd ∈ w.fds, exec.stdin = some fd → ∀ context ∈ exec.contexts, Kexec.Avoids fd context

/-- The session is in the event loop, and its client's socket is open. -/
structure Wired (ktpd : Ktpd env) : Prop where
  live : Live ktpd
  callback : env.L.callbackOf ktpd.eloop env.clientFd = some .client
  isOpen : env.clientFd ∈ ktpd.world.fds
  apart : ∀ exec, ktpd.exec = some exec → Apart env exec.toKexec ktpd.world

/-- The client sends nothing for the stdin of a command that has one. -/
def Quiet (ktpd : Ktpd env) : Event × KtpdSys → Prop
  | (.dispatch msg, sys) => (msg.cmd = .stdin → ktpd.stdinOf sys msg = none) ∧
      (msg.cmd = .stdinClose → ktpd.stdinFd = none)
  | (.poll .., _) | (.sigchld _, _) => True

inductive StepSpec (ktpd : Ktpd env) : Event × KtpdSys → Ktpd env → Prop
  | kept {event : Event × KtpdSys} {ktpd' : Ktpd env} (hquiet : Quiet ktpd event)
      (h : Kept ktpd ktpd') : StepSpec ktpd event ktpd'
  | scheduled {msg : KtpMsg} {sys : KtpdSys} {ktpd' : Ktpd env} {exec : KtpdExec}
      (hkind : msg.cmd = .cmd) (hidle : ktpd.exec = none) (h : Scheduled ktpd ktpd' exec) :
      StepSpec ktpd (.dispatch msg, sys) ktpd'
  | stdin {msg : KtpMsg} {sys : KtpdSys} {exec : KtpdExec} {fd : Fd} {data : Bytes}
      (hkind : msg.cmd = .stdin) (hstdin : ktpd.stdinOf sys msg = some (exec, fd, data)) :
      StepSpec ktpd (.dispatch msg, sys) (ktpd.processStdin sys msg)
  | stdinClose {msg : KtpMsg} {sys : KtpdSys} {exec : KtpdExec} {fd : Fd}
      (hkind : msg.cmd = .stdinClose) (hexec : ktpd.exec = some exec)
      (hstdin : exec.stdin = some fd) :
      StepSpec ktpd (.dispatch msg, sys) ({ ktpd with stdinMustBeClosed := true }.pushStdin sys)
  | streamClose {msg : KtpMsg} {sys : KtpdSys} {exec exec' : KtpdExec} {fd : Fd}
      (hclose : (msg.cmd = .stdoutClose ∧ exec.stdout = some fd) ∨
        (msg.cmd = .stderrClose ∧ exec.stderr = some fd))
      (hexec : ktpd.exec = some exec) (hinput : exec'.input = exec.input) :
      StepSpec ktpd (.dispatch msg, sys)
        { ktpd with world := ktpd.world.close (some fd), exec := some exec' }
  | polled {fd : Fd} {revents : Revents} {sys : KtpdSys} {mid : Ktpd env}
      (hfd : fd ≠ env.clientFd) (h : Kept (ktpd.pushed sys fd revents) mid) :
      StepSpec ktpd (.poll fd revents, sys)
        (if revents.failed then { mid with eloop := env.L.delFd mid.eloop fd } else mid)
  | reaped {reports : List (Pid × WaitStatus)} {sys : KtpdSys} {exec exec' : KtpdExec}
      (hexec : ktpd.exec = some exec) (hreap : (ktpd.reapChildren sys reports).exec = some exec')
      (h : Reaped exec exec' ktpd.world (ktpd.reapChildren sys reports).world)
      (hretcode : Kexec.kexecRetcode exec'.toKexec = none) :
      StepSpec ktpd (.sigchld reports, sys) (ktpd.reapChildren sys reports)
  | finished {reports : List (Pid × WaitStatus)} {sys : KtpdSys} {exec exec' : KtpdExec} {retcode : ℤ}
      (hexec : ktpd.exec = some exec) (hreap : (ktpd.reapChildren sys reports).exec = some exec')
      (h : Reaped exec exec' ktpd.world (ktpd.reapChildren sys reports).world)
      (hretcode : Kexec.kexecRetcode exec'.toKexec = some retcode) :
      StepSpec ktpd (.sigchld reports, sys)
        ((ktpd.reapChildren sys reports).finishCommand sys exec' retcode)

variable {ktpd ktpd' ktpd'' : Ktpd env} {sys : KtpdSys} {out : List KtpMsg}

namespace Kept

theorem refl (ktpd : Ktpd env) : Kept ktpd ktpd :=
  ⟨fun h => h, rfl, rfl, fun _ h => h, fun _ => rfl, .refl _⟩

theorem of_sends (h : Sends ktpd ktpd' out) (hkeeps : Keeps env ktpd.eloop ktpd'.eloop) :
    Kept ktpd ktpd' where
  live hlive := hlive.of_eq (by rw [h.exec]) h.state
  input := by rw [h.exec]
  stdinMustBeClosed := h.stdinMustBeClosed
  fds := h.fds
  sameFds _ := h.sameFds
  keeps := hkeeps

theorem of_answered {kind : KtpCmd} (hlive : Live ktpd) (h : Answered ktpd ktpd' kind) :
    Kept ktpd ktpd' where
  live := h.live
  input := by rw [h.exec]
  stdinMustBeClosed := h.stdinMustBeClosed
  fds := h.fds
  sameFds hsome := h.sameFds (hlive.mp hsome)
  keeps := h.keeps

theorem receive {fd : Fd} {isStderr : Bool} (hfd : fd ≠ env.clientFd) :
    Kept ktpd (ktpd.receive sys fd isStderr) := by
  unfold Ktpd.receive
  split
  · exact .refl ktpd
  · rename_i exec hexec
    obtain ⟨hsame, hkeeps, out, hsends, -⟩ := getStream_spec ktpd sys exec (some fd) isStderr
    refine ⟨fun hlive => ?_, ?_, hsends.stdinMustBeClosed, hsends.fds, fun _ => hsends.sameFds,
      hkeeps fun h => hfd (Option.some.inj h)⟩
    · have hstate := hlive.mp (by rw [hexec]; rfl)
      exact ⟨fun _ => hsends.state.trans hstate, fun _ => rfl⟩
    · rw [hexec]
      exact congrArg some hsame.input_eq

theorem apart (h : Kept ktpd ktpd')
    (hapart : ∀ exec, ktpd.exec = some exec → Apart env exec.toKexec ktpd.world) :
    ∀ exec, ktpd'.exec = some exec → Apart env exec.toKexec ktpd'.world := by
  intro exec' hexec'
  have hinput := h.input
  rw [hexec'] at hinput
  obtain ⟨exec, hexec, heq⟩ := Option.map_eq_some_iff.mp hinput.symm
  have hkexec : exec.toKexec = exec'.toKexec := congrArg Prod.fst heq
  have hfds := h.sameFds (by rw [hexec]; rfl)
  rw [← hkexec]
  obtain ⟨hin, hout, herr, hclient, hown⟩ := hapart exec hexec
  exact ⟨hin, hout, herr, hclient, fun fd hfd => hown fd (hfds ▸ hfd)⟩

theorem stdinFd_eq (h : Kept ktpd ktpd') : ktpd'.stdinFd = ktpd.stdinFd := by
  have hstdin : ∀ k : Ktpd env, k.stdinFd = (k.exec.map KtpdExec.input).bind fun input =>
      input.1.stdin := by
    intro k
    unfold stdinFd
    cases k.exec <;> rfl
  rw [hstdin, hstdin, h.input]

theorem wired (h : Kept ktpd ktpd') (hwired : Wired ktpd) : Wired ktpd' where
  live := h.live hwired.live
  callback := h.keeps.callback.trans hwired.callback
  isOpen := h.fds hwired.isOpen
  apart := h.apart hwired.apart

end Kept

theorem Wired.exec_none (h : Wired ktpd) (hstate : ktpd.state ≠ .waitForProcess) :
    ktpd.exec = none := by
  cases hexec : ktpd.exec with
  | none => rfl
  | some exec => exact absurd (h.live.mp (by rw [hexec]; rfl)) hstate

/-- A message of another kind. -/
theorem quiet_of_cmd {msg : KtpMsg} {ktpCmd : KtpCmd} (h : msg.cmd = ktpCmd)
    (hne : ktpCmd ≠ .stdin ∧ ktpCmd ≠ .stdinClose) : Quiet ktpd (.dispatch msg, sys) :=
  ⟨fun hstdin => absurd (h.symm.trans hstdin) hne.1, fun hclose => absurd (h.symm.trans hclose) hne.2⟩

/-- There is no command. -/
theorem Wired.quiet {msg : KtpMsg} (hwired : Wired ktpd)
    (hinput : msg.cmd = .stdin ∨ msg.cmd = .stdinClose → ktpd.state ≠ .waitForProcess) :
    Quiet ktpd (.dispatch msg, sys) := by
  constructor
  · intro hstdin
    simp [stdinOf, hwired.exec_none (hinput (.inl hstdin))]
  · intro hclose
    simp [stdinFd, hwired.exec_none (hinput (.inr hclose))]

theorem dispatch_stepSpec {msg : KtpMsg} (hwired : Wired ktpd)
    (h : ktpd.dispatch sys msg = some ktpd') : StepSpec ktpd (.dispatch msg, sys) ktpd' := by
  cases dispatch_spec hwired.live h with
  | answered r hkind h =>
    exact .kept (quiet_of_cmd hkind (by cases r <;> decide)) (.of_answered hwired.live h)
  | scheduled hkind hidle h => exact .scheduled hkind hidle h
  | notified hkind hinput hnotify h hkeeps =>
    exact .kept (hwired.quiet hinput) (.of_sends h hkeeps)
  | stdin hkind =>
    cases hstdin : ktpd.stdinOf sys msg with
    | none =>
      have hself : ktpd.processStdin sys msg = ktpd := by rw [processStdin, hstdin]
      rw [hself]
      exact .kept ⟨fun _ => hstdin, fun h => absurd (hkind.symm.trans h) (by decide)⟩ (.refl ktpd)
    | some p => exact .stdin hkind hstdin
  | stdinClose hkind =>
    cases hfd : ktpd.stdinFd with
    | none =>
      have hself : ktpd.processStdinClose sys = ktpd := by
        rw [processStdinClose]
        unfold stdinFd at hfd
        rw [hfd]
      rw [hself]
      exact .kept ⟨fun h => absurd (hkind.symm.trans h) (by decide), fun _ => hfd⟩ (.refl ktpd)
    | some fd =>
      obtain ⟨exec, hexec, hstdin⟩ := Option.bind_eq_some_iff.mp hfd
      have hself : ktpd.processStdinClose sys =
          { ktpd with stdinMustBeClosed := true }.pushStdin sys := by
        rw [processStdinClose]
        unfold stdinFd at hfd
        rw [hfd]
      rw [hself]
      exact .stdinClose hkind hexec hstdin
  | stdoutClose hkind =>
    unfold processStdoutClose
    split
    · exact .kept (quiet_of_cmd hkind (by decide)) (.refl ktpd)
    · rename_i exec hexec
      split
      · exact .kept (quiet_of_cmd hkind (by decide)) (.refl ktpd)
      · rename_i fd hstdout
        exact .streamClose (.inl ⟨hkind, hstdout⟩) hexec rfl
  | stderrClose hkind =>
    unfold processStderrClose
    split
    · exact .kept (quiet_of_cmd hkind (by decide)) (.refl ktpd)
    · rename_i exec hexec
      split
      · exact .kept (quiet_of_cmd hkind (by decide)) (.refl ktpd)
      · rename_i fd hstderr
        exact .streamClose (.inr ⟨hkind, hstderr⟩) hexec rfl

/-- A stream of a command is not the client's socket. -/
theorem Wired.stream_ne {fd : Fd} {isStderr : Bool} (hwired : Wired ktpd)
    (hcallback : env.L.callbackOf ktpd.eloop fd = some (streamCallback isStderr)) :
    fd ≠ env.clientFd := by
  rintro rfl
  have heq := Option.some.inj (hwired.callback.symm.trans hcallback)
  cases isStderr <;> cases heq

theorem Kept.received {fd : Fd} {revents : Revents} {isStderr : Bool} (hfd : fd ≠ env.clientFd) :
    Kept (ktpd.pushed sys fd revents) (ktpd.received sys fd revents isStderr) := by
  unfold Ktpd.received
  split
  · exact .receive hfd
  · exact .refl _

theorem poll_spec {fd : Fd} {revents : Revents} (hwired : Wired ktpd)
    (h : ktpd.step (.poll fd revents, sys) = some ktpd') :
    (fd ≠ env.clientFd ∧ ∃ mid, Kept (ktpd.pushed sys fd revents) mid ∧ ktpd' =
      if revents.failed then { mid with eloop := env.L.delFd mid.eloop fd } else mid) ∨
    (env.L.callbackOf ktpd.eloop fd = some .client ∧ revents.failed = false ∧
      Kept ktpd ktpd') := by
  rcases poll_cases h with ⟨isStderr, hcallback, rfl⟩ | ⟨hcallback, hfailed, rfl⟩
  · have hfd := hwired.stream_ne hcallback
    exact .inl ⟨hfd, _, .received hfd, rfl⟩
  · refine .inr ⟨hcallback, hfailed, ?_⟩
    split
    · obtain ⟨eloop, heq, hkeeps⟩ := clientOut_spec sys ktpd
      rw [heq]
      have hkeeps := hkeeps fun exec hexec =>
        ⟨(hwired.apart exec hexec).stdout, (hwired.apart exec hexec).stderr⟩
      exact ⟨fun hlive => hlive, rfl, rfl, fun _ hfd => hfd, fun _ => rfl, hkeeps⟩
    · exact .refl ktpd

theorem waitForActionsEv_stepSpec (ktpd : Ktpd env) (sys : KtpdSys)
    (reports : List (Pid × WaitStatus)) :
    StepSpec ktpd (.sigchld reports, sys) (ktpd.waitForActionsEv sys reports) := by
  obtain ⟨heloop, -, hstate, hclose, hnone, hsome⟩ := reapChildren_spec sys ktpd reports
  unfold waitForActionsEv
  dsimp only
  cases hexec : ktpd.exec with
  | none =>
    obtain ⟨hnone, hfds⟩ := hnone hexec
    rw [hnone]
    refine .kept trivial ⟨fun hlive => ?_, by rw [hnone, hexec], hclose, fun _ h => hfds ▸ h,
      fun _ => hfds, ?_⟩
    · exact hlive.of_eq (by rw [hnone, hexec]) hstate
    · rw [heloop]
      exact .refl _
  | some exec =>
    obtain ⟨exec', hexec', hreaped⟩ := hsome exec hexec
    rw [hexec']
    dsimp only
    split
    · rename_i hretcode
      exact .reaped hexec hexec' hreaped hretcode
    · rename_i retcode hretcode
      exact .finished hexec hexec' hreaped hretcode

theorem step_spec {event : Event × KtpdSys} (hwired : Wired ktpd)
    (h : ktpd.step event = some ktpd') : StepSpec ktpd event ktpd' := by
  obtain ⟨event, sys⟩ := event
  cases event with
  | dispatch msg => exact dispatch_stepSpec hwired h
  | sigchld reports =>
    cases h
    exact waitForActionsEv_stepSpec ktpd sys reports
  | poll fd revents =>
    rcases poll_spec hwired h with ⟨hfd, mid, hmid, rfl⟩ | ⟨-, -, hkept⟩
    · exact .polled hfd hmid
    · exact .kept trivial hkept

end Ktpd

end Klish
