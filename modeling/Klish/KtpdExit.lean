import Klish.KtpServe
import Klish.KtpdWired

/-!
# The exit flag and the answers

A request may end the session. The flag is set before the last answer to the request is sent, and
the status of that answer has to say so.
-/

namespace Klish

namespace Ktpd

variable {env : KtpdEnv} {sys : KtpdSys} {ktpd ktpd' ktpd'' : Ktpd env} {done : Bool}

/-- The exit flag is set if the last message sent says so, and only then. -/
structure Ends (done : Bool) (ktpd ktpd' : Ktpd env) : Prop where
  exit : ktpd'.exit = (ktpd.exit || done)
  ack : ∃ ack, ktpd'.toClient.getLast? = some ack ∧ ack.status.exit = done

theorem Ends.of_exit (h : Ends done ktpd' ktpd'') (hexit : ktpd'.exit = ktpd.exit) :
    Ends done ktpd ktpd'' := ⟨hexit ▸ h.exit, h.ack⟩

theorem Ends.send (ktpd : Ktpd env) (sys : KtpdSys) {msg : KtpMsg} (hmsg : msg.status.exit = false) :
    Ends false ktpd (ktpd.send sys msg) := ⟨by simp [Ktpd.send], msg, by simp [Ktpd.send], hmsg⟩

theorem Ends.error (ktpd : Ktpd env) (kind : KtpCmd) (err : Option String) :
    Ends false ktpd (ktpd.send sys (.ofError kind err)) := .send ktpd sys (by simp)

@[simp] theorem noteDone_exit (ktpd : Ktpd env) (status : KtpStatus) :
    (ktpd.noteDone status).1.exit = (ktpd.exit || ktpd.world.session.done) := by
  unfold noteDone
  cases hdone : ktpd.world.session.done <;> simp

@[simp] theorem noteDone_status (ktpd : Ktpd env) (status : KtpStatus) :
    (ktpd.noteDone status).2 =
      { status with exit := status.exit || ktpd.world.session.done } := by
  unfold noteDone
  cases hdone : ktpd.world.session.done <;> simp

theorem sendAck_exit (ktpd : Ktpd env) (sys : KtpdSys) (ack : KtpMsg) (hotkeys : Bool) :
    (ktpd.sendAck sys ack hotkeys).exit = ktpd.exit ∧
      ∃ msg, (ktpd.sendAck sys ack hotkeys).toClient.getLast? = some msg ∧
        msg.status = ack.status := by
  obtain ⟨-, msg, hsends, -, hstatus⟩ := sendAck_spec ktpd sys ack hotkeys
  refine ⟨hsends.exit, msg, ?_, hstatus⟩
  rw [hsends.toClient, List.getLast?_concat]

/-- The flag is set from the flag of the klish session, and so is the status of the answer. -/
theorem Ends.noteDone {ack : KtpMsg} (ktpd : Ktpd env) (sys : KtpdSys) (hotkeys : Bool)
    (hstatus : ack.status.exit = ktpd.world.session.done) :
    Ends ktpd.world.session.done ktpd ((ktpd.noteDone {}).1.sendAck sys ack hotkeys) := by
  obtain ⟨hexit, msg, hmsg, hack⟩ := sendAck_exit (ktpd.noteDone {}).1 sys ack hotkeys
  refine ⟨?_, msg, hmsg, ?_⟩
  · rw [hexit, noteDone_exit]
  · rw [hack, hstatus]

theorem processAuth_ends (sys : KtpdSys) (ktpd : Ktpd env) (msg : KtpMsg) :
    Ends (!sys.peercred) ktpd (ktpd.processAuth sys msg) := by
  unfold processAuth
  split
  · rename_i hpeer
    rw [hpeer]
    exact ⟨by simp, _, List.getLast?_concat, by simp⟩
  · rename_i hpeer
    rw [show (!sys.peercred) = false by simpa using hpeer]
    obtain ⟨hexit, ack, hack, hstatus⟩ := sendAck_exit
      (ktpd.withSession { ktpd.world.session with
        isattyStdin := msg.status.ttyStdin
        isattyStdout := msg.status.ttyStdout
        isattyStderr := msg.status.ttyStderr }) sys (addRetcode (.preform .authAck {}) 0) true
    refine ⟨?_, ack, hack, ?_⟩
    · simpa [withSession] using hexit
    · rw [hstatus]
      rfl

/-- The answer to a request for hints. -/
theorem Ends.hint {ack : KtpMsg} (ktpd : Ktpd env) (s s' : Ksession)
    (hstatus : ack.status = ((ktpd.withSession s).noteDone {}).2) :
    Ends s.done ktpd ((((ktpd.withSession s).noteDone {}).1.withSession s').send sys ack) := by
  refine ⟨?_, ack, List.getLast?_concat, ?_⟩
  · show ((ktpd.withSession s).noteDone {}).1.exit = _
    rw [noteDone_exit]
    rfl
  · rw [hstatus, noteDone_status]
    rfl

theorem processCompletion_ends {msg : KtpMsg} (h : ktpd.processCompletion sys msg = some ktpd') :
    ∃ done, Ends done ktpd ktpd' := by
  unfold processCompletion at h
  split at h
  · cases h
    exact ⟨false, .error ktpd _ _⟩
  · obtain ⟨r, -, rfl⟩ := Option.map_eq_some_iff.mp h
    dsimp only
    split
    · exact ⟨false, (Ends.error (ktpd.withSession r.2) _ _).of_exit rfl⟩
    · refine ⟨_, .hint ktpd r.2 _ ?_⟩
      rw [(foldl_addParam (fun (ack : KtpMsg) (s : String) => ack.addParam .line (cbytes s))
        (fun _ _ => ⟨rfl, rfl⟩) _ _).2]
      simp

theorem processHelp_ends {msg : KtpMsg} (h : ktpd.processHelp sys msg = some ktpd') :
    ∃ done, Ends done ktpd ktpd' := by
  unfold processHelp at h
  split at h
  · cases h
    exact ⟨false, .error ktpd _ _⟩
  · obtain ⟨r, -, rfl⟩ := Option.map_eq_some_iff.mp h
    dsimp only
    split
    · exact ⟨false, (Ends.error (ktpd.withSession r.2) _ _).of_exit rfl⟩
    · refine ⟨_, .hint ktpd r.2 _ ?_⟩
      rw [(foldl_addParam (fun (ack : KtpMsg) (h : String × String) =>
        (ack.addParam .prefx (cbytes h.1)).addParam .line (cbytes h.2))
        (fun _ _ => ⟨rfl, rfl⟩) _ _).2]
      simp

/-- `ktpd_session_exec` gives up on the line of a CMD: it cannot be parsed, or its pipeline cannot
be started. -/
def Refused (sys : KtpdSys) (ktpd : Ktpd env) (msg : KtpMsg) (r : ExecEnd env) : Prop :=
  ∃ line, (msg.strParam .line).filter env.hasContent = some line ∧
    { ktpd with exec := none }.sessionExec sys line msg.status.dryRun = some r ∧ r.rc = false

theorem sessionExec_exit {line : String} {dryRun : Bool} {r : ExecEnd env}
    (h : ktpd.sessionExec sys line dryRun = some r) : r.ktpd.exit = ktpd.exit := by
  rcases sessionExec_spec h with ⟨-, out, hreports, -⟩ | ⟨-, exec, hscheduled⟩
  · exact hreports.exit
  · exact hscheduled.exit

/-- Nothing is left running when a line is refused. -/
theorem sessionExec_refused {line : String} {dryRun : Bool} {r : ExecEnd env}
    (h : ktpd.sessionExec sys line dryRun = some r) (hrc : r.rc = false) :
    r.ktpd.exec = ktpd.exec := by
  obtain ⟨forExec, -, rfl⟩ := Option.map_eq_some_iff.mp h
  dsimp only at hrc ⊢
  split
  · rfl
  · rename_i exec hexec
    rw [hexec] at hrc
    dsimp only at hrc
    split
    · rfl
    · rename_i kexec world hkexec
      rw [hkexec] at hrc
      dsimp only at hrc
      split at hrc <;> cases hrc

/-- What a CMD makes of the exit flag. -/
inductive CmdExit (sys : KtpdSys) (ktpd : Ktpd env) (msg : KtpMsg) (ktpd' : Ktpd env) : Prop
  | ends (hnot : ∀ r, ¬ Refused sys ktpd msg r) (done : Bool) (h : Ends done ktpd ktpd')
  | refused (r : ExecEnd env) (h : Refused sys ktpd msg r)
      (hexit : ktpd'.exit = (ktpd.exit || r.ktpd.world.session.done))
      (hack : ∃ ack, ktpd'.toClient.getLast? = some ack ∧ ack.status = { error := true })

theorem processCmd_exit {msg : KtpMsg} (h : ktpd.processCmd sys msg = some ktpd') :
    CmdExit sys ktpd msg ktpd' := by
  unfold processCmd at h
  split at h
  · rename_i hline
    cases h
    obtain ⟨hexit, ack, hack, hstatus⟩ := sendAck_exit ktpd sys (.preform .cmdAck {}) false
    refine .ends ?_ false ⟨by simp [hexit], ack, hack, by rw [hstatus]; rfl⟩
    rintro r ⟨line, hline', -⟩
    rw [hline] at hline'
    cases hline'
  · rename_i line hline
    obtain ⟨r, hr, rfl⟩ := Option.map_eq_some_iff.mp h
    have hrexit : r.ktpd.exit = ktpd.exit := (sessionExec_exit hr).trans rfl
    have hnot : r.rc = true → ∀ r', ¬ Refused sys ktpd msg r' := by
      rintro hrc r' ⟨line', hline', hr', hrc'⟩
      obtain rfl : line = line' := Option.some.inj (hline.symm.trans hline')
      obtain rfl : r = r' := Option.some.inj (hr.symm.trans hr')
      rw [hrc] at hrc'
      cases hrc'
    split
    · rename_i exec hexec
      have hrc : r.rc = true := by
        by_contra hrc
        rw [sessionExec_refused hr (by simpa using hrc)] at hexec
        cases hexec
      exact .ends (hnot hrc) false ((Ends.send r.ktpd sys rfl).of_exit hrexit)
    · cases hrc : r.rc with
      | true =>
        refine .ends (hnot hrc) r.ktpd.world.session.done
          ((Ends.noteDone r.ktpd sys _ ?_).of_exit hrexit)
        simp [addRetcode]
      | false =>
        obtain ⟨hexit, ack, hack, hstatus⟩ := sendAck_exit (r.ktpd.noteDone {}).1 sys
          (({ KtpMsg.preform .cmdAck (r.ktpd.noteDone {}).2 with
            status := { error := true } }).addStr .error (some (r.error.getD "")))
          r.viewWasChanged
        refine .refused r ⟨line, hline, hr, hrc⟩ ?_ ⟨ack, hack, ?_⟩
        · dsimp only
          rw [if_neg (by simp), hexit, noteDone_exit, hrexit]
        · rw [hstatus]
          simp

/-- Callbacks that set no exit flag. -/
@[simp] theorem pushStdin_exit (sys : KtpdSys) (ktpd : Ktpd env) :
    (ktpd.pushStdin sys).exit = ktpd.exit := by
  unfold pushStdin
  split
  · rfl
  · split <;> rfl

@[simp] theorem processStdin_exit (sys : KtpdSys) (ktpd : Ktpd env) (msg : KtpMsg) :
    (ktpd.processStdin sys msg).exit = ktpd.exit := by
  unfold processStdin
  split <;> rfl

@[simp] theorem processStdinClose_exit (sys : KtpdSys) (ktpd : Ktpd env) :
    (ktpd.processStdinClose sys).exit = ktpd.exit := by
  unfold processStdinClose
  split
  · rfl
  · rw [pushStdin_exit]

theorem Closes.exit (h : Closes ktpd ktpd') : ktpd'.exit = ktpd.exit := by
  cases h <;> rfl

@[simp] theorem receive_exit (sys : KtpdSys) (ktpd : Ktpd env) (fd : Fd) (isStderr : Bool) :
    (ktpd.receive sys fd isStderr).exit = ktpd.exit := by
  unfold receive
  split
  · rfl
  · rename_i exec hexec
    obtain ⟨-, -, out, hsends, -⟩ := getStream_spec ktpd sys exec (some fd) isStderr
    exact hsends.exit

/-- What a message makes of the exit flag. -/
inductive DispatchExit (sys : KtpdSys) (ktpd : Ktpd env) (msg : KtpMsg) (ktpd' : Ktpd env) : Prop
  | kept (h : ktpd'.exit = ktpd.exit)
  | auth (hkind : msg.cmd = .auth) (hstate : ktpd.state = .unauthorized ∨ ktpd.state = .idle)
      (h : ktpd' = ktpd.processAuth sys msg)
  | cmd (hkind : msg.cmd = .cmd) (hidle : ktpd.state = .idle) (h : CmdExit sys ktpd msg ktpd')
  | hint (hkind : msg.cmd = .completion ∨ msg.cmd = .help) (hidle : ktpd.state = .idle)
      (done : Bool) (h : Ends done ktpd ktpd')

theorem dispatch_exit {msg : KtpMsg} (h : ktpd.dispatch sys msg = some ktpd') :
    DispatchExit sys ktpd msg ktpd' := by
  cases dispatch_handler h with
  | auth hkind hstate => exact .auth hkind hstate rfl
  | cmd hkind hidle h => exact .cmd hkind hidle (processCmd_exit h)
  | completion hkind hidle h =>
    obtain ⟨done, h⟩ := processCompletion_ends h
    exact .hint (.inl hkind) hidle done h
  | help hkind hidle h =>
    obtain ⟨done, h⟩ := processHelp_ends h
    exact .hint (.inr hkind) hidle done h
  | stdin => exact .kept (processStdin_exit sys ktpd msg)
  | stdinClose => exact .kept (processStdinClose_exit sys ktpd)
  | stdoutClose => exact .kept (processStdoutClose_closes ktpd).exit
  | stderrClose => exact .kept (processStderrClose_closes ktpd).exit
  | notification =>
    obtain ⟨session, hsession⟩ := processNotification_spec ktpd msg
    rw [hsession]
    exact .kept rfl
  | illegal => exact .kept rfl
  | unsupported => exact .kept rfl
  | ignored => exact .kept rfl

/-- The end of a command sets the exit flag from the flag of the klish session. -/
theorem finishCommand_ends (sys : KtpdSys) (ktpd : Ktpd env) (exec : KtpdExec) (retcode : ℤ) :
    ∃ done, Ends done ktpd (ktpd.finishCommand sys exec retcode) := by
  unfold finishCommand
  dsimp only
  obtain ⟨-, -, out₁, hsends₁, -⟩ := getStream_spec ktpd sys exec exec.stdout false
  generalize ktpd.getStream sys exec exec.stdout false = out at *
  obtain ⟨-, -, out₂, hsends₂, -⟩ := getStream_spec out.2 sys out.1 exec.stderr true
  generalize out.2.getStream sys out.1 exec.stderr true = err at *
  generalize hktpd₃ : ({ err.2 with
    eloop := delStream (delStream (delStream err.2.eloop exec.stdin) exec.stdout) exec.stderr } :
    Ktpd env) = ktpd₃
  obtain ⟨-, hsends₃⟩ := sessionLog_spec ktpd₃ sys err.1
  generalize ktpd₃.sessionLog sys err.1 = logged at *
  have hexit : logged.exit = ktpd.exit := by
    rw [hsends₃.exit, ← hktpd₃]
    exact hsends₂.exit.trans hsends₁.exit
  refine ⟨_, (Ends.noteDone ({ logged.kexecFree err.1 with exec := none, state := .idle } : Ktpd env)
    sys _ ?_).of_exit hexit⟩
  simp [addRetcode]

theorem reapChildren_exit (sys : KtpdSys) (ktpd : Ktpd env) (reports : List (Pid × WaitStatus)) :
    (ktpd.reapChildren sys reports).exit = ktpd.exit := by
  unfold reapChildren
  split <;> rfl

theorem waitForActionsEv_exit (sys : KtpdSys) (ktpd : Ktpd env)
    (reports : List (Pid × WaitStatus)) :
    (ktpd.waitForActionsEv sys reports).exit = ktpd.exit ∨
      ∃ done out ack, Ends done ktpd (ktpd.waitForActionsEv sys reports) ∧
        (ktpd.waitForActionsEv sys reports).toClient = ktpd.toClient ++ (out ++ [ack]) ∧
        ack.cmd = .cmdAck ∧ ack.status.incompleted = false := by
  have hreap := reapChildren_exit sys ktpd reports
  have htoClient := (reapChildren_spec sys ktpd reports).2.1
  unfold waitForActionsEv
  dsimp only
  split
  · exact .inl hreap
  · rename_i exec _
    split
    · exact .inl hreap
    · rename_i retcode _
      obtain ⟨done, hends⟩ := finishCommand_ends sys (ktpd.reapChildren sys reports) exec retcode
      obtain ⟨out, ack, hout, -, hcmd, hfinal⟩ :=
        (finishCommand_spec sys (ktpd.reapChildren sys reports) exec retcode).toClient
      exact .inr ⟨done, out, ack, hends.of_exit hreap, htoClient ▸ hout, hcmd, hfinal⟩

/-- The request that is answered for good in a callback that sets the exit flag. -/
def Event.request : Event → Option KtpRequest
  | dispatch msg => msg.request
  | sigchld _ => some .cmd
  | poll .. => none

/-- The request fails, and its answer has an error status. -/
def Fails (ktpd : Ktpd env) : Event × KtpdSys → Prop
  | (.dispatch msg, sys) =>
    (msg.cmd = .auth ∧ sys.peercred = false) ∨ (msg.cmd = .cmd ∧ ∃ r, Refused sys ktpd msg r)
  | _ => False

/-- The last message that a callback sends is the final answer to its request, and tells the
client of the exit and of the error. -/
def Announced (ktpd : Ktpd env) (event : Event × KtpdSys) (ktpd' : Ktpd env) : Prop :=
  ∃ out ack, ktpd'.toClient = ktpd.toClient ++ (out ++ [ack]) ∧ ack.answer = event.1.request ∧
    ack.status.exit = true ∧ (Fails ktpd event → ack.status.error = true)

/-- A CMD whose line is refused, while the klish session is done or gets done by its parsing. -/
def RefusedDone (ktpd : Ktpd env) : Event × KtpdSys → Prop
  | (.dispatch msg, sys) => msg.cmd = .cmd ∧ ktpd.state = .idle ∧
    ∃ r, Refused sys ktpd msg r ∧ r.ktpd.world.session.done = true
  | _ => False

/-- The exit flag is set by an answer. -/
theorem dispatch_answered {msg : KtpMsg} (hlive : Live ktpd)
    (h : ktpd.dispatch sys msg = some ktpd') (hexit : ktpd.exit = false)
    (hexit' : ktpd'.exit = true) : ∃ r : KtpRequest, msg.cmd = r.kind ∧ Answered ktpd ktpd' r.ack := by
  have hne : ktpd'.exit ≠ ktpd.exit := by
    rw [hexit, hexit']
    decide
  cases dispatch_spec hlive h with
  | answered r hkind h => exact ⟨r, hkind, h⟩
  | scheduled hkind hidle h => exact absurd h.exit hne
  | notified hkind hinput hnotify h => exact absurd h.exit hne
  | stdin => exact absurd (processStdin_exit sys ktpd msg) hne
  | stdinClose => exact absurd (processStdinClose_exit sys ktpd) hne
  | stdoutClose => exact absurd (processStdoutClose_closes ktpd).exit hne
  | stderrClose => exact absurd (processStderrClose_closes ktpd).exit hne

@[simp] theorem receive_state (sys : KtpdSys) (ktpd : Ktpd env) (fd : Fd) (isStderr : Bool) :
    (ktpd.receive sys fd isStderr).state = ktpd.state := by
  unfold receive
  split
  · rfl
  · rename_i exec hexec
    obtain ⟨-, -, out, hsends, -⟩ := getStream_spec ktpd sys exec (some fd) isStderr
    exact hsends.state

@[simp] theorem pushStdin_state (sys : KtpdSys) (ktpd : Ktpd env) :
    (ktpd.pushStdin sys).state = ktpd.state := (pushStdin_silent sys ktpd).state

/-- The events of the streams change neither the exit flag nor the state. -/
theorem step_poll_same {fd : Fd} {revents : Revents}
    (h : ktpd.step (.poll fd revents, sys) = some ktpd') :
    ktpd'.exit = ktpd.exit ∧ ktpd'.state = ktpd.state := by
  have hreceive : ∀ (k : Ktpd env) (isStderr : Bool),
      (k.receive sys fd isStderr).exit = k.exit ∧ (k.receive sys fd isStderr).state = k.state :=
    fun k isStderr => ⟨receive_exit sys k fd isStderr, receive_state sys k fd isStderr⟩
  exact poll_rel (R := fun k k' : Ktpd env => k'.exit = k.exit ∧ k'.state = k.state)
    (fun _ => ⟨rfl, rfl⟩) (fun hab hbc => ⟨hbc.1.trans hab.1, hbc.2.trans hab.2⟩)
    (fun k => ⟨pushStdin_exit sys k, pushStdin_state sys k⟩) hreceive (fun _ _ => ⟨rfl, rfl⟩) h

theorem Ends.ack_exit {out : List KtpMsg} {ack : KtpMsg} (h : Ends true ktpd ktpd')
    (htoClient : ktpd'.toClient = ktpd.toClient ++ (out ++ [ack])) : ack.status.exit = true := by
  obtain ⟨last, hlast, hexit⟩ := h.ack
  rw [htoClient, ← List.append_assoc, List.getLast?_concat] at hlast
  exact Option.some.inj hlast ▸ hexit

theorem Ends.done_eq (h : Ends done ktpd ktpd') (hexit : ktpd.exit = false)
    (hexit' : ktpd'.exit = true) : done = true := by
  have hflag := h.exit
  rw [hexit, hexit', Bool.false_or] at hflag
  exact hflag.symm

theorem Answered.announced {msg : KtpMsg} {r : KtpRequest} (h : Answered ktpd ktpd' r.ack)
    (hkind : msg.cmd = r.kind) (hends : Ends true ktpd ktpd')
    (hfails : Fails ktpd (.dispatch msg, sys) →
      ∃ ack, ktpd'.toClient.getLast? = some ack ∧ ack.status.error = true) :
    Announced ktpd (.dispatch msg, sys) ktpd' := by
  obtain ⟨out, ack, htoClient, -, -, hcmd, hfinal⟩ := h.toClient
  refine ⟨out, ack, htoClient, ?_, hends.ack_exit htoClient, fun hfail => ?_⟩
  · rw [Channel.answer_eq_some.mpr ⟨hcmd, hfinal⟩]
    exact (Channel.request_eq_some.mpr hkind).symm
  · obtain ⟨last, hlast, herror⟩ := hfails hfail
    rw [htoClient, ← List.append_assoc, List.getLast?_concat] at hlast
    exact Option.some.inj hlast ▸ herror

theorem processAuth_error {msg : KtpMsg} (hpeer : sys.peercred = false) :
    ∃ ack, (ktpd.processAuth sys msg).toClient.getLast? = some ack ∧ ack.status.error = true := by
  unfold processAuth
  rw [hpeer]
  exact ⟨_, List.getLast?_concat, by simp⟩

theorem dispatch_announced_iff {msg : KtpMsg} (hlive : Live ktpd)
    (h : ktpd.dispatch sys msg = some ktpd') (hexit : ktpd.exit = false) :
    (ktpd'.exit = true → Announced ktpd (.dispatch msg, sys) ktpd') ↔
      ¬ RefusedDone ktpd (.dispatch msg, sys) := by
  constructor
  · rintro hannounced ⟨hkind, hidle, r, hrefused, hdone⟩
    have hcmd : CmdExit sys ktpd msg ktpd' := by
      apply processCmd_exit
      simpa only [dispatch, hkind, hidle, if_true] using h
    cases hcmd with
    | ends hnot => exact hnot r hrefused
    | refused r' hrefused' hflag hack =>
      obtain ⟨line, hline, hr, -⟩ := hrefused
      obtain ⟨line', hline', hr', -⟩ := hrefused'
      obtain rfl : line = line' := Option.some.inj (hline.symm.trans hline')
      obtain rfl : r = r' := Option.some.inj (hr.symm.trans hr')
      obtain ⟨out, ack, htoClient, -, hstatus, -⟩ :=
        hannounced (by rw [hflag, hdone, Bool.or_true])
      obtain ⟨last, hlast, herror⟩ := hack
      rw [htoClient, ← List.append_assoc, List.getLast?_concat] at hlast
      obtain rfl : ack = last := Option.some.inj hlast
      rw [herror] at hstatus
      cases hstatus
  · intro hnot hexit'
    have hne : ktpd'.exit ≠ ktpd.exit := by
      rw [hexit, hexit']
      decide
    obtain ⟨r, hkind, hanswered⟩ := dispatch_answered hlive h hexit hexit'
    cases dispatch_exit h with
    | kept h => exact absurd h hne
    | auth hauth hstate h =>
      subst h
      have hends := processAuth_ends sys ktpd msg
      have hpeer : sys.peercred = false := by simpa using hends.done_eq hexit hexit'
      rw [hpeer] at hends
      exact hanswered.announced hkind hends fun _ => processAuth_error hpeer
    | cmd hcmd hidle h =>
      cases h with
      | ends hrefused done h =>
        obtain rfl := h.done_eq hexit hexit'
        refine hanswered.announced hkind h fun hfails => ?_
        rcases hfails with ⟨hauth, -⟩ | ⟨-, r, hr⟩
        · exact absurd (hcmd.symm.trans hauth) (by decide)
        · exact absurd hr (hrefused r)
      | refused r hrefused hflag =>
        rw [hexit, hexit', Bool.false_or] at hflag
        exact absurd ⟨hcmd, hidle, r, hrefused, hflag.symm⟩ hnot
    | hint hhint hidle done h =>
      obtain rfl := h.done_eq hexit hexit'
      refine hanswered.announced hkind h fun hfails => ?_
      rcases hfails with ⟨hother, -⟩ | ⟨hother, -⟩ <;> rw [hother] at hhint <;>
        rcases hhint with hhint | hhint <;> cases hhint

/-- In every state that the session can be in, a callback that sets the exit flag announces the
exit, unless it answers a CMD that has been refused. -/
theorem exit_announced_iff {eloop : env.L.State} {world : World}
    (hnew : env.L.watched eloop env.clientFd = false) (hopen : env.clientFd ∈ world.fds)
    {events : List (Event × KtpdSys)} (hrun : Runs.run step (new eloop world) events = some ktpd)
    {event : Event × KtpdSys} (hstep : ktpd.step event = some ktpd')
    (hexit : ktpd.exit = false) :
    (ktpd'.exit = true → Announced ktpd event ktpd') ↔ ¬ RefusedDone ktpd event := by
  have hwired : Wired ktpd :=
    Runs.run_invariant (fun _ _ _ => step_wired) (new_wired hnew hopen) hrun
  obtain ⟨event, sys⟩ := event
  cases event with
  | dispatch msg => exact dispatch_announced_iff hwired.live hstep hexit
  | poll fd revents =>
    have hkept := (step_poll_same hstep).1
    refine ⟨fun _ hrefused => hrefused, fun _ hexit' => ?_⟩
    rw [hkept, hexit] at hexit'
    cases hexit'
  | sigchld reports =>
    obtain rfl := Option.some.inj hstep
    refine ⟨fun _ hrefused => hrefused, fun _ hexit' => ?_⟩
    rcases waitForActionsEv_exit sys ktpd reports with hkept | hends
    · rw [hkept, hexit] at hexit'
      cases hexit'
    · obtain ⟨done, out, ack, hends, htoClient, hcmd, hfinal⟩ := hends
      obtain rfl := hends.done_eq hexit hexit'
      exact ⟨out, ack, htoClient, Channel.answer_eq_some.mpr ⟨hcmd, hfinal⟩,
        hends.ack_exit htoClient, fun hfails => hfails.elim⟩

/-- A system whose service ACTIONs end the klish session and accept no word. -/
def stoppingSys : KtpdSys := { sampleSys 0 with V := fun _ _ _ => ⟨true, 1, none, true⟩ }

def refusedStart : Option (Ktpd sampleEnv) :=
  Runs.run step (new (fun _ => none) sampleWorld) [(.dispatch (.preform .auth {}), sampleSys 0)]

theorem exit_announced_iff_sample : ∃ ktpd ktpd' : Ktpd sampleEnv,
    refusedStart = some ktpd ∧ ktpd.step (.dispatch sampleCmd, stoppingSys) = some ktpd' ∧
    ((ktpd'.exit = true → Announced ktpd (.dispatch sampleCmd, stoppingSys) ktpd') ↔
      ¬ RefusedDone ktpd (.dispatch sampleCmd, stoppingSys)) := by
  have hrun : (refusedStart.bind fun ktpd =>
      (ktpd.step (.dispatch sampleCmd, stoppingSys)).map fun _ => ktpd.exit) = some false := by
    decide
  obtain ⟨ktpd, hktpd, hstep⟩ := Option.bind_eq_some_iff.mp hrun
  obtain ⟨ktpd', hstep, hexit⟩ := Option.map_eq_some_iff.mp hstep
  exact ⟨ktpd, ktpd', hktpd, hstep,
    @exit_announced_iff sampleEnv _ _ _ _ rfl (by decide) _ hktpd _ hstep hexit⟩

/-- A line that is refused after its parsing has ended the session. -/
theorem exit_not_announced : ∃ ktpd ktpd' : Ktpd sampleEnv,
    refusedStart = some ktpd ∧ ktpd.exit = false ∧
    ktpd.step (.dispatch sampleCmd, stoppingSys) = some ktpd' ∧ ktpd'.exit = true ∧
    ¬ Announced ktpd (.dispatch sampleCmd, stoppingSys) ktpd' := by
  have hrun : (refusedStart.bind fun ktpd =>
      (ktpd.step (.dispatch sampleCmd, stoppingSys)).map fun ktpd' =>
        (ktpd.exit, ktpd'.exit, ktpd'.toClient.getLast?.map fun ack => ack.status.exit)) =
      some (false, true, some false) := by decide
  obtain ⟨ktpd, hktpd, hstep⟩ := Option.bind_eq_some_iff.mp hrun
  obtain ⟨ktpd', hstep, heq⟩ := Option.map_eq_some_iff.mp hstep
  obtain ⟨hexit, hexit', hlast⟩ : ktpd.exit = false ∧ ktpd'.exit = true ∧
      ∃ ack, ktpd'.toClient.getLast? = some ack ∧ ack.status.exit = false := by simpa using heq
  refine ⟨ktpd, ktpd', hktpd, hexit, hstep, hexit', ?_⟩
  rintro ⟨out, ack, htoClient, -, hstatus, -⟩
  obtain ⟨last, hlast, hnone⟩ := hlast
  rw [htoClient, ← List.append_assoc, List.getLast?_concat] at hlast
  obtain rfl : ack = last := Option.some.inj hlast
  rw [hnone] at hstatus
  cases hstatus

end Ktpd

end Klish
