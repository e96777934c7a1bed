import Klish.KtpdPath
import Klish.KtpRetcode
import Klish.KtpServe

/-!
# What the server tells of its path

An answer to an authorization or a command carries the hotkeys of the path if the path is another
one than before. No other message does.
-/

namespace Klish.Ktpd

variable {env : KtpdEnv} {ktpd ktpd' : Ktpd env} {sys : KtpdSys}

/-- A message that makes the client forget no hotkey: no answer that the client reads hotkeys of,
or one without them. -/
def Bare (msg : KtpMsg) : Prop :=
  msg.cmd = .authAck ∨ msg.cmd = .cmdAck → msg.values .hotkey = []

/-- An answer with the hotkeys of a path. -/
structure Table (scheme : Kscheme) (path : Kpath) (ack : KtpMsg) : Prop where
  cmd : ack.cmd = .authAck ∨ ack.cmd = .cmdAck
  final : ack.status.incompleted = false
  hotkeys : ack.values .hotkey = (pathHotkeys scheme path).map hotkeyData

/-- The path is the old one, and no hotkeys are sent. -/
def Untold (ktpd ktpd' : Ktpd env) : Prop :=
  ∃ out, ktpd'.toClient = ktpd.toClient ++ out ∧ (∀ msg ∈ out, Bare msg) ∧
    ktpd'.shownPath = ktpd.shownPath

/-- The hotkeys of the path are sent with the last message. -/
def Told (ktpd ktpd' : Ktpd env) : Prop :=
  ∃ out ack path, ktpd'.toClient = ktpd.toClient ++ (out ++ [ack]) ∧ (∀ msg ∈ out, Bare msg) ∧
    Table env.scheme path ack ∧ ktpd'.shownPath = some path

theorem bare_of_ne {msg : KtpMsg} (hauth : msg.cmd ≠ .authAck) (hcmd : msg.cmd ≠ .cmdAck) :
    Bare msg := fun h => h.elim (absurd · hauth) (absurd · hcmd)

theorem IsStream.bare {msg : KtpMsg} (h : IsStream msg) : Bare msg := by
  apply bare_of_ne
  · rcases h with h | h <;> rw [h] <;> decide
  · rcases h with h | h <;> rw [h] <;> decide

theorem ofError_bare (kind : KtpCmd) (error : Option String) : Bare (.ofError kind error) :=
  fun _ => KtpMsg.values_addStr _ _ (by decide) error

/-- The hotkeys of an answer are those that are added last. -/
theorem hotkeys_fullAck (ktpd : Ktpd env) (sys : KtpdSys) (ack : KtpMsg) (hotkeys : Bool) :
    (ktpd.fullAck sys ack hotkeys).values .hotkey = ack.values .hotkey ++
      if hotkeys then (pathHotkeys env.scheme ktpd.world.session.path).map hotkeyData else [] := by
  have hpath := promptLoop_path env.scheme sys.V ktpd.world.session.path.levels.reverse
    ktpd.world.session
  unfold fullAck
  dsimp only
  split
  · unfold addHotkeysToMsg
    rw [foldl_hotkeys, if_pos rfl, KtpMsg.values_addStr _ _ (by decide)]
    show _ ++ (pathHotkeys env.scheme (ktpd.generatePrompt sys).2.path).map hotkeyData = _
    rw [generatePrompt, hpath]
  · rw [KtpMsg.values_addStr _ _ (by decide), List.append_nil]

theorem sendAck_still (ktpd : Ktpd env) (sys : KtpdSys) (ack : KtpMsg) (hotkeys : Bool) :
    Still ktpd (ktpd.sendAck sys ack hotkeys) :=
  .of_eq rfl (promptLoop_path env.scheme sys.V _ _)

namespace Untold

theorem of_still {out : List KtpMsg} (h : Still ktpd ktpd')
    (htoClient : ktpd'.toClient = ktpd.toClient ++ out) (hbare : ∀ msg ∈ out, Bare msg) :
    Untold ktpd ktpd' := ⟨out, htoClient, hbare, h.shown⟩

theorem refl (ktpd : Ktpd env) : Untold ktpd ktpd :=
  .of_still (.refl ktpd) (List.append_nil _).symm (List.forall_mem_nil _)

/-- One message is sent. -/
theorem send {msg : KtpMsg} (h : Still ktpd ktpd') (htoClient : ktpd'.toClient = ktpd.toClient)
    (hbare : Bare msg) : Untold ktpd (ktpd'.send sys msg) :=
  .of_still (h.trans (.of_eq rfl rfl)) (congrArg (· ++ [msg]) htoClient)
    (List.forall_mem_singleton.mpr hbare)

theorem of_silent (h : Still ktpd ktpd') (hsilent : Silent ktpd ktpd') : Untold ktpd ktpd' :=
  .of_still h (hsilent.toClient.trans (List.append_nil _).symm) (List.forall_mem_nil _)

end Untold

/-- The last answer to a request. It has the hotkeys if they are asked for. -/
theorem sendAck_tells (ktpd r : Ktpd env) (sys : KtpdSys) (ack : KtpMsg) (hotkeys : Bool)
    {out : List KtpMsg}
    (htoClient : r.toClient = ktpd.toClient ++ out) (hstream : ∀ msg ∈ out, IsStream msg)
    (hexec : r.exec = none) (hcmd : ack.cmd = .authAck ∨ ack.cmd = .cmdAck)
    (hfinal : ack.status.incompleted = false) (hnone : ack.values .hotkey = [])
    (hpath : hotkeys = false → some r.world.session.path = ktpd.shownPath) :
    (hotkeys = false → Untold ktpd (r.sendAck sys ack hotkeys)) ∧
      (hotkeys = true → Told ktpd (r.sendAck sys ack hotkeys)) := by
  have hshown : (r.sendAck sys ack hotkeys).shownPath = some r.world.session.path := by
    rw [(sendAck_still r sys ack hotkeys).shown, shownPath, hexec]
  have hsent : (r.sendAck sys ack hotkeys).toClient =
      ktpd.toClient ++ (out ++ [r.fullAck sys ack hotkeys]) := by
    rw [← List.append_assoc, ← htoClient]
    rfl
  have hvalues := hotkeys_fullAck r sys ack hotkeys
  rw [hnone, List.nil_append] at hvalues
  refine ⟨fun hfalse => ?_, fun htrue => ?_⟩
  · refine ⟨_, hsent, fun msg hmsg => ?_, hshown.trans (hpath hfalse)⟩
    rcases List.mem_append.mp hmsg with hmsg | hmsg
    · exact (hstream msg hmsg).bare
    · obtain rfl := List.mem_singleton.mp hmsg
      intro _
      rw [hvalues, if_neg (ne_true_of_eq_false hfalse)]
  · refine ⟨out, _, r.world.session.path, hsent, fun msg hmsg => (hstream msg hmsg).bare,
      ⟨?_, ?_, ?_⟩, hshown⟩
    · rw [fullAck_cmd]
      exact hcmd
    · rw [fullAck_status]
      exact hfinal
    · rw [hvalues, if_pos htrue]

/-- A peer that is known gets the hotkeys, and one that is not gets an error. -/
theorem processAuth_tells (sys : KtpdSys) (msg : KtpMsg) (hexec : ktpd.exec = none) :
    (sys.peercred = true → Told ktpd (ktpd.processAuth sys msg)) ∧
      (sys.peercred = false → Untold ktpd (ktpd.processAuth sys msg)) := by
  unfold processAuth
  refine ⟨fun hpeer => ?_, fun hpeer => ?_⟩
  · rw [if_neg (by simp [hpeer])]
    obtain ⟨out, ack, path, htoClient, hbare, htable, hshown⟩ := (sendAck_tells ktpd
      (ktpd.withSession { ktpd.world.session with
        isattyStdin := msg.status.ttyStdin
        isattyStdout := msg.status.ttyStdout
        isattyStderr := msg.status.ttyStderr })
      sys (addRetcode (.preform .authAck {}) 0) true (List.append_nil _).symm
      (List.forall_mem_nil _) hexec (.inl rfl) rfl rfl (absurd · (by decide))).2 rfl
    exact ⟨out, ack, path, htoClient, hbare, htable, hshown⟩
  · rw [if_pos (by simp [hpeer])]
    have hkept : Untold ktpd (ktpd.send sys ((KtpMsg.preform .authAck
        { error := true, exit := true }).addStr .error (some "Can't get peer credentials"))) :=
      .send (.refl ktpd) rfl fun _ => rfl
    exact hkept

theorem viewWasChanged_eq_false {exec : KtpdExec} (h : ktpd.viewWasChanged exec = false) :
    some ktpd.world.session.path = exec.savedPath := by
  have heq : exec.savedPath.map Kpath.levels = some ktpd.world.session.path.levels := by
    simpa [viewWasChanged] using h
  obtain ⟨saved, hsaved, hlevels⟩ := Option.map_eq_some_iff.mp heq
  rw [hsaved, Kpath.ext hlevels]

/-- A pipeline that is not left running, or one that is. -/
theorem sessionExec_path {line : String} {dryRun : Bool} {r : ExecEnd env}
    (hexec : ktpd.exec = none) (h : ktpd.sessionExec sys line dryRun = some r) :
    (r.ktpd.exec = none ∧ (∃ out, r.ktpd.toClient = ktpd.toClient ++ out ∧
        ∀ msg ∈ out, IsStream msg) ∧
      (r.viewWasChanged = false → r.ktpd.world.session.path = ktpd.world.session.path)) ∨
    (r.ktpd.toClient = ktpd.toClient ∧ ∃ exec, r.ktpd.exec = some exec ∧
      exec.savedPath = some ktpd.world.session.path) := by
  obtain ⟨forExec, hparse, rfl⟩ := Option.map_eq_some_iff.mp h
  have hpath := Ksession.parseForExec_path env.scheme sys.V hparse
  dsimp only
  split
  · exact .inl ⟨hexec, ⟨[], (List.append_nil _).symm, List.forall_mem_nil _⟩, fun _ => hpath⟩
  split
  · exact .inl ⟨hexec, ⟨[], (List.append_nil _).symm, List.forall_mem_nil _⟩, fun _ => hpath⟩
  rename_i kexec world hkexec
  have hsaved : kexec.savedPath = some ktpd.world.session.path :=
    (Kexec.kexecExec_savedPath hkexec).trans (congrArg some hpath)
  split
  · left
    generalize hstart : KtpdExec.mk kexec [] sys.printedOut sys.printedErr [] = exec
    generalize hworld : ({ ktpd.withSession forExec.session with world } : Ktpd env) = ktpd₁
    have hexec₁ : ktpd₁.exec = none := by
      rw [← hworld]
      exact hexec
    have htoClient₁ : ktpd₁.toClient = ktpd.toClient := by
      rw [← hworld]
      rfl
    have hsaved₁ : exec.savedPath = some ktpd.world.session.path := by
      rw [← hstart]
      exact hsaved
    obtain ⟨-, -, out₁, hsends₁, hstream₁⟩ := getStream_spec ktpd₁ sys exec none false
    have hstill₁ := getStream_still ktpd₁ sys exec none false
    generalize ktpd₁.getStream sys exec none false = out at *
    obtain ⟨-, -, out₂, hsends₂, hstream₂⟩ := getStream_spec out.2 sys out.1 none true
    have hstill₂ := getStream_still out.2 sys out.1 none true
    generalize out.2.getStream sys out.1 none true = err at *
    obtain ⟨-, hsends₃⟩ := sessionLog_spec err.2 sys err.1
    have hsends := (hsends₁.trans hsends₂).trans hsends₃
    have hstill := ((hstill₁.trans hstill₂).trans (sessionLog_still err.2 sys err.1)).trans
      (kexecFree_still _ err.1)
    refine ⟨hsends.exec.trans hexec₁, ⟨out₁ ++ out₂, ?_, fun msg hmsg => ?_⟩, fun hview => ?_⟩
    · have htoClient := hsends.toClient
      rw [htoClient₁, List.append_nil] at htoClient
      exact htoClient
    · rcases List.mem_append.mp hmsg with hmsg | hmsg
      · exact hstream₁ msg hmsg
      · exact hstream₂ msg hmsg
    · exact (hstill.path hexec₁).trans
        (Option.some.inj ((viewWasChanged_eq_false hview).trans hsaved₁))
  · exact .inr ⟨rfl, _, rfl, hsaved⟩

theorem processCmd_tells {msg : KtpMsg} (hexec : ktpd.exec = none)
    (h : ktpd.processCmd sys msg = some ktpd') : Untold ktpd ktpd' ∨ Told ktpd ktpd' := by
  have hself : { ktpd with exec := none } = ktpd := by
    rw [← hexec]
  have hshown : ktpd.shownPath = some ktpd.world.session.path := by
    rw [shownPath, hexec]
  unfold processCmd at h
  split at h
  · cases h
    exact .inl ((sendAck_tells ktpd ktpd sys (.preform .cmdAck {}) false (List.append_nil _).symm
      (List.forall_mem_nil _) hexec (.inr rfl) rfl rfl fun _ => hshown.symm).1 rfl)
  · obtain ⟨r, hr, rfl⟩ := Option.map_eq_some_iff.mp h
    rw [hself] at hr
    rcases sessionExec_path hexec hr with
      ⟨hnone, ⟨out, htoClient, hstream⟩, hpath⟩ | ⟨htoClient, exec, hsome, hsaved⟩
    · rw [hnone]
      dsimp only
      obtain ⟨exit, exit', hdone⟩ := noteDone_spec r.ktpd {}
      rw [hdone]
      have htells := sendAck_tells ktpd { r.ktpd with exit } sys
        (if r.rc = true then addRetcode (.preform .cmdAck { exit := exit' }) r.retcode
          else { KtpMsg.preform .cmdAck { exit := exit' } with
            status := { error := true } }.addStr .error (some (r.error.getD "")))
        r.viewWasChanged htoClient hstream hnone (by split <;> exact .inr rfl)
        (by split <;> rfl) (by split <;> rfl) fun hview => by rw [hshown, ← hpath hview]
      cases hview : r.viewWasChanged with
      | false => exact .inl (hview ▸ htells.1 hview)
      | true => exact .inr (hview ▸ htells.2 hview)
    · rw [hsome]
      left
      refine ⟨_, congrArg (· ++ [incompletedAck env.scheme exec]) htoClient,
        List.forall_mem_singleton.mpr fun _ => rfl, ?_⟩
      have hsent : (r.ktpd.send sys (incompletedAck env.scheme exec)).exec = some exec := hsome
      dsimp only
      rw [shownPath, hsent, hshown, ← hsaved]

theorem finishCommand_tells (sys : KtpdSys) (retcode : ℤ) {exec : KtpdExec}
    (hexec : ktpd.exec = some exec) :
    Untold ktpd (ktpd.finishCommand sys exec retcode) ∨
      Told ktpd (ktpd.finishCommand sys exec retcode) := by
  have hshown : ktpd.shownPath = exec.savedPath := by
    rw [shownPath, hexec]
  unfold finishCommand
  dsimp only
  obtain ⟨hsame₁, -, out₁, hsends₁, hstream₁⟩ := getStream_spec ktpd sys exec exec.stdout false
  generalize ktpd.getStream sys exec exec.stdout false = out at *
  obtain ⟨hsame₂, -, out₂, hsends₂, hstream₂⟩ := getStream_spec out.2 sys out.1 exec.stderr true
  generalize out.2.getStream sys out.1 exec.stderr true = err at *
  have hsaved : err.1.savedPath = exec.savedPath :=
    congrArg Kexec.savedPath (hsame₂.toKexec.trans hsame₁.toKexec)
  generalize hktpd₃ : ({ err.2 with
    eloop := delStream (delStream (delStream err.2.eloop exec.stdin) exec.stdout) exec.stderr } :
    Ktpd env) = ktpd₃
  obtain ⟨-, hsends₃⟩ := sessionLog_spec ktpd₃ sys err.1
  generalize ktpd₃.sessionLog sys err.1 = logged at *
  have hfree := kexecFree_path logged err.1
  have htoClient : logged.toClient = ktpd.toClient ++ (out₁ ++ out₂) := by
    have h₃ : ktpd₃.toClient = err.2.toClient := by rw [← hktpd₃]
    rw [hsends₃.toClient, List.append_nil, h₃]
    exact (hsends₁.trans hsends₂).toClient
  obtain ⟨exit, exit', hdone⟩ := noteDone_spec
    ({ logged.kexecFree err.1 with exec := none, state := .idle } : Ktpd env) {}
  rw [hdone]
  have htells := sendAck_tells ktpd
    { logged.kexecFree err.1 with exec := none, state := .idle, exit } sys
    (addRetcode (.preform .cmdAck { exit := exit' }) retcode) (logged.viewWasChanged err.1)
    htoClient (fun msg hmsg => (List.mem_append.mp hmsg).elim (hstream₁ msg) (hstream₂ msg)) rfl
    (.inr rfl) rfl rfl fun hview => by
      rw [hshown, ← hsaved, ← viewWasChanged_eq_false hview]
      exact congrArg some hfree
  cases hview : logged.viewWasChanged err.1 with
  | false => exact .inl (hview ▸ htells.1 hview)
  | true => exact .inr (hview ▸ htells.2 hview)

theorem waitForActionsEv_tells (sys : KtpdSys) (ktpd : Ktpd env)
    (reports : List (Pid × WaitStatus)) :
    Untold ktpd (ktpd.waitForActionsEv sys reports) ∨
      Told ktpd (ktpd.waitForActionsEv sys reports) := by
  have htoClient := (reapChildren_spec sys ktpd reports).2.1
  have hstill := reapChildren_still sys ktpd reports
  unfold waitForActionsEv
  dsimp only
  generalize ktpd.reapChildren sys reports = reaped at *
  have hreaped : Untold ktpd reaped :=
    .of_still hstill (htoClient.trans (List.append_nil _).symm) (List.forall_mem_nil _)
  split
  · exact .inl hreaped
  · rename_i exec hexec
    split
    · exact .inl hreaped
    · rename_i retcode _
      rcases finishCommand_tells sys retcode hexec with
        ⟨out, hsent, hbare, hshown⟩ | ⟨out, ack, path, hsent, htable⟩
      · exact .inl ⟨out, htoClient ▸ hsent, hbare, hshown.trans hstill.shown⟩
      · exact .inr ⟨out, ack, path, htoClient ▸ hsent, htable⟩

theorem waitForActionsEv_none (sys : KtpdSys) (reports : List (Pid × WaitStatus))
    (hexec : ktpd.exec = none) : Untold ktpd (ktpd.waitForActionsEv sys reports) ∧
      (ktpd.waitForActionsEv sys reports).state = ktpd.state := by
  obtain ⟨-, htoClient, hstate, -, hnone, -⟩ := reapChildren_spec sys ktpd reports
  have hstill := reapChildren_still sys ktpd reports
  have hreaped : ktpd.waitForActionsEv sys reports = ktpd.reapChildren sys reports := by
    unfold waitForActionsEv
    dsimp only
    rw [(hnone hexec).1]
  rw [hreaped]
  exact ⟨.of_still hstill (htoClient.trans (List.append_nil _).symm) (List.forall_mem_nil _),
    hstate⟩

/-- An event of the streams tells nothing of the path. -/
theorem poll_tells {fd : Fd} {revents : Revents}
    (h : ktpd.step (.poll fd revents, sys) = some ktpd') :
    Untold ktpd ktpd' ∧ ktpd'.state = ktpd.state := by
  obtain ⟨out, houtputs⟩ := Channel.poll_outputs h
  exact ⟨.of_still (poll_still h) houtputs.toClient fun msg hmsg => (houtputs.stream msg hmsg).1.bare,
    houtputs.state⟩

/-- An event of the server tells of the path only if a command is running. -/
theorem step_tells {event : Event} (hevent : ∀ msg, event ≠ .dispatch msg)
    (h : ktpd.step (event, sys) = some ktpd') :
    (Untold ktpd ktpd' ∨ Told ktpd ktpd') ∧
      (ktpd.exec = none → Untold ktpd ktpd' ∧ ktpd'.state = ktpd.state) := by
  cases event with
  | dispatch msg => exact absurd rfl (hevent msg)
  | sigchld reports =>
    cases h
    exact ⟨waitForActionsEv_tells sys ktpd reports, waitForActionsEv_none sys reports⟩
  | poll fd revents => exact ⟨.inl (poll_tells h).1, fun _ => poll_tells h⟩

/-- A message that is not taken for an authorization. -/
theorem dispatch_tells {msg : KtpMsg} (hlive : Live ktpd) (hauth : msg.cmd ≠ .auth)
    (h : ktpd.dispatch sys msg = some ktpd') : Untold ktpd ktpd' ∨ Told ktpd ktpd' := by
  have hnone : ktpd.state = .idle → ktpd.exec = none := by
    intro hidle
    cases hexec : ktpd.exec with
    | none => rfl
    | some exec =>
      have hwait := hlive.mp (by rw [hexec]; rfl)
      rw [hidle] at hwait
      cases hwait
  cases dispatch_handler h with
  | auth hkind => exact absurd hkind hauth
  | cmd hkind hidle h => exact processCmd_tells (hnone hidle) h
  | completion hkind hidle h =>
    left
    obtain ⟨out, ack, hsent, -, hout, hcmd, -⟩ := (processCompletion_answered h).toClient
    rw [hout (by decide), List.nil_append] at hsent
    refine .of_still ?_ hsent (List.forall_mem_singleton.mpr (bare_of_ne ?_ ?_))
    · unfold processCompletion at h
      split at h
      · cases h
        exact .of_eq rfl rfl
      · obtain ⟨r, hparse, rfl⟩ := Option.map_eq_some_iff.mp h
        have hpath := Ksession.parseForHint_path env.scheme sys.V hparse
        dsimp only
        split
        · exact .of_eq rfl hpath
        · obtain ⟨exit, exit', hdone⟩ := noteDone_spec (ktpd.withSession r.2) {}
          rw [hdone]
          exact .of_eq rfl ((Ksession.completionLoop_path env.scheme sys.V env.getlines _ _ _
            _).trans hpath)
    · rw [hcmd]
      decide
    · rw [hcmd]
      decide
  | help hkind hidle h =>
    left
    obtain ⟨out, ack, hsent, -, hout, hcmd, -⟩ := (processHelp_answered h).toClient
    rw [hout (by decide), List.nil_append] at hsent
    refine .of_still ?_ hsent (List.forall_mem_singleton.mpr (bare_of_ne ?_ ?_))
    · unfold processHelp at h
      split at h
      · cases h
        exact .of_eq rfl rfl
      · obtain ⟨r, hparse, rfl⟩ := Option.map_eq_some_iff.mp h
        have hpath := Ksession.parseForHint_path env.scheme sys.V hparse
        dsimp only
        split
        · exact .of_eq rfl hpath
        · obtain ⟨exit, exit', hdone⟩ := noteDone_spec (ktpd.withSession r.2) {}
          rw [hdone]
          exact .of_eq rfl ((Ksession.helpLoop_path env.scheme sys.V env.getlines _ _ _
            _).trans hpath)
    · rw [hcmd]
      decide
    · rw [hcmd]
      decide
  | illegal r err => exact .inl (.send (.refl ktpd) rfl (ofError_bare _ _))
  | stdin =>
    exact .inl (.of_silent (processStdin_still sys ktpd msg) (processStdin_silent sys ktpd msg))
  | stdinClose =>
    exact .inl (.of_silent (processStdinClose_still sys ktpd) (processStdinClose_silent sys ktpd))
  | stdoutClose =>
    exact .inl (.of_silent (processStdoutClose_closes ktpd).still
      (processStdoutClose_closes ktpd).silent)
  | stderrClose =>
    exact .inl (.of_silent (processStderrClose_closes ktpd).still
      (processStderrClose_closes ktpd).silent)
  | notification hkind =>
    have hstill := processNotification_still ktpd msg
    obtain ⟨session, hsession⟩ := processNotification_spec ktpd msg
    rw [hsession] at hstill ⊢
    exact .inl (.of_still hstill (List.append_nil _).symm (List.forall_mem_nil _))
  | unsupported err => exact .inl (.send (.refl ktpd) rfl (ofError_bare _ _))
  | ignored => exact .inl (.refl ktpd)

/-- Before the authorization nothing else changes the state or tells of the path. -/
theorem dispatch_unauthorized {msg : KtpMsg} (hstate : ktpd.state = .unauthorized)
    (hauth : msg.cmd ≠ .auth) (h : ktpd.dispatch sys msg = some ktpd') :
    ktpd'.state = .unauthorized ∧ Untold ktpd ktpd' := by
  have hidle : ktpd.state ≠ .idle := by
    rw [hstate]
    decide
  have hwait : ktpd.state ≠ .waitForProcess := by
    rw [hstate]
    decide
  cases dispatch_handler h with
  | auth hkind => exact absurd hkind hauth
  | cmd _ h => exact absurd h hidle
  | completion _ h => exact absurd h hidle
  | help _ h => exact absurd h hidle
  | stdin _ hstate => exact absurd hstate hwait
  | stdinClose _ hstate => exact absurd hstate hwait
  | stdoutClose _ hstate => exact absurd hstate hwait
  | stderrClose _ hstate => exact absurd hstate hwait
  | notification =>
    have hstill := processNotification_still ktpd msg
    obtain ⟨session, hsession⟩ := processNotification_spec ktpd msg
    rw [hsession] at hstill ⊢
    exact ⟨hstate, .of_still hstill (List.append_nil _).symm (List.forall_mem_nil _)⟩
  | illegal => exact ⟨hstate, .send (.refl ktpd) rfl (ofError_bare _ _)⟩
  | unsupported => exact ⟨hstate, .send (.refl ktpd) rfl (ofError_bare _ _)⟩
  | ignored => exact ⟨hstate, .refl ktpd⟩

end Klish.Ktpd
