import Klish.ClientBatch
import Klish.KtpdDispatch

/-!
# The return code of a command at both ends

The server sends the return code of a pipeline in 8 bits, or the error flag, or neither. The client
reads it with a default for each case.
-/

namespace Klish

namespace KtpMsg

/-- The values of all parameters of a type. -/
def values (msg : KtpMsg) (type : KtpParam) : List Bytes :=
  msg.params.filterMap fun p => if p.1 = type then some p.2 else none

variable (msg : KtpMsg) (type : KtpParam)

theorem param_eq_head : msg.param type = (msg.values type).head? := by
  unfold param values
  induction msg.params with
  | nil => rfl
  | cons p params ih =>
    by_cases hp : p.1 = type
    · simp [hp]
    · simpa [hp] using ih

theorem values_addParam (type' : KtpParam) (data : Bytes) :
    (msg.addParam type' data).values type = msg.values type ++ if type' = type then [data] else [] := by
  unfold addParam values
  rw [List.filterMap_append]
  congr 1
  by_cases h : type' = type
  · simp [h]
  · simp [h]

theorem values_addStr {type' : KtpParam} (h : type' ≠ type) (s : Option String) :
    (msg.addStr type' s).values type = msg.values type := by
  cases s with
  | none => rfl
  | some s =>
    show (msg.addParam type' (cbytes s)).values type = _
    rw [values_addParam, if_neg h, List.append_nil]

end KtpMsg

namespace Ktpd

variable {env : KtpdEnv} {ktpd ktpd' : Ktpd env} {sys : KtpdSys} {ack : KtpMsg}

/-- The message that `sendAck` sends. -/
def fullAck (ktpd : Ktpd env) (sys : KtpdSys) (ack : KtpMsg) (hotkeys : Bool) : KtpMsg :=
  let prompt := ktpd.generatePrompt sys
  let ack := ack.addStr .prompt prompt.1
  if hotkeys then (ktpd.withSession prompt.2).addHotkeysToMsg ack else ack

theorem sendAck_getLast (ktpd : Ktpd env) (sys : KtpdSys) (ack : KtpMsg) (hotkeys : Bool) :
    (ktpd.sendAck sys ack hotkeys).toClient.getLast? = some (ktpd.fullAck sys ack hotkeys) := by
  show (ktpd.toClient ++ [ktpd.fullAck sys ack hotkeys]).getLast? = _
  rw [List.getLast?_append, List.getLast?_singleton]
  rfl

theorem foldl_hotkeys (hotkeys : List Khotkey) (msg : KtpMsg) (type : KtpParam) :
    (hotkeys.foldl (fun msg hotkey => msg.addParam .hotkey (hotkeyData hotkey)) msg).values type =
      msg.values type ++ if type = .hotkey then hotkeys.map hotkeyData else [] := by
  induction hotkeys generalizing msg with
  | nil => simp
  | cons hotkey hotkeys ih =>
    rw [List.foldl_cons, ih, KtpMsg.values_addParam, List.append_assoc]
    by_cases h : type = .hotkey
    · simp [h]
    · simp [h, Ne.symm h]

/-- The prompt and the hotkeys change no other parameter. -/
theorem values_fullAck {type : KtpParam} (hprompt : type ≠ .prompt) (hhotkey : type ≠ .hotkey)
    (hotkeys : Bool) : (ktpd.fullAck sys ack hotkeys).values type = ack.values type := by
  unfold fullAck
  dsimp only
  split
  · unfold addHotkeysToMsg
    rw [foldl_hotkeys, if_neg hhotkey, List.append_nil, KtpMsg.values_addStr _ _ hprompt.symm]
  · rw [KtpMsg.values_addStr _ _ hprompt.symm]

theorem retcodes_fullAck (hotkeys : Bool) :
    (ktpd.fullAck sys ack hotkeys).values .retcode = ack.values .retcode :=
  @values_fullAck env ktpd sys ack .retcode (by decide) (by decide) hotkeys

theorem fullAck_status (hotkeys : Bool) : (ktpd.fullAck sys ack hotkeys).status = ack.status := by
  unfold fullAck
  dsimp only
  split
  · rw [(addHotkeysToMsg_spec _ _).2, KtpMsg.addStr_status]
  · rw [KtpMsg.addStr_status]

theorem fullAck_cmd (hotkeys : Bool) : (ktpd.fullAck sys ack hotkeys).cmd = ack.cmd := by
  unfold fullAck
  dsimp only
  split
  · rw [(addHotkeysToMsg_spec _ _).1, KtpMsg.addStr_cmd]
  · rw [KtpMsg.addStr_cmd]

/-- What has become of a command when it is answered for good. -/
inductive CmdEnd where
  /-- The line has no content. -/
  | empty
  /-- The line was not parsed, or its pipeline was not started. -/
  | failed
  | done (exec : Kexec)

/-- The end of a pipeline, if it has one. -/
def endOf (exec : Kexec) : Option CmdEnd :=
  if (Kexec.kexecRetcode exec).isSome then some (.done exec) else none

/-- The end of a command that is answered at once. -/
def processEnd (ktpd : Ktpd env) (sys : KtpdSys) (msg : KtpMsg) : Option CmdEnd :=
  match (msg.strParam .line).filter env.hasContent with
  | none => some .empty
  | some line =>
    (Ksession.parseForExec env.scheme sys.V env.argvParse ktpd.world.session line sys.fuel).bind
      fun r =>
        match r.result with
        | .error _ => some .failed
        | .ok exec =>
          match Kexec.kexecExec env.scheme env.kexec { exec with dryRun := msg.status.dryRun }
              { ktpd.world with session := r.session } with
          | none => some .failed
          | some (exec, _) => endOf exec

/-- The end of the command that a callback answers for good. -/
def cmdEnd (ktpd : Ktpd env) (sys : KtpdSys) : Event → Option CmdEnd
  | .dispatch msg =>
    if msg.cmd = .cmd ∧ ktpd.state = .idle then ktpd.processEnd sys msg else none
  | .sigchld reports => (ktpd.reapChildren sys reports).exec.bind fun exec => endOf exec.toKexec
  | .poll .. => none

namespace CmdEnd

/-- The command was empty, or its `kexec_retcode` is 0. -/
def Succeeded : CmdEnd → Prop
  | empty => True
  | failed => False
  | done exec => Kexec.kexecRetcode exec = some 0

/-- The first return code of a stage that is not 0 is not a multiple of 256. -/
def Fits : CmdEnd → Prop
  | empty | failed => True
  | done exec => ∀ retcode, (exec.contexts.map Kcontext.retcode).find? (· ≠ 0) = some retcode →
      ¬ (256 : ℤ) ∣ retcode

/-- What the parameters and the flags of the answer say. -/
def Reported (ack : KtpMsg) : CmdEnd → Prop
  | empty => ack.values .retcode = [] ∧ ack.status.error = false
  | failed => ack.values .retcode = [] ∧ ack.status.error = true
  | done exec => ∃ retcode, Kexec.kexecRetcode exec = some retcode ∧
      ack.values .retcode = [[UInt8.ofNat (retcode % 256).toNat]]

end CmdEnd

section Exec

variable {line : String} {dryRun : Bool} {r : Ksession.ForExec} {exec exec' : Kexec} {world : World}
  {retcode : ℤ}

/-- A line that is not parsed. -/
theorem sessionExec_error {error : Option String}
    (hparse : Ksession.parseForExec env.scheme sys.V env.argvParse ktpd.world.session line
      sys.fuel = some r) (hresult : r.result = .error error) :
    ktpd.sessionExec sys line dryRun = some ⟨false, -1, error, false, ktpd.withSession r.session⟩ := by
  unfold sessionExec
  rw [hparse, Option.map_some]
  dsimp only
  rw [hresult]

/-- A pipeline that can't be started. -/
theorem sessionExec_notStarted
    (hparse : Ksession.parseForExec env.scheme sys.V env.argvParse ktpd.world.session line
      sys.fuel = some r) (hresult : r.result = .ok exec)
    (hexec : Kexec.kexecExec env.scheme env.kexec { exec with dryRun }
      { ktpd.world with session := r.session } = none) :
    ktpd.sessionExec sys line dryRun = some ⟨false, -1, none, false, ktpd.withSession r.session⟩ := by
  unfold sessionExec
  rw [hparse, Option.map_some]
  dsimp only
  rw [hresult]
  dsimp only [withSession]
  rw [hexec]

variable (ktpd) in
/-- A pipeline that is done at once. -/
theorem sessionExec_done
    (hparse : Ksession.parseForExec env.scheme sys.V env.argvParse ktpd.world.session line
      sys.fuel = some r) (hresult : r.result = .ok exec)
    (hexec : Kexec.kexecExec env.scheme env.kexec { exec with dryRun }
      { ktpd.world with session := r.session } = some (exec', world))
    (hretcode : Kexec.kexecRetcode exec' = some retcode) :
    ∃ viewWasChanged after, ktpd.sessionExec sys line dryRun =
      some ⟨true, retcode, none, viewWasChanged, after⟩ ∧ after.exec = ktpd.exec := by
  unfold sessionExec
  rw [hparse, Option.map_some]
  dsimp only
  rw [hresult]
  dsimp only [withSession]
  rw [hexec]
  dsimp only
  rw [hretcode]
  refine ⟨_, _, rfl, ?_⟩
  generalize KtpdExec.mk exec' [] sys.printedOut sys.printedErr [] = run
  obtain ⟨-, -, out₁, hsends₁, -⟩ :=
    getStream_spec { ktpd with world } sys run none false
  generalize ({ ktpd with world } : Ktpd env).getStream sys run none false = out at *
  obtain ⟨-, -, out₂, hsends₂, -⟩ := getStream_spec out.2 sys out.1 none true
  generalize out.2.getStream sys out.1 none true = err at *
  obtain ⟨-, hsends₃⟩ := sessionLog_spec err.2 sys err.1
  exact ((hsends₁.trans hsends₂).trans hsends₃).exec

end Exec

theorem noteDone_onlyExit (ktpd : Ktpd env) :
    ∃ exit, (ktpd.noteDone {}).2 = { exit } := by
  obtain ⟨exit, exit', hdone⟩ := noteDone_spec ktpd {}
  exact ⟨exit', by rw [hdone]⟩

theorem values_addRetcode (msg : KtpMsg) (retcode : ℤ) :
    (addRetcode msg retcode).values .retcode =
      msg.values .retcode ++ [[UInt8.ofNat (retcode % 256).toNat]] := by
  unfold addRetcode
  rw [KtpMsg.values_addParam, if_pos rfl]

theorem endOf_eq_some {exec : Kexec} {o : CmdEnd} (h : endOf exec = some o) :
    o = .done exec ∧ ∃ retcode, Kexec.kexecRetcode exec = some retcode := by
  unfold endOf at h
  split at h
  · rename_i hsome
    cases h
    exact ⟨rfl, Option.isSome_iff_exists.mp hsome⟩
  · exact absurd h nofun

/-- The answer of a command that is done. -/
theorem reported_done {exec : Kexec} {retcode : ℤ} {exit hotkeys : Bool}
    (h : Kexec.kexecRetcode exec = some retcode) :
    (ktpd.fullAck sys (addRetcode (.preform .cmdAck { exit }) retcode) hotkeys).finalAck = true ∧
      CmdEnd.Reported (ktpd.fullAck sys (addRetcode (.preform .cmdAck { exit }) retcode) hotkeys)
        (.done exec) := by
  refine ⟨?_, retcode, h, ?_⟩
  · simp [KtpMsg.finalAck, fullAck_cmd, fullAck_status, addRetcode]
  · rw [retcodes_fullAck, values_addRetcode]
    rfl

/-- The answer to a command that is done at once tells what has become of it. -/
theorem processCmd_reported {msg : KtpMsg} {o : CmdEnd} (hend : ktpd.processEnd sys msg = some o)
    (h : ktpd.processCmd sys msg = some ktpd') :
    ∃ ack, ktpd'.toClient.getLast? = some ack ∧ ack.finalAck = true ∧ o.Reported ack := by
  unfold processEnd at hend
  unfold processCmd at h
  cases hline : (msg.strParam .line).filter env.hasContent with
  | none =>
    rw [hline] at hend h
    cases hend
    cases h
    refine ⟨_, sendAck_getLast _ _ _ _, ?_, ?_, ?_⟩
    · simp [KtpMsg.finalAck, fullAck_cmd, fullAck_status]
    · rw [retcodes_fullAck]
      rfl
    · rw [fullAck_status]
      rfl
  | some line =>
    rw [hline] at hend h
    dsimp only at hend h
    obtain ⟨r, hparse, hr⟩ := Option.bind_eq_some_iff.mp hend
    -- A line that is not parsed and a pipeline that is not started have the same answer.
    have hfailed : ∀ error : Option String, ({ ktpd with exec := none } : Ktpd env).sessionExec sys
        line msg.status.dryRun = some ⟨false, -1, error, false,
          { ktpd with exec := none }.withSession r.session⟩ →
        ∃ ack, ktpd'.toClient.getLast? = some ack ∧ ack.finalAck = true ∧
          CmdEnd.Reported ack .failed := by
      intro error hexec
      rw [hexec] at h
      cases h
      refine ⟨_, sendAck_getLast _ _ _ _, ?_, ?_, ?_⟩
      · simp [KtpMsg.finalAck, fullAck_cmd, fullAck_status]
      · rw [retcodes_fullAck, if_neg Bool.false_ne_true, KtpMsg.values_addStr _ _ (by decide)]
        rfl
      · rw [fullAck_status, if_neg Bool.false_ne_true, KtpMsg.addStr_status]
    cases hresult : r.result with
    | error error =>
      rw [hresult] at hr
      cases hr
      exact hfailed error (sessionExec_error hparse hresult)
    | ok exec =>
      rw [hresult] at hr
      dsimp only at hr
      cases hexec : Kexec.kexecExec env.scheme env.kexec { exec with dryRun := msg.status.dryRun }
          { ktpd.world with session := r.session } with
      | none =>
        rw [hexec] at hr
        cases hr
        exact hfailed none (sessionExec_notStarted hparse hresult hexec)
      | some p =>
        rw [hexec] at hr
        obtain ⟨rfl, retcode, hretcode⟩ := endOf_eq_some hr
        obtain ⟨view, after, hsession, hnone⟩ := sessionExec_done
          { ktpd with exec := none } hparse hresult hexec hretcode
        rw [hsession] at h
        obtain ⟨exit, hexit⟩ := noteDone_onlyExit after
        simp only [Option.map_some, hnone, Option.some.injEq] at h
        subst h
        refine ⟨_, sendAck_getLast _ _ _ _, ?_⟩
        rw [if_pos trivial, hexit]
        exact reported_done hretcode

/-- The answer of a callback tells what has become of the command. -/
theorem step_reported {event : Event} {o : CmdEnd} (hend : ktpd.cmdEnd sys event = some o)
    (h : ktpd.step (event, sys) = some ktpd') :
    ∃ ack, ktpd'.toClient.getLast? = some ack ∧ ack.finalAck = true ∧ o.Reported ack := by
  cases event with
  | dispatch msg =>
    dsimp only [cmdEnd] at hend
    split at hend
    · rename_i hcmd
      apply processCmd_reported hend
      have hdispatch : ktpd.dispatch sys msg = some ktpd' := h
      unfold dispatch at hdispatch
      rw [hcmd.1] at hdispatch
      dsimp only at hdispatch
      rwa [if_pos hcmd.2] at hdispatch
    · exact absurd hend nofun
  | poll => exact absurd hend nofun
  | sigchld reports =>
    obtain ⟨exec, hexec, hexecEnd⟩ := Option.bind_eq_some_iff.mp hend
    obtain ⟨rfl, retcode, hretcode⟩ := endOf_eq_some hexecEnd
    cases h
    unfold waitForActionsEv
    dsimp only
    rw [hexec]
    dsimp only
    rw [hretcode]
    dsimp only [finishCommand]
    obtain ⟨exit, hexit⟩ := noteDone_onlyExit _
    refine ⟨_, sendAck_getLast _ _ _ _, ?_⟩
    rw [hexit]
    exact reported_done hretcode

end Ktpd

/-- What the client makes of an answer. -/
theorem Ktp.dispatch_retcode {ktp : Ktp} {ack : KtpMsg} (hstate : ktp.state = .waitForCmd)
    (hack : ack.finalAck = true) : (ktp.dispatch ack).cmdRetcode = ack.ackRetcode := by
  obtain ⟨hcmd, hfinal⟩ := Bool.and_eq_true_iff.mp hack
  unfold dispatch
  rw [beq_iff_eq.mp hcmd]
  refine (congrArg cmdRetcode (if_pos hstate)).trans ?_
  unfold processCmdAck
  rw [(Bool.not_eq_eq_eq_not.mp hfinal).trans Bool.not_true]
  rfl

namespace Ktpd

variable {env : KtpdEnv} {ktpd ktpd' : Ktpd env} {sys : KtpdSys}

/-- 8 bits of the return code are 0 if and only if it is a multiple of 256. -/
theorem ackRetcode_eq {ack : KtpMsg} {retcode : ℤ}
    (h : ack.values .retcode = [[UInt8.ofNat (retcode % 256).toNat]]) :
    ack.ackRetcode = retcode % 256 := by
  unfold KtpMsg.ackRetcode Ktp.msgRetcode
  rw [KtpMsg.param_eq_head, h]
  have hpos : 0 ≤ retcode % 256 := Int.emod_nonneg _ (by decide)
  have hlt : retcode % 256 < 256 := Int.emod_lt_of_pos _ (by decide)
  simp
  omega

theorem ackRetcode_none {ack : KtpMsg} (h : ack.values .retcode = []) :
    ack.ackRetcode = if ack.status.error then -1 else 0 := by
  unfold KtpMsg.ackRetcode Ktp.msgRetcode
  rw [KtpMsg.param_eq_head, h]
  rfl

/-- The client and the server agree on whether a command has succeeded if and only if the return
code that is sent is not cut to 0. -/
theorem retcode_agrees_iff {ktp : Ktp} {event : Event} {o : CmdEnd}
    (hstate : ktp.state = .waitForCmd) (hend : ktpd.cmdEnd sys event = some o)
    (h : ktpd.step (event, sys) = some ktpd') :
    ∃ ack, ktpd'.toClient.getLast? = some ack ∧ ack.finalAck = true ∧
      (((ktp.dispatch ack).cmdRetcode = 0 ↔ o.Succeeded) ↔ o.Fits) := by
  obtain ⟨ack, hlast, hack, hreported⟩ := step_reported hend h
  refine ⟨ack, hlast, hack, ?_⟩
  rw [Ktp.dispatch_retcode hstate hack]
  cases o with
  | empty =>
    rw [ackRetcode_none hreported.1, hreported.2]
    exact iff_of_true (iff_of_true rfl trivial) trivial
  | failed =>
    rw [ackRetcode_none hreported.1, hreported.2]
    exact iff_of_true (iff_of_false (by decide) id) trivial
  | done exec =>
    obtain ⟨retcode, hretcode, hvalues⟩ := hreported
    rw [ackRetcode_eq hvalues]
    show ((retcode % 256 = 0 ↔ Kexec.kexecRetcode exec = some 0) ↔ _)
    rw [hretcode, Option.some.injEq, ← Int.dvd_iff_emod_eq_zero]
    have hfirst : ((exec.contexts.map Kcontext.retcode).find? (· ≠ 0)).getD 0 = retcode := by
      unfold Kexec.kexecRetcode at hretcode
      split at hretcode
      · exact absurd hretcode nofun
      · split at hretcode
        · exact absurd hretcode nofun
        · exact Option.some.inj hretcode
    unfold CmdEnd.Fits
    dsimp only
    cases hfind : (exec.contexts.map Kcontext.retcode).find? (· ≠ 0) with
    | none =>
      rw [hfind] at hfirst
      rw [← hfirst]
      exact iff_of_true (iff_of_true (Int.dvd_zero 256) rfl) nofun
    | some first =>
      rw [hfind] at hfirst
      have hne : retcode ≠ 0 := by
        rw [← hfirst]
        simpa using List.find?_some hfind
      constructor
      · intro hiff r hr hdvd
        obtain rfl : first = r := Option.some.inj hr
        exact hne (hiff.mp (hfirst ▸ hdvd))
      · intro hfits
        refine iff_of_false (fun hdvd => hfits first rfl ?_) hne
        rw [Option.getD_some] at hfirst
        exact hfirst ▸ hdvd

section Samples

/-- The command `x` is a symbol that the server runs itself. -/
def sampleSymBody : BodyId → Kbody
  | 2 => { Ksession.sampleBody 2 with
    actions := [{ Kaction.new with sym := some ⟨"sym", .undefined, .yes, true⟩ }] }
  | b => Ksession.sampleBody b

/-- A server whose symbol returns the code. -/
def symEnv (retcode : ℤ) : KtpdEnv :=
  { sampleEnv with
    scheme := { Ksession.sampleScheme with body := sampleSymBody }
    kexec := { sampleEnv.kexec with symResult := fun _ _ _ => retcode } }

/-- A client has been authorized. -/
def symServer (retcode : ℤ) : Ktpd (symEnv retcode) :=
  { (Ktpd.new (fun _ => none) sampleWorld : Ktpd (symEnv retcode)) with state := .idle }

/-- A client that waits for the command. -/
def waitingClient : Ktp := (Ktp.new true true).sessionCmd "x" false

end Samples

/-- The end of the sample command. -/
theorem symServer_end (retcode : ℤ) : ∃ exec ktpd',
    (symServer retcode).cmdEnd (sampleSys 0) (.dispatch sampleCmd) = some (.done exec) ∧
      exec.contexts.map Kcontext.retcode = [retcode] ∧ Kexec.kexecRetcode exec = some retcode ∧
      (symServer retcode).step (.dispatch sampleCmd, sampleSys 0) = some ktpd' := by
  refine ⟨_, _, rfl, rfl, ?_, rfl⟩
  show some (([retcode].find? (· ≠ 0)).getD 0) = some retcode
  by_cases h : retcode = 0
  · simp [h]
  · simp [h]

/-- A symbol that returns 1. -/
theorem retcode_agrees_one : ∃ exec ktpd' ack,
    (symServer 1).step (.dispatch sampleCmd, sampleSys 0) = some ktpd' ∧
      ktpd'.toClient.getLast? = some ack ∧
      (((waitingClient.dispatch ack).cmdRetcode = 0 ↔ (CmdEnd.done exec).Succeeded) ↔
        (CmdEnd.done exec).Fits) := by
  obtain ⟨exec, ktpd', hend, -, -, hstep⟩ := symServer_end 1
  obtain ⟨ack, hlast, -, hiff⟩ := retcode_agrees_iff (rfl : waitingClient.state = .waitForCmd) hend hstep
  exact ⟨exec, ktpd', ack, hstep, hlast, hiff⟩

/-- A symbol that returns 256 has failed, and the client takes it for a success. -/
theorem retcode_disagrees :
    ¬ ∀ (env : KtpdEnv) (ktpd ktpd' : Ktpd env) (sys : KtpdSys) (ktp : Ktp) (event : Event)
      (o : CmdEnd), ktp.state = .waitForCmd → ktpd.cmdEnd sys event = some o →
        ktpd.step (event, sys) = some ktpd' →
          ∃ ack, ktpd'.toClient.getLast? = some ack ∧ ack.finalAck = true ∧
            ((ktp.dispatch ack).cmdRetcode = 0 ↔ o.Succeeded) := by
  intro h
  obtain ⟨exec, ktpd', hend, -, hretcode, hstep⟩ := symServer_end 256
  obtain ⟨ack, hlast, hack, hiff⟩ := h _ _ ktpd' _ waitingClient _ _ rfl hend hstep
  obtain ⟨ack', hlast', -, retcode, hretcode', hvalues⟩ := step_reported hend hstep
  obtain rfl : ack = ack' := Option.some.inj (hlast.symm.trans hlast')
  obtain rfl : 256 = retcode := Option.some.inj (hretcode.symm.trans hretcode')
  have hzero : (waitingClient.dispatch ack).cmdRetcode = 0 := by
    rw [Ktp.dispatch_retcode rfl hack, ackRetcode_eq hvalues]
    rfl
  have hsucceeded : Kexec.kexecRetcode exec = some 0 := hiff.mp hzero
  exact absurd (hretcode.symm.trans hsucceeded) (by decide)

end Ktpd

end Klish
