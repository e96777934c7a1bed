import Klish.KtpChannel

/-!
# What the server does with a request

A callback of the server takes a request or none, and leaves its token in the state of the session
or in an answer.
-/

namespace Klish.Channel

variable {env : KtpdEnv}

/-- What a callback of the server does with the tokens. It takes `request` and sends `out`. -/
structure Serves (request : Option KtpRequest) (ktpd ktpd' : Ktpd env) (out : List KtpMsg) :
    Prop where
  toClient : ktpd'.toClient = ktpd.toClient ++ out
  tokens : ∀ r, busy r ktpd' + (out.filterMap KtpMsg.answer).count r =
    busy r ktpd + request.toList.count r
  live : Ktpd.Live ktpd → Ktpd.Live ktpd'
  unfinished : Ktpd.Unfinished ktpd → Ktpd.Unfinished ktpd'
  ofCmd : ∀ msg ∈ out, msg.OfCmd → ktpd.exec.isSome = true ∨ request = some .cmd
  order : AnswerLast out
  whole : ∀ msg ∈ out, Whole msg

variable {ktpd ktpd' : Ktpd env} {out : List KtpMsg} {msg : KtpMsg} {r : KtpRequest}

theorem request_eq_some : msg.request = some r ↔ msg.cmd = r.kind := by
  unfold KtpMsg.request
  constructor
  · intro h
    split at h <;> cases h <;> assumption
  · intro h
    rw [h]
    cases r <;> rfl

theorem answer_eq_some :
    msg.answer = some r ↔ msg.cmd = r.ack ∧ msg.status.incompleted = false := by
  unfold KtpMsg.answer
  constructor
  · intro h
    split at h
    · cases h
    · rename_i hinc
      refine ⟨?_, by simpa using hinc⟩
      split at h <;> cases h <;> assumption
  · rintro ⟨hcmd, hinc⟩
    rw [hcmd, hinc]
    cases r <;> rfl

theorem answer_eq_none (h : ∀ r : KtpRequest, msg.cmd ≠ r.ack) : msg.answer = none := by
  cases hanswer : msg.answer with
  | none => rfl
  | some r => exact absurd (answer_eq_some.mp hanswer).1 (h r)

/-- An answer to another request is not about a command. -/
theorem eq_cmd_of_ofCmd (hack : msg.cmd = r.ack) (h : msg.OfCmd) : r = .cmd := by
  unfold KtpMsg.OfCmd at h
  rw [hack] at h
  cases r
  case cmd => rfl
  all_goals exact absurd h (by decide)

theorem whole_of_final (h : msg.status.incompleted = false) : Whole msg := fun hinc => by
  rw [h] at hinc
  cases hinc

theorem whole_of_ne (h : ∀ r : KtpRequest, msg.cmd ≠ r.ack) : Whole msg :=
  fun _ r hr => absurd hr (h r)

theorem stream_ne_ack (h : Ktpd.IsStream msg) (r : KtpRequest) : msg.cmd ≠ r.ack := by
  rcases h with h | h <;> rw [h] <;> cases r <;> decide

theorem notification_ne_ack (h : msg.cmd = .notification) (r : KtpRequest) : msg.cmd ≠ r.ack := by
  rw [h]
  cases r <;> decide

/-- Messages that answer no request. -/
theorem filterMap_answer_eq_nil (h : ∀ msg ∈ out, ∀ r : KtpRequest, msg.cmd ≠ r.ack) :
    out.filterMap KtpMsg.answer = [] := by
  rw [List.filterMap_eq_nil_iff]
  exact fun msg hmsg => answer_eq_none (h msg hmsg)

theorem answerLast_of_ne (h : ∀ msg ∈ out, ∀ r : KtpRequest, msg.cmd ≠ r.ack) :
    AnswerLast out := by
  apply List.pairwise_of_forall_mem_list
  intro first hfirst msg _ hanswer
  rw [answer_eq_none (h first hfirst)] at hanswer
  cases hanswer

/-- Output and then an answer. -/
theorem answerLast_append {ack : KtpMsg} (h : ∀ msg ∈ out, Ktpd.IsStream msg) :
    AnswerLast (out ++ [ack]) := by
  refine List.pairwise_append.mpr ⟨answerLast_of_ne fun msg hmsg => stream_ne_ack (h msg hmsg),
    List.pairwise_singleton _ _, fun first hfirst msg _ hanswer => ?_⟩
  rw [answer_eq_none (stream_ne_ack (h first hfirst))] at hanswer
  cases hanswer

namespace Serves

/-- A callback that answers nothing, and that only sends what is no answer. -/
theorem of_ne (htoClient : ktpd'.toClient = ktpd.toClient ++ out)
    (hstate : ktpd'.state = ktpd.state) (hexec : ktpd'.exec.isSome = ktpd.exec.isSome)
    (hunfinished : Ktpd.Unfinished ktpd → Ktpd.Unfinished ktpd')
    (hne : ∀ msg ∈ out, ∀ r : KtpRequest, msg.cmd ≠ r.ack)
    (hofCmd : ∀ msg ∈ out, msg.OfCmd → ktpd.exec.isSome = true) : Serves none ktpd ktpd' out where
  toClient := htoClient
  tokens r := by simp [busy, hstate, filterMap_answer_eq_nil hne]
  live hlive := hlive.of_eq hexec hstate
  unfinished := hunfinished
  ofCmd msg hmsg h := .inl (hofCmd msg hmsg h)
  order := answerLast_of_ne hne
  whole msg hmsg := whole_of_ne (hne msg hmsg)

theorem of_silent (h : Ktpd.Silent ktpd ktpd') : Serves none ktpd ktpd' [] :=
  .of_ne (by rw [h.toClient, List.append_nil]) h.state h.exec
    (fun hunfinished => hunfinished.of_eq h.kexec) (by simp) (by simp)

theorem of_answered (h : Ktpd.Answered ktpd ktpd' r.ack) :
    ∃ out, Serves (some r) ktpd ktpd' out := by
  obtain ⟨out, ack, htoClient, hstream, hout, hcmd, hfinal⟩ := h.toClient
  have hne : ∀ msg ∈ out, ∀ r : KtpRequest, msg.cmd ≠ r.ack :=
    fun msg hmsg => stream_ne_ack (hstream msg hmsg)
  have hanswer : ack.answer = some r := answer_eq_some.mpr ⟨hcmd, hfinal⟩
  have hbusy : ∀ r', busy r' ktpd' = busy r' ktpd := by
    intro r'
    rcases h.state with hstate | ⟨hstate, hidle⟩
    · rw [busy, busy, hstate]
    · simp [busy, hstate, hidle]
  refine ⟨out ++ [ack], htoClient, fun r' => ?_, h.live,
    fun hunfinished => hunfinished.of_eq (by rw [h.exec]), fun msg hmsg hofCmd => ?_,
    answerLast_append hstream, fun msg hmsg => ?_⟩
  · rw [hbusy, List.filterMap_append, filterMap_answer_eq_nil hne]
    simp [hanswer]
  · right
    by_contra hr
    have hack : r.ack ≠ .cmdAck := fun hack => hr (by cases r <;> first | rfl | cases hack)
    rw [hout hack, List.nil_append, List.mem_singleton] at hmsg
    subst hmsg
    exact hr (congrArg some (eq_cmd_of_ofCmd hcmd hofCmd))
  · rcases List.mem_append.mp hmsg with hmsg | hmsg
    · exact whole_of_ne (hne msg hmsg)
    · obtain rfl := List.mem_singleton.mp hmsg
      exact whole_of_final hfinal

/-- The first answer to a command that goes on. -/
theorem of_scheduled {exec : KtpdExec} {ack : KtpMsg} (h : Ktpd.Scheduled ktpd ktpd' exec)
    (hlive : Ktpd.Live ktpd) (hidle : ktpd.exec = none)
    (htoClient : ktpd'.toClient = ktpd.toClient ++ [ack]) (hack : ack.cmd = .cmdAck)
    (hinc : ack.status.incompleted = true) : Serves (some .cmd) ktpd ktpd' [ack] where
  toClient := htoClient
  tokens r := by
    have hstate : ktpd.state ≠ .waitForProcess := fun hstate => by
      have hsome := hlive.mpr hstate
      rw [hidle] at hsome
      cases hsome
    have hanswer : ack.answer = none := by simp [KtpMsg.answer, hinc]
    simp only [busy, h.state, hstate, hanswer, List.filterMap_cons, List.filterMap_nil]
    cases r <;> decide
  live _ := by simp [Ktpd.Live, h.running, h.state]
  unfinished _ exec' hexec' := by
    obtain rfl := Option.some.inj (h.running.symm.trans hexec')
    exact h.unfinished
  ofCmd _ _ _ := .inr rfl
  order := List.pairwise_singleton _ _
  whole msg hmsg := by
    obtain rfl := List.mem_singleton.mp hmsg
    intro _ r hr
    exact eq_cmd_of_ofCmd hr (.inr (.inr hack))

/-- The last answer to a command that went on. -/
theorem of_finished {exec : KtpdExec} (h : Ktpd.Finished ktpd ktpd' exec)
    (hlive : Ktpd.Live ktpd) (hrunning : ktpd.exec.isSome = true) :
    ∃ out, Serves none ktpd ktpd' out := by
  obtain ⟨out, ack, htoClient, hstream, hcmd, hfinal⟩ := h.toClient
  have hne : ∀ msg ∈ out, ∀ r : KtpRequest, msg.cmd ≠ r.ack :=
    fun msg hmsg => stream_ne_ack (hstream msg hmsg)
  have hanswer : ack.answer = some .cmd := answer_eq_some.mpr ⟨hcmd, hfinal⟩
  refine ⟨out ++ [ack], htoClient, fun r => ?_, fun _ => ?_, fun _ exec' hexec' => ?_,
    fun _ _ _ => .inl hrunning, answerLast_append hstream, fun msg hmsg => ?_⟩
  · rw [List.filterMap_append, filterMap_answer_eq_nil hne]
    simp only [busy, h.state, hlive.mp hrunning, hanswer, List.filterMap_cons, List.filterMap_nil]
    cases r <;> decide
  · simp [Ktpd.Live, h.idle, h.state]
  · cases h.idle.symm.trans hexec'
  · rcases List.mem_append.mp hmsg with hmsg | hmsg
    · exact whole_of_ne (hne msg hmsg)
    · obtain rfl := List.mem_singleton.mp hmsg
      exact whole_of_final hfinal

end Serves

/-- Output of the running command is sent, and no more. -/
structure Outputs (ktpd ktpd' : Ktpd env) (out : List KtpMsg) : Prop where
  toClient : ktpd'.toClient = ktpd.toClient ++ out
  state : ktpd'.state = ktpd.state
  kexec : ktpd'.exec.map KtpdExec.toKexec = ktpd.exec.map KtpdExec.toKexec
  stream : ∀ msg ∈ out, Ktpd.IsStream msg ∧ ktpd.exec.isSome = true

namespace Outputs

variable {a b c : Ktpd env} {out' : List KtpMsg}

theorem exec (h : Outputs a b out) : b.exec.isSome = a.exec.isSome := by
  have hisSome := congrArg Option.isSome h.kexec
  rwa [Option.isSome_map, Option.isSome_map] at hisSome

theorem of_silent (h : Ktpd.Silent a b) : Outputs a b [] :=
  ⟨by rw [h.toClient, List.append_nil], h.state, h.kexec, by simp⟩

theorem refl (a : Ktpd env) : Outputs a a [] := of_silent ⟨rfl, rfl, rfl⟩

theorem trans (h : Outputs a b out) (h' : Outputs b c out') : Outputs a c (out ++ out') where
  toClient := by rw [h'.toClient, h.toClient, List.append_assoc]
  state := h'.state.trans h.state
  kexec := h'.kexec.trans h.kexec
  stream msg hmsg := by
    rcases List.mem_append.mp hmsg with hmsg | hmsg
    · exact h.stream msg hmsg
    · exact ⟨(h'.stream msg hmsg).1, h.exec ▸ (h'.stream msg hmsg).2⟩

theorem serves (h : Outputs a b out) : Serves none a b out :=
  .of_ne h.toClient h.state h.exec (fun hunfinished => hunfinished.of_eq h.kexec)
    (fun msg hmsg => stream_ne_ack (h.stream msg hmsg).1) fun msg hmsg _ => (h.stream msg hmsg).2

/-- The polled descriptors are not seen here. -/
theorem withEloop (h : Outputs a b out) (eloop : env.L.State) :
    Outputs a { b with eloop } out :=
  ⟨h.toClient, h.state, h.kexec, h.stream⟩

end Outputs

variable {sys : KtpdSys}

theorem receive_outputs (sys : KtpdSys) (ktpd : Ktpd env) (fd : Fd) (isStderr : Bool) :
    ∃ out, Outputs ktpd (ktpd.receive sys fd isStderr) out := by
  unfold Ktpd.receive
  split
  · exact ⟨[], .refl ktpd⟩
  · rename_i exec hexec
    obtain ⟨hsame, -, out, hsends, hstream⟩ :=
      Ktpd.getStream_spec ktpd sys exec (some fd) isStderr
    refine ⟨out, hsends.toClient, hsends.state, ?_, fun msg hmsg => ?_⟩
    · rw [hexec]
      exact congrArg some hsame.toKexec
    · exact ⟨hstream msg hmsg, by rw [hexec]; rfl⟩

/-- The output of a command is all that a poll event sends. -/
theorem poll_outputs {fd : Fd} {revents : Ktpd.Revents}
    (h : ktpd.step (.poll fd revents, sys) = some ktpd') : ∃ out, Outputs ktpd ktpd' out :=
  Ktpd.poll_rel (R := fun k k' => ∃ out, Outputs k k' out) (fun k => ⟨[], .refl k⟩)
    (fun ⟨_, hab⟩ ⟨_, hbc⟩ => ⟨_, hab.trans hbc⟩)
    (fun k => ⟨[], .of_silent (Ktpd.pushStdin_silent sys k)⟩)
    (fun k => receive_outputs sys k fd) (fun k eloop => ⟨[], (Outputs.refl k).withEloop eloop⟩) h

theorem clientOut_silent (sys : KtpdSys) (ktpd : Ktpd env) :
    Ktpd.Silent ktpd (ktpd.clientOut sys) := by
  obtain ⟨eloop, heq, -⟩ := Ktpd.clientOut_spec sys ktpd
  rw [heq]
  exact ⟨rfl, rfl, rfl⟩

/-- The end of a process: the command goes on, or its last answer is sent. -/
theorem waitForActionsEv_serves (sys : KtpdSys) (ktpd : Ktpd env)
    (reports : List (Pid × WaitStatus)) (hlive : Ktpd.Live ktpd) :
    ∃ out, Serves none ktpd (ktpd.waitForActionsEv sys reports) out := by
  obtain ⟨-, htoClient, hstate, -, hnone, hsome⟩ := Ktpd.reapChildren_spec sys ktpd reports
  have hexec : (ktpd.reapChildren sys reports).exec.isSome = ktpd.exec.isSome := by
    cases hexec : ktpd.exec with
    | none => rw [(hnone hexec).1]
    | some exec =>
      obtain ⟨exec', hexec', -⟩ := hsome exec hexec
      rw [hexec']
      rfl
  -- As long as the command has something left to run.
  have hgoesOn : Ktpd.Unfinished (ktpd.reapChildren sys reports) →
      Serves none ktpd (ktpd.reapChildren sys reports) [] := fun hunfinished =>
    .of_ne (by rw [htoClient, List.append_nil]) hstate hexec (fun _ => hunfinished) (by simp)
      (by simp)
  unfold Ktpd.waitForActionsEv
  dsimp only
  generalize ktpd.reapChildren sys reports = reaped at *
  have hlive' : Ktpd.Live reaped := hlive.of_eq hexec hstate
  split
  · rename_i hnone
    exact ⟨[], hgoesOn fun exec' hexec' => by cases hnone.symm.trans hexec'⟩
  · rename_i exec hrunning
    split
    · rename_i hretcode
      refine ⟨[], hgoesOn fun exec' hexec' => ?_⟩
      obtain rfl := Option.some.inj (hrunning.symm.trans hexec')
      exact hretcode
    · rename_i retcode _
      obtain ⟨out, h⟩ := Serves.of_finished (Ktpd.finishCommand_spec sys reaped exec retcode) hlive'
        (by rw [hrunning]; rfl)
      refine ⟨out, ?_, fun r => ?_, fun _ => h.live hlive', fun _ exec' hexec' => ?_,
        fun msg hmsg hofCmd => ?_, h.order, h.whole⟩
      · rw [h.toClient, htoClient]
      · rw [h.tokens r, busy, busy, hstate]
      · have hidle := (Ktpd.finishCommand_spec sys reaped exec retcode).idle
        cases hidle.symm.trans hexec'
      · rw [← hexec]
        exact h.ofCmd msg hmsg hofCmd

theorem step_serves {event : Ktpd.Event} (hlive : Ktpd.Live ktpd)
    (hevent : ∀ msg, event ≠ .dispatch msg) (h : ktpd.step (event, sys) = some ktpd') :
    ∃ out, Serves none ktpd ktpd' out := by
  cases event with
  | dispatch msg => exact absurd rfl (hevent msg)
  | sigchld reports =>
    cases h
    exact waitForActionsEv_serves sys ktpd reports hlive
  | poll fd revents =>
    obtain ⟨out, houtputs⟩ := poll_outputs h
    exact ⟨out, houtputs.serves⟩

theorem dispatch_serves (hlive : Ktpd.Live ktpd) (h : ktpd.dispatch sys msg = some ktpd') :
    ∃ out, Serves msg.request ktpd ktpd' out := by
  cases Ktpd.dispatch_spec hlive h with
  | answered r hkind h =>
    rw [request_eq_some.mpr hkind]
    exact Serves.of_answered h
  | scheduled hkind hidle h htoClient hack hinc =>
    rw [request_eq_some.mpr hkind]
    exact ⟨_, .of_scheduled h hlive hidle htoClient hack hinc⟩
  | @notified _ out hkind hinput hnotify hsends hkeeps =>
    have hrequest : msg.request = none := by
      rw [Option.eq_none_iff_forall_ne_some]
      exact fun r hr => hkind r (request_eq_some.mp hr)
    rw [hrequest]
    refine ⟨out, .of_ne hsends.toClient hsends.state (by rw [hsends.exec])
      (fun hunfinished => hunfinished.of_eq (by rw [hsends.exec]))
      (fun msg hmsg => notification_ne_ack (hnotify msg hmsg)) fun msg hmsg hofCmd => ?_⟩
    unfold KtpMsg.OfCmd at hofCmd
    rw [hnotify msg hmsg] at hofCmd
    exact absurd hofCmd (by decide)
  | stdin hkind =>
    rw [show msg.request = none by simp [KtpMsg.request, hkind]]
    exact ⟨[], .of_silent (Ktpd.processStdin_silent sys ktpd msg)⟩
  | stdinClose hkind =>
    rw [show msg.request = none by simp [KtpMsg.request, hkind]]
    exact ⟨[], .of_silent (Ktpd.processStdinClose_silent sys ktpd)⟩
  | stdoutClose hkind =>
    rw [show msg.request = none by simp [KtpMsg.request, hkind]]
    exact ⟨[], .of_silent (Ktpd.processStdoutClose_closes ktpd).silent⟩
  | stderrClose hkind =>
    rw [show msg.request = none by simp [KtpMsg.request, hkind]]
    exact ⟨[], .of_silent (Ktpd.processStderrClose_closes ktpd).silent⟩

end Klish.Channel
