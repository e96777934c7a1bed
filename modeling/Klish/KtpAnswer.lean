import Klish.KtpServe

/-!
# One answer for each request

The tokens of the requests are an invariant of the client, the server and the messages between
them.
-/

namespace Klish.Channel

variable {env : KtpdEnv} {out : List KtpMsg}

section Client

variable (ktp : Ktp)

theorem run_toServer (call : ClientCall) :
    ∃ msg, (call.run ktp).toServer = ktp.toServer ++ [msg] ∧ msg.request = call.request := by
  cases call <;> exact ⟨_, rfl, rfl⟩

theorem run_pending (call : ClientCall) :
    (call.run ktp).state.pending = call.request.or ktp.state.pending := by
  cases call <;> rfl

theorem processStdout_spec (msg : KtpMsg) :
    (ktp.processStdout msg).toServer = ktp.toServer ∧
      (ktp.processStdout msg).state = ktp.state := by
  unfold Ktp.processStdout
  split
  · exact ⟨rfl, rfl⟩
  · split
    · exact ⟨rfl, rfl⟩
    · split <;> exact ⟨rfl, rfl⟩

theorem processStderr_spec (msg : KtpMsg) :
    (ktp.processStderr msg).toServer = ktp.toServer ∧
      (ktp.processStderr msg).state = ktp.state := by
  unfold Ktp.processStderr
  split
  · exact ⟨rfl, rfl⟩
  · split
    · exact ⟨rfl, rfl⟩
    · split <;> exact ⟨rfl, rfl⟩

theorem dispatch_toServer (msg : KtpMsg) : (ktp.dispatch msg).toServer = ktp.toServer := by
  have hcmd : (ktp.processCmdAck msg).toServer = ktp.toServer := by
    unfold Ktp.processCmdAck
    split
    · split <;> rfl
    · rfl
  unfold Ktp.dispatch
  split
  case h_2 => split <;> [exact hcmd; rfl]
  case h_5 => split <;> [exact (processStdout_spec ktp msg).1; rfl]
  case h_6 => split <;> [exact (processStderr_spec ktp msg).1; rfl]
  case h_7 => rfl
  case h_8 => rfl
  all_goals split <;> rfl

/-- The last answer ends the request, and nothing else does. -/
theorem dispatch_pending {msg : KtpMsg} (hwhole : Whole msg)
    (hpending : ∀ r, msg.answer = some r → ktp.state.pending = some r) :
    (ktp.dispatch msg).state.pending =
      if msg.answer.isSome then none else ktp.state.pending := by
  cases hanswer : msg.answer with
  | some r =>
    have hp := hpending r hanswer
    obtain ⟨hcmd, hinc⟩ := answer_eq_some.mp hanswer
    have hstate : ktp.state = .unauthorized ∧ r = .auth ∨ ktp.state = .waitForCmd ∧ r = .cmd ∨
        ktp.state = .waitForCompletion ∧ r = .completion ∨
        ktp.state = .waitForHelp ∧ r = .help := by
      cases hs : ktp.state <;> rw [hs] at hp <;> cases hp <;> simp
    obtain ⟨hs, rfl⟩ | ⟨hs, rfl⟩ | ⟨hs, rfl⟩ | ⟨hs, rfl⟩ := hstate <;>
      rw [Ktp.dispatch, hcmd] <;> simp only [KtpRequest.ack, hs, if_true, Option.isSome_some]
    · rfl
    · simp only [Ktp.processCmdAck, hinc]
      rfl
    · rfl
    · rfl
  | none =>
    have hfinal : ∀ r : KtpRequest, msg.cmd = r.ack → r = .cmd ∧ msg.status.incompleted = true := by
      intro r hr
      have hinc : msg.status.incompleted = true := by
        by_contra hinc
        have hsome := answer_eq_some.mpr ⟨hr, by simpa using hinc⟩
        rw [hanswer] at hsome
        cases hsome
      exact ⟨hwhole hinc r hr, hinc⟩
    have hstate : (ktp.dispatch msg).state = ktp.state := by
      unfold Ktp.dispatch
      split
      case h_1 hcmd => cases (hfinal .auth hcmd).1
      case h_3 hcmd => cases (hfinal .completion hcmd).1
      case h_4 hcmd => cases (hfinal .help hcmd).1
      case h_2 hcmd =>
        split
        · unfold Ktp.processCmdAck
          rw [if_pos (hfinal .cmd hcmd).2]
          split <;> rfl
        · rfl
      case h_5 => split <;> [exact (processStdout_spec ktp msg).2; rfl]
      case h_6 => split <;> [exact (processStderr_spec ktp msg).2; rfl]
      case h_7 => rfl
      case h_8 => rfl
    simp [hstate]

end Client

/-- The number of commands that have been answered for good. -/
def answered (sent : List (ℕ × KtpMsg)) : ℕ := (sent.filterMap fun m => m.2.answer).count .cmd

/-- The messages about a command come after the last answer to the command before it, and none
of them comes after its own last answer. -/
def Numbered (sent : List (ℕ × KtpMsg)) : Prop :=
  ∀ before n msg after, sent = before ++ (n, msg) :: after → msg.OfCmd → n = answered before + 1

/-- A client that waits has exactly one token of its request, and one that does not has none. -/
structure Inv (s : Channel env) (h : History) : Prop where
  tokens : ∀ r, tokens r s = s.ktp.state.pending.toList.count r
  live : Ktpd.Live s.ktpd
  unfinished : Ktpd.Unfinished s.ktpd
  ofCmd : ∀ msg ∈ s.ktpd.toClient, msg.OfCmd → s.ktp.state.pending = some .cmd
  order : AnswerLast s.ktpd.toClient
  whole : ∀ msg ∈ s.ktpd.toClient, Whole msg
  requested : h.requested = h.received.filterMap KtpMsg.answer ++ s.ktp.state.pending.toList
  sent : h.sent.map Prod.snd = h.received ++ s.ktpd.toClient
  commands : h.commands = answered h.sent + busy .cmd s.ktpd
  numbered : Numbered h.sent

section Invariant

variable {s s' : Channel env} {h : History} {request : Option KtpRequest}

theorem answered_append (sent : List (ℕ × KtpMsg)) (n : ℕ) (out : List KtpMsg) :
    answered (sent ++ out.map fun msg => (n, msg)) =
      answered sent + (out.filterMap KtpMsg.answer).count .cmd := by
  unfold answered
  rw [List.filterMap_append, List.count_append, List.filterMap_map]
  rfl

theorem answered_eq_zero {msg : KtpMsg} (horder : AnswerLast (out ++ [msg])) (hmsg : msg.OfCmd) :
    (out.filterMap KtpMsg.answer).count .cmd = 0 := by
  rw [List.count_eq_zero]
  intro hmem
  obtain ⟨first, hfirst, hanswer⟩ := List.mem_filterMap.mp hmem
  exact (List.pairwise_append.mp horder).2.2 first hfirst msg (List.mem_singleton.mpr rfl)
    hanswer hmsg

theorem Numbered.append {sent : List (ℕ × KtpMsg)} {n : ℕ} (hsent : Numbered sent)
    (horder : AnswerLast out) (hout : ∀ msg ∈ out, msg.OfCmd → n = answered sent + 1) :
    Numbered (sent ++ out.map fun msg => (n, msg)) := by
  intro before k msg after heq hmsg
  rcases List.append_eq_append_iff.mp heq with ⟨new, rfl, hnew⟩ | ⟨rest, rfl, hrest⟩
  · obtain ⟨first, last, rfl, rfl, hlast⟩ := List.map_eq_append_iff.mp hnew
    obtain ⟨msg', last', rfl, hmsg', -⟩ := List.map_eq_cons_iff.mp hlast
    cases hmsg'
    have hlast : AnswerLast (first ++ [msg]) := List.Pairwise.sublist (by simp) horder
    rw [answered_append, answered_eq_zero hlast hmsg]
    exact hout msg (by simp) hmsg
  · cases rest with
    | nil =>
      obtain ⟨msg', last', rfl, hmsg', -⟩ := List.map_eq_cons_iff.mp hrest.symm
      cases hmsg'
      rw [List.append_nil] at hout
      exact hout msg List.mem_cons_self hmsg
    | cons m rest =>
      obtain ⟨rfl, rfl⟩ := List.cons.inj hrest
      exact hsent before k msg rest rfl hmsg

/-- No answer to a command is in flight when the server works for one. -/
theorem Inv.no_answer (hinv : Inv s h)
    (hcmd : s.ktpd.exec.isSome = true ∨ .cmd ∈ s.ktp.toServer.filterMap KtpMsg.request) :
    (s.ktpd.toClient.filterMap KtpMsg.answer).count .cmd = 0 ∧
      s.ktp.state.pending = some .cmd := by
  have htokens := hinv.tokens .cmd
  have hpending : s.ktp.state.pending.toList.count .cmd ≤ 1 := by
    cases s.ktp.state <;> decide
  have hone : 1 ≤ (s.ktp.toServer.filterMap KtpMsg.request).count .cmd + busy .cmd s.ktpd := by
    rcases hcmd with hexec | hmem
    · have hbusy : busy .cmd s.ktpd = 1 := if_pos ⟨rfl, hinv.live.mp hexec⟩
      omega
    · have hpos := List.count_pos_iff.mpr hmem
      omega
  unfold Channel.tokens at htokens
  refine ⟨by omega, ?_⟩
  cases hp : s.ktp.state.pending with
  | none =>
    rw [hp] at htokens
    simp only [Option.toList_none, List.count_nil] at htokens
    omega
  | some r =>
    rw [hp] at htokens
    by_contra hne
    have hr : r ≠ .cmd := fun heq => hne (congrArg some heq)
    simp [hr] at htokens
    omega

/-- The server takes a request or an event of its own, and sends its messages. -/
theorem Inv.serves (hinv : Inv s h) (hserves : Serves request s.ktpd s'.ktpd out)
    (hstate : s'.ktp.state = s.ktp.state)
    (htoServer : s.ktp.toServer.filterMap KtpMsg.request =
      request.toList ++ s'.ktp.toServer.filterMap KtpMsg.request) :
    Inv s' { h with
      commands := h.commands + request.toList.count .cmd
      sent := h.sent ++ out.map fun msg => (h.commands + request.toList.count .cmd, msg) } := by
  have hnone : ∀ msg ∈ out, msg.OfCmd →
      (s.ktpd.toClient.filterMap KtpMsg.answer).count .cmd = 0 ∧
        s.ktp.state.pending = some .cmd := by
    intro msg hmsg hofCmd
    apply hinv.no_answer
    rcases hserves.ofCmd msg hmsg hofCmd with hexec | rfl
    · exact .inl hexec
    · right
      rw [htoServer]
      exact List.mem_cons_self
  have hcommands := hinv.commands
  refine ⟨fun r => ?_, hserves.live hinv.live, hserves.unfinished hinv.unfinished,
    fun msg hmsg hofCmd => ?_, ?_, fun msg hmsg => ?_, ?_, ?_, ?_, ?_⟩
  · have htokens := hinv.tokens r
    have hserve := hserves.tokens r
    unfold Channel.tokens at htokens ⊢
    rw [htoServer, List.count_append] at htokens
    rw [hserves.toClient, List.filterMap_append, List.count_append, hstate]
    omega
  · rw [hstate]
    rw [hserves.toClient] at hmsg
    rcases List.mem_append.mp hmsg with hmsg | hmsg
    · exact hinv.ofCmd msg hmsg hofCmd
    · exact (hnone msg hmsg hofCmd).2
  · rw [hserves.toClient]
    refine List.pairwise_append.mpr ⟨hinv.order, hserves.order,
      fun first hfirst msg hmsg hanswer hofCmd => ?_⟩
    have hzero := List.count_eq_zero.mp (hnone msg hmsg hofCmd).1
    exact hzero (List.mem_filterMap.mpr ⟨first, hfirst, hanswer⟩)
  · rw [hserves.toClient] at hmsg
    rcases List.mem_append.mp hmsg with hmsg | hmsg
    · exact hinv.whole msg hmsg
    · exact hserves.whole msg hmsg
  · rw [hstate]
    exact hinv.requested
  · rw [List.map_append, hinv.sent, hserves.toClient, List.append_assoc]
    simp [Function.comp_def]
  · have hserve := hserves.tokens .cmd
    dsimp only
    rw [answered_append]
    omega
  · apply hinv.numbered.append hserves.order
    intro msg hmsg hofCmd
    have htokens := hinv.tokens .cmd
    have hone : s.ktp.state.pending.toList.count .cmd = 1 := by
      rw [(hnone msg hmsg hofCmd).2]
      rfl
    unfold Channel.tokens at htokens
    rw [htoServer, List.count_append] at htokens
    rcases hserves.ofCmd msg hmsg hofCmd with hexec | rfl
    · have hbusy : busy .cmd s.ktpd = 1 := if_pos ⟨rfl, hinv.live.mp hexec⟩
      omega
    · simp only [Option.toList_some, List.count_singleton_self] at htokens ⊢
      omega

theorem Inv.call {call : ClientCall} (hinv : Inv s h)
    (hguard : ¬ (call.request.isSome && s.ktp.state.pending.isSome) = true) :
    Inv { s with ktp := call.run s.ktp }
      { h with requested := h.requested ++ call.request.toList } := by
  obtain ⟨msg, htoServer, hrequest⟩ := run_toServer s.ktp call
  have hpending := run_pending s.ktp call
  have hsplit : call.request = none ∨ s.ktp.state.pending = none := by
    cases hr : call.request with
    | none => exact .inl rfl
    | some r =>
      right
      rw [hr] at hguard
      simpa using hguard
  have hlist : (call.run s.ktp).state.pending.toList =
      s.ktp.state.pending.toList ++ call.request.toList := by
    rw [hpending]
    rcases hsplit with hnone | hnone <;> simp [hnone]
  refine ⟨fun r => ?_, hinv.live, hinv.unfinished, fun msg hmsg hofCmd => ?_, hinv.order,
    hinv.whole, ?_, hinv.sent, hinv.commands, hinv.numbered⟩
  · have htokens := hinv.tokens r
    unfold Channel.tokens at htokens ⊢
    dsimp only
    rw [htoServer, hlist, List.filterMap_append, List.count_append, List.count_append]
    have hmsg : [msg].filterMap KtpMsg.request = call.request.toList := by
      rw [List.filterMap_cons, hrequest]
      cases call.request <;> rfl
    rw [hmsg]
    omega
  · have hcmd := hinv.ofCmd msg hmsg hofCmd
    rcases hsplit with hnone | hnone
    · rw [hpending, hnone, Option.none_or]
      exact hcmd
    · rw [hnone] at hcmd
      cases hcmd
  · dsimp only
    rw [hinv.requested, hlist, List.append_assoc]

theorem Inv.deliver {msg : KtpMsg} {toClient : List KtpMsg} (hinv : Inv s h)
    (hmsg : s.ktpd.toClient = msg :: toClient) :
    Inv ⟨s.ktp.dispatch msg, { s.ktpd with toClient }⟩
      { h with received := h.received ++ [msg] } := by
  have hwhole := hinv.whole
  have horder := hinv.order
  have hofCmd := hinv.ofCmd
  have hsent := hinv.sent
  have htokens := hinv.tokens
  have hrequested := hinv.requested
  unfold Channel.tokens at htokens
  rw [hmsg] at hwhole horder hofCmd hsent htokens
  have hanswered : ∀ r, msg.answer = some r → s.ktp.state.pending = some r := by
    intro r hr
    have hone := htokens r
    rw [List.filterMap_cons, hr] at hone
    simp only [List.count_cons_self] at hone
    have hpos : 0 < s.ktp.state.pending.toList.count r := by omega
    simpa using List.count_pos_iff.mp hpos
  have hpending := dispatch_pending s.ktp (hwhole msg List.mem_cons_self) hanswered
  refine ⟨fun r => ?_, hinv.live, hinv.unfinished, fun msg' hmsg' hofCmd' => ?_,
    (List.pairwise_cons.mp horder).2, fun msg' hmsg' => hwhole msg' (List.mem_cons_of_mem _ hmsg'),
    ?_, ?_, hinv.commands, hinv.numbered⟩
  · have hr := htokens r
    unfold Channel.tokens
    dsimp only
    rw [dispatch_toServer, hpending]
    cases hanswer : msg.answer with
    | none =>
      rw [List.filterMap_cons, hanswer] at hr
      exact hr
    | some r' =>
      rw [List.filterMap_cons, hanswer, hanswered r' hanswer] at hr
      simp only [List.count_cons, Option.toList_some, List.count_nil] at hr
      simp only [busy, Option.isSome_some, if_true, Option.toList_none, List.count_nil] at hr ⊢
      omega
  · have hcmd := hofCmd msg' (List.mem_cons_of_mem _ hmsg') hofCmd'
    dsimp only
    rw [hpending]
    cases hanswer : msg.answer with
    | none => exact hcmd
    | some r =>
      obtain rfl : KtpRequest.cmd = r := Option.some.inj (hcmd.symm.trans (hanswered r hanswer))
      exact absurd hofCmd' ((List.pairwise_cons.mp horder).1 msg' hmsg' hanswer)
  · dsimp only
    rw [List.filterMap_append, hrequested, hpending]
    cases hanswer : msg.answer with
    | none => simp [hanswer]
    | some r => simp [hanswer, hanswered r hanswer]
  · dsimp only
    rw [hsent, List.append_assoc]
    rfl

/-- One step. -/
theorem step_inv {event : Event} (hinv : Inv s h) (hstep : step s event = some s') :
    Inv s' (History.note s event s' h) := by
  unfold step at hstep
  split at hstep
  · cases hstep
  cases event with
  | call call =>
    dsimp only at hstep
    split at hstep
    · cases hstep
    · rename_i hguard
      cases hstep
      exact hinv.call hguard
  | serve sys =>
    dsimp only at hstep
    split at hstep
    · cases hstep
    · rename_i msg toServer hmsg
      obtain ⟨ktpd, hdispatch, rfl⟩ := Option.map_eq_some_iff.mp hstep
      obtain ⟨out, hserves⟩ := dispatch_serves hinv.live hdispatch
      have hsent : History.sentIn s ⟨{ s.ktp with toServer }, ktpd⟩ = out := by
        simp [History.sentIn, hserves.toClient]
      have htoServer : s.ktp.toServer.filterMap KtpMsg.request =
          msg.request.toList ++ toServer.filterMap KtpMsg.request := by
        rw [hmsg, List.filterMap_cons]
        cases msg.request <;> rfl
      have hnext : Inv ⟨{ s.ktp with toServer }, ktpd⟩ _ := hinv.serves hserves rfl htoServer
      simpa [History.note, History.served, hmsg, hsent] using hnext
  | server event sys =>
    have hevent : (∀ msg, event ≠ .dispatch msg) ∧
        ∃ ktpd, s.ktpd.step (event, sys) = some ktpd ∧ s' = { s with ktpd } := by
      cases event with
      | dispatch msg => cases hstep
      | poll fd revents =>
        obtain ⟨ktpd, hktpd, rfl⟩ := Option.map_eq_some_iff.mp hstep
        exact ⟨by simp, ktpd, hktpd, rfl⟩
      | sigchld reports =>
        obtain ⟨ktpd, hktpd, rfl⟩ := Option.map_eq_some_iff.mp hstep
        exact ⟨by simp, ktpd, hktpd, rfl⟩
    obtain ⟨hne, ktpd, hktpd, rfl⟩ := hevent
    obtain ⟨out, hserves⟩ := step_serves hinv.live hne hktpd
    have hsent : History.sentIn s { s with ktpd } = out := by
      simp [History.sentIn, hserves.toClient]
    have hnext : Inv { s with ktpd } _ := hinv.serves hserves rfl rfl
    simpa [History.note, History.served, hsent] using hnext
  | deliver =>
    dsimp only at hstep
    split at hstep
    · cases hstep
    · rename_i msg toClient hmsg
      cases hstep
      simpa [History.note, hmsg] using hinv.deliver hmsg

theorem init_inv (stdoutCb stderrCb : Bool) (eloop : env.L.State) (world : World) :
    Inv (init stdoutCb stderrCb eloop world) .empty where
  tokens r := by cases r <;> rfl
  live := by
    constructor <;> intro hlive <;> cases hlive
  unfinished exec hexec := by cases hexec
  ofCmd := by simp [init, Ktpd.new]
  order := .nil
  whole := by simp [init, Ktpd.new]
  requested := rfl
  sent := rfl
  commands := rfl
  numbered before n msg after heq := by simp [History.empty] at heq

end Invariant

/-- A client and a server that answer every request once. -/
structure OneAnswer (s : Channel env) (h : History) : Prop where
  /-- The client waits for an answer exactly if there is one token of the request. -/
  waits : ∀ r, s.ktp.state.pending = some r ↔ tokens r s = 1
  /-- There is never more than one token, of all requests together. -/
  unique : ∀ r r', 0 < tokens r s → 0 < tokens r' s → r = r' ∧ tokens r s = 1
  /-- The last answers that the client got are those to its requests, in their order. -/
  answers : h.requested = h.received.filterMap KtpMsg.answer ++ s.ktp.state.pending.toList
  /-- No answer arrives that the client does not wait for. -/
  expected : ∀ msg ∈ s.ktpd.toClient, ∀ r : KtpRequest, msg.cmd = r.ack →
    s.ktp.state.pending = some r
  /-- Without messages in flight and without a command, nothing is left to answer. -/
  quiescent : s.ktp.toServer = [] → s.ktpd.toClient = [] → s.ktpd.exec = none →
    h.requested = h.received.filterMap KtpMsg.answer
  /-- The server waits for a process exactly if it holds a command. -/
  live : s.ktpd.state = .waitForProcess ↔ s.ktpd.exec.isSome = true
  /-- A command is held only as long as it has something left to run. -/
  unfinished : ∀ exec, s.ktpd.exec = some exec → Kexec.kexecRetcode exec.toKexec = none
  /-- What the server has sent is what the client has taken and what is in flight. -/
  fifo : h.sent.map Prod.snd = h.received ++ s.ktpd.toClient
  /-- The messages about a command come before its last answer and after that of the command
  before it. -/
  numbered : Numbered h.sent
  answerLast : AnswerLast s.ktpd.toClient

theorem Inv.oneAnswer {s : Channel env} {h : History} (hinv : Inv s h) : OneAnswer s h where
  waits r := by
    rw [hinv.tokens r]
    cases s.ktp.state.pending with
    | none => simp
    | some r' => by_cases hr : r' = r <;> simp [hr]
  unique r r' hr hr' := by
    rw [hinv.tokens] at hr hr' ⊢
    have hp := List.count_pos_iff.mp hr
    have hp' := List.count_pos_iff.mp hr'
    simp only [Option.mem_toList] at hp hp'
    rw [hp] at hp' ⊢
    cases hp'
    exact ⟨rfl, by simp⟩
  answers := hinv.requested
  expected msg hmsg r hack := by
    cases hinc : msg.status.incompleted with
    | true =>
      obtain rfl := hinv.whole msg hmsg hinc r hack
      exact hinv.ofCmd msg hmsg (.inr (.inr hack))
    | false =>
      have hanswer : msg.answer = some r := answer_eq_some.mpr ⟨hack, hinc⟩
      have hpos := List.count_pos_iff.mpr (List.mem_filterMap.mpr ⟨msg, hmsg, hanswer⟩)
      have htokens := hinv.tokens r
      unfold Channel.tokens at htokens
      have hpending : 0 < s.ktp.state.pending.toList.count r := by omega
      simpa using List.count_pos_iff.mp hpending
  quiescent htoServer htoClient hexec := by
    have hpending : s.ktp.state.pending = none := by
      cases hp : s.ktp.state.pending with
      | none => rfl
      | some r =>
        have htokens := hinv.tokens r
        have hstate : s.ktpd.state ≠ .waitForProcess := fun hstate => by
          have hsome := hinv.live.mpr hstate
          rw [hexec] at hsome
          cases hsome
        simp [Channel.tokens, htoServer, htoClient, busy, hstate, hp] at htokens
    rw [hinv.requested, hpending]
    simp
  live := hinv.live.symm
  unfinished := hinv.unfinished
  fifo := hinv.sent
  numbered := hinv.numbered
  answerLast := hinv.order

/-- In every interleaving of calls of the client, callbacks of the server, ends of processes and
deliveries, every request is answered once. -/
theorem one_answer_per_request (stdoutCb stderrCb : Bool) (eloop : env.L.State) (world : World)
    (events : List Event) (s : Channel env)
    (hrun : Runs.run step (init stdoutCb stderrCb eloop world) events = some s) :
    ∃ h, Runs.run (Runs.observed step History.note) (init stdoutCb stderrCb eloop world, .empty)
      events = some (s, h) ∧ OneAnswer s h := by
  obtain ⟨h, hobserved⟩ := Runs.exists_run_observed History.note .empty hrun
  have hinv : Inv s h := by
    refine Runs.run_invariant (I := fun p : Channel env × History => Inv p.1 p.2) ?_
      (init_inv stdoutCb stderrCb eloop world) hobserved
    rintro ⟨s, h⟩ event p hinv hstep
    obtain ⟨s', hs', rfl⟩ := Runs.observed_eq_some.mp hstep
    exact step_inv hinv hs'
  exact ⟨h, hobserved, hinv.oneAnswer⟩

/-- A command that goes on, with input that crosses its answers. -/
def sampleEvents : List Event :=
  [.call (.auth false false false), .serve (Ktpd.sampleSys 0), .deliver, .call (.cmd "x" false),
    .serve (Ktpd.sampleSys 0), .call (.stdin [97]), .deliver,
    .server (.sigchld [(1, .zero)]) (Ktpd.sampleSys 0), .serve (Ktpd.sampleSys 0),
    .call .stdinClose, .deliver]

theorem one_answer_per_request_sample : ∃ s : Channel Ktpd.sampleEnv,
    Runs.run step (init false false (fun _ => none) Ktpd.sampleWorld) sampleEvents = some s ∧
    ∃ h, Runs.run (Runs.observed step History.note)
        (init false false (fun _ => none) Ktpd.sampleWorld, .empty) sampleEvents = some (s, h) ∧
      OneAnswer s h := by
  have hrun : (Runs.run step
      (init false false (fun _ => none) Ktpd.sampleWorld : Channel Ktpd.sampleEnv)
      sampleEvents).isSome = true := by decide
  obtain ⟨s, hs⟩ := Option.isSome_iff_exists.mp hrun
  exact ⟨s, hs, one_answer_per_request _ _ _ _ _ _ hs⟩

end Klish.Channel
