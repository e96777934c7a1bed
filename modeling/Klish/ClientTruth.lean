import Klish.ClientStdin

/-!
# A batch client stops at an exit and tells the truth about the last command

A batch client that gets the exit flag while it has commands left sends the next one all the same,
and when the connection is lost after a command the program still succeeds. In all other runs the
commands are sent one at a time and the exit status is that of the last one.
-/

namespace Klish

/-- The message that is sent. -/
def Spoken.message : Spoken → Option KtpMsg
  | .sent msg => some msg
  | .ack _ => none

namespace Ctx

variable {ctx ctx' : Ctx} {msg : KtpMsg} {sys : ClientSys}

/-- The log has the messages that are sent. -/
def Logged (ctx : Ctx) : Prop := ctx.ktp.toServer = ctx.log.filterMap Spoken.message

theorem Logged.call (h : ctx.Logged) {f : Ktp → Ktp}
    (hsent : ∃ msg, (f ctx.ktp).toServer = ctx.ktp.toServer ++ [msg]) : (ctx.call f).Logged := by
  obtain ⟨msg, hsent⟩ := hsent
  show (f ctx.ktp).toServer = (ctx.log ++ _).filterMap Spoken.message
  rw [hsent, List.drop_left, List.filterMap_append, ← h]
  rfl

theorem Logged.next (h : ctx.Logged) : (ctx.sendNextCommand sys).Logged := by
  have hline (ahead : ℕ) : (ctx.nextLine ahead).2.Logged := by
    unfold nextLine
    split <;> exact h
  have hnext := hline sys.ahead
  unfold sendNextCommand
  split
  · exact h
  · split
    · rename_i hnone
      rw [hnone] at hnext
      exact hnext
    · rename_i hsome
      rw [hsome] at hnext
      exact hnext.call ⟨_, rfl⟩

theorem Logged.params (h : ctx.Logged) (msg : KtpMsg) :
    ((ctx.processPromptParam msg).processHotkeyParam msg).Logged := by
  unfold processHotkeyParam
  split <;> exact h

/-- What the client sends while it takes a message is in the log. -/
theorem Logged.dispatch (h : ctx.Logged) : (ctx.dispatch msg sys).Logged := by
  have hktp : Logged { ctx with ktp := ctx.ktp.dispatch msg } :=
    (Channel.dispatch_toServer ctx.ktp msg).trans h
  have hnote : (ctx.noteAck msg).Logged := by
    show (ctx.ktp.dispatch msg).toServer = (ctx.log ++ [Spoken.ack msg]).filterMap Spoken.message
    rw [Channel.dispatch_toServer, List.filterMap_append, ← h]
    exact (List.append_nil _).symm
  unfold Ctx.dispatch
  split
  · split
    · unfold authAckCb
      dsimp only
      split
      · exact hnote.params msg
      · have hwinch := (hnote.params msg).call (f := fun ktp => ktp.sendWinchNotification sys.width
          sys.height) ⟨_, rfl⟩
        split
        · exact hwinch
        · exact hwinch.next
    · exact h
  · split
    · split
      · unfold cmdIncompletedAckCb
        split
        · exact hnote
        · split <;> exact hnote
      · unfold cmdAckCb
        have hpager : Logged { ctx.noteAck msg with pagerWorking := none } := hnote
        dsimp only
        split
        · exact hpager.params msg
        · split
          · exact Logged.next (hpager.params msg)
          · exact Logged.next (hpager.params msg)
    · exact h
  · split
    · exact hnote
    · exact h
  · split
    · exact hnote
    · exact h
  · dsimp only
    split
    · unfold stdoutCb
      dsimp only
      split
      · split
        · exact hktp.call (f := Ktp.sessionStdoutClose) ⟨_, rfl⟩
        · exact hktp
      · split
        · exact hktp.call (f := Ktp.sessionStdoutClose) ⟨_, rfl⟩
        · exact hktp
    · exact hktp
  · exact hktp

theorem Logged.dispatchAll {msgs : List (KtpMsg × ClientSys)} (h : ctx.Logged) :
    (ctx.dispatchAll msgs).Logged := by
  induction msgs generalizing ctx with
  | nil => exact h
  | cons m msgs ih => exact ih h.dispatch

/-- The messages of a read. With each of them the client may go on, and when the loop is to end
for another reason than an ack, no command is left without its last ack. -/
def MeetsAll : Ctx → Bool → List (KtpMsg × ClientSys) → Prop
  | ctx, cut, [] => cut = true → ctx.ktp.state ≠ .waitForCmd
  | ctx, cut, (msg, sys) :: msgs =>
    ctx.NoExit msg ∧ MeetsAll (ctx.dispatch msg sys) (cut || exitNote msg) msgs

variable {opts : ClientOpts} {all : List String}

theorem Batch.dispatchAll {msgs : List (KtpMsg × ClientSys)} {cut : Bool} (h : Batch opts all ctx)
    (hdone : ctx.ktp.done = true → cut = true ∨ ctx.ktp.state = .idle)
    (hmeets : ctx.MeetsAll cut msgs) :
    Batch opts all (ctx.dispatchAll msgs) ∧
      (cut = true ∨ (ctx.dispatchAll msgs).ktp.done = true →
        (ctx.dispatchAll msgs).ktp.state ≠ .waitForCmd) := by
  induction msgs generalizing ctx cut with
  | nil =>
    refine ⟨h, fun hend => ?_⟩
    rcases hend with hcut | hd
    · exact hmeets hcut
    · rcases hdone hd with hcut | hidle
      · exact hmeets hcut
      · exact fun hwait => absurd (hwait.symm.trans hidle) nofun
  | cons m msgs ih =>
    obtain ⟨hexit, hrest⟩ := hmeets
    have htaken := h.dispatch m.2 hexit
    have hnext : (ctx.dispatch m.1 m.2).ktp.done = true →
        (cut || exitNote m.1) = true ∨ (ctx.dispatch m.1 m.2).ktp.state = .idle := by
      intro hd
      rcases htaken.done hd with hd | hnote | hidle
      · rcases hdone hd with hcut | hidle
        · exact .inl (by rw [hcut, Bool.true_or])
        · exact .inr (htaken.idle hidle)
      · exact .inl (by rw [hnote, Bool.or_true])
      · exact .inr hidle
    obtain ⟨hbatch, hend⟩ := ih htaken.batch hnext hrest
    exact ⟨hbatch, fun h => hend (h.imp_left fun hcut => by rw [hcut, Bool.true_or])⟩

/-- Reading the standard input says nothing about the commands, if it does not leak. -/
theorem stdinCb_quietly {event : StdinEvent} (hmode : ctx.mode ≠ .interactive)
    (hleak : ¬ ctx.Leaks event) :
    Quietly ctx (ctx.stdinCb event).1 ∧ (ctx.stdinCb event).2 = true ∧
      (ctx.stdinCb event).1.ktp.done = ctx.ktp.done := by
  have hwatched (ctx : Ctx) : Quietly ctx { ctx with stdinWatched := false } :=
    .of_log_eq rfl rfl rfl rfl rfl rfl rfl
  have hclose : Quietly ctx (ctx.call Ktp.sessionStdinClose) := .call rfl rfl rfl rfl nofun
  have hsend (ctx : Ctx) (data : Bytes) : Quietly ctx (ctx.call fun ktp => ktp.sessionStdin data) :=
    .call rfl rfl rfl rfl nofun
  unfold stdinCb
  split
  · exact ⟨hwatched ctx, rfl, rfl⟩
  · rename_i hobuf
    rw [if_neg fun h => hmode h.2]
    split
    · rename_i hneed
      dsimp only
      split
      · rename_i hdata
        -- In the other modes the commands do not come from the standard input.
        have hstdin : ctx.mode ≠ .stdin := fun hm =>
          hleak ⟨hm, Nat.le_of_not_lt hobuf, hneed.1, hneed.2, hdata⟩
        have hskip : Quietly ctx { ctx with stdin := ctx.stdin.skip (event.data ctx).length } := by
          refine .of_log_eq rfl rfl ?_ rfl rfl rfl rfl
          unfold commands
          cases hm : ctx.mode with
          | stdin => exact absurd hm hstdin
          | cmdline => rfl
          | files => rfl
          | interactive => rfl
        exact ⟨hskip.trans (hsend _ _), rfl, rfl⟩
      · split
        · exact ⟨hclose.trans (hwatched _), rfl, rfl⟩
        · exact ⟨.of_log_eq rfl rfl rfl rfl rfl rfl rfl, rfl, rfl⟩
    · exact ⟨hwatched ctx, rfl, rfl⟩

end Ctx

namespace Client

variable {client client' : Client} {opts : ClientOpts} {all : List String}

/-- The callback is one in which the client goes on only as it should. -/
def Meets (client : Client) : Event → Prop
  | .server event _ =>
    (if event.pollout then client.ctx.asyncStdinSentCb else client.ctx).MeetsAll
      ((event.pollout && event.outFailed) || (event.pollin && event.inFailed) || event.pollhup)
      (read event)
  | .stdin event _ => ¬ client.ctx.Leaks event
  | .ctrlC _ => client.ctx.ktp.state ≠ .waitForCmd
  | .sigwinch .. => True

/-- A batch client that stops at an exit and tells the truth about the last command. -/
structure Truthful (opts : ClientOpts) (all : List String) (client : Client) : Prop where
  /-- No command is sent after an ack with the exit flag, or after a failed command with
  stop-on-error. -/
  stops : client.ctx.log.Pairwise fun a b => a.Stops opts → b.cmdLine = none
  /-- Each command is sent after the last ack of the one before. -/
  oneAtATime : Spoken.OneAtATime client.ctx.log
  /-- The commands are sent in their order. -/
  order : client.ctx.ktp.toServer.filterMap KtpMsg.cmdLine <+: all.map cbytes
  logged : client.ctx.ktp.toServer = client.ctx.log.filterMap Spoken.message
  /-- The program succeeds only if the last command did. -/
  truth : client.stopped = true → client.ctx.exitStatus = 0 → Spoken.LastAcked client.ctx.log 0

/-- What a callback of a batch client keeps. -/
structure Sound (opts : ClientOpts) (all : List String) (client : Client) : Prop where
  batch : Ctx.Batch opts all client.ctx
  logged : client.ctx.Logged
  running : client.stopped = false → client.ctx.ktp.done = false
  answered : client.stopped = true → client.ctx.ktp.state ≠ .waitForCmd

theorem cmds_eq {ctx : Ctx} (h : ctx.Logged) :
    ctx.ktp.toServer.filterMap KtpMsg.cmdLine = Spoken.cmds ctx.log := by
  rw [h, List.filterMap_filterMap]
  apply List.filterMap_congr
  intro entry _
  cases entry <;> rfl

theorem Sound.truthful (h : Sound opts all client) : Truthful opts all client := by
  refine ⟨h.batch.stops, h.batch.oneAtATime, ?_, h.logged, fun hstop hstatus => ?_⟩
  · rw [cmds_eq h.logged]
    exact ⟨_, h.batch.lines⟩
  · cases h.batch.phase with
    | unauthorized _ cmds => exact Spoken.lastAcked_of_cmds_nil cmds
    | waiting state => exact absurd state (h.answered hstop)
    | idle _ _ available acked =>
      have hzero : client.ctx.ktp.cmdRetcode = 0 := by
        by_contra hne
        unfold Ctx.exitStatus at hstatus
        rw [if_pos ⟨h.batch.mode, available, hne⟩] at hstatus
        exact absurd hstatus (by decide)
      exact hzero ▸ acked

/-- Reading the standard input leaves the log complete. -/
theorem logged_stdinCb {ctx : Ctx} {event : Ctx.StdinEvent} (hmode : ctx.mode ≠ .interactive)
    (h : ctx.Logged) : (ctx.stdinCb event).1.Logged := by
  have hskip : Ctx.Logged { ctx with stdin := ctx.stdin.skip (event.data ctx).length } := h
  unfold Ctx.stdinCb
  split
  · exact h
  · rw [if_neg fun hi => hmode hi.2]
    split
    · dsimp only
      split
      · exact hskip.call (f := fun ktp => ktp.sessionStdin (event.data ctx)) ⟨_, rfl⟩
      · split
        · exact h.call (f := Ktp.sessionStdinClose) ⟨_, rfl⟩
        · exact h
    · exact h

/-- The end of `server_ev`: the loop goes on unless the session is done or the connection is. -/
theorem serverEv_eq (ctx : Ctx) (event : SocketEvent) :
    ∃ start cut, start = (if event.pollout then ctx.asyncStdinSentCb else ctx) ∧
      cut = ((event.pollout && event.outFailed) || (event.pollin && event.inFailed) ||
        event.pollhup) ∧
      (serverEv ctx event).2 = !(cut || (start.dispatchAll (read event)).ktp.done) ∧
      ((serverEv ctx event).1 = start.dispatchAll (read event) ∨
        cut = true ∧ (serverEv ctx event).1 = ctx ∧ read event = []) := by
  refine ⟨_, _, rfl, rfl, ?_⟩
  unfold serverEv
  by_cases hout : (event.pollout && event.outFailed) = true
  · have hread : read event = [] := by
      unfold read
      rw [hout]
      simp
    rw [if_pos hout, hout]
    exact ⟨by simp, .inr ⟨by simp, rfl, hread⟩⟩
  · rw [if_neg hout, Bool.eq_false_iff.mpr hout]
    dsimp only
    by_cases hin : ((event.pollin && event.inFailed) || event.pollhup) = true
    · rw [if_pos hin, Bool.false_or, hin]
      exact ⟨by simp, .inl rfl⟩
    · rw [if_neg hin, Bool.false_or, Bool.eq_false_iff.mpr hin]
      exact ⟨by simp, .inl rfl⟩

theorem Sound.after {r : Ctx × Bool} {pollout stalls : Bool} (batch : Ctx.Batch opts all r.1)
    (logged : r.1.Logged) (running : r.2 = true → r.1.ktp.done = false)
    (answered : r.2 = false → r.1.ktp.state ≠ .waitForCmd) :
    Sound opts all (client.after pollout stalls r) where
  batch := batch
  logged := logged
  running := fun h => running ((Bool.not_eq_eq_eq_not.mp h).trans rfl)
  answered := fun h => answered ((Bool.not_eq_eq_eq_not.mp h).trans rfl)

/-- A callback for the socket. -/
theorem Sound.server {event : SocketEvent} {pollout stalls : Bool} (h : Sound opts all client)
    (hdone : client.ctx.ktp.done = false) (hmeets : client.Meets (.server event stalls)) :
    Sound opts all (client.after pollout stalls (serverEv client.ctx event)) := by
  obtain ⟨start, cut, hstart, hcut, hreturn, hctx⟩ :=
    serverEv_eq client.ctx event
  have hmeets' : start.MeetsAll cut (read event) := by
    rw [hstart, hcut]
    exact hmeets
  obtain ⟨hquiet, hktp, hlog⟩ : Ctx.Quietly client.ctx start ∧ start.ktp = client.ctx.ktp ∧
      start.log = client.ctx.log := by
    rw [hstart]
    split <;> exact ⟨.of_log_eq rfl rfl rfl rfl rfl rfl rfl, rfl, rfl⟩
  have hlogged : start.Logged := by
    unfold Ctx.Logged
    rw [hktp, hlog]
    exact h.logged
  have hnotDone : start.ktp.done = true → cut = true ∨ start.ktp.state = .idle := by
    intro hd
    rw [hktp, hdone] at hd
    exact absurd hd Bool.false_ne_true
  obtain ⟨hbatch, hend⟩ := (h.batch.quietly hquiet).dispatchAll hnotDone hmeets'
  have hanswered : (serverEv client.ctx event).2 = false →
      (start.dispatchAll (read event)).ktp.state ≠ .waitForCmd := by
    intro hfalse
    rw [hreturn, Bool.not_eq_false'] at hfalse
    exact hend (Bool.or_eq_true_iff.mp hfalse)
  have hrunning : (serverEv client.ctx event).2 = true →
      (start.dispatchAll (read event)).ktp.done = false := by
    intro htrue
    rw [hreturn, Bool.not_eq_true'] at htrue
    exact (Bool.or_eq_false_iff.mp htrue).2
  generalize serverEv client.ctx event = r at hctx hanswered hrunning
  rcases hctx with hctx | ⟨-, hctx, hread⟩
  · rw [← hctx] at hbatch hanswered hrunning
    exact .after hbatch (hctx ▸ hlogged.dispatchAll) hrunning hanswered
  · rw [hread] at hanswered
    refine .after (hctx ▸ h.batch) (hctx ▸ h.logged) (fun _ => hctx ▸ hdone) fun hstop => ?_
    rw [hctx, ← hktp]
    exact hanswered hstop

/-- A callback keeps what a batch client has to keep. -/
theorem Sound.step {event : Event} (h : Sound opts all client) (hmeets : client.Meets event)
    (hstep : client.step event = some client') : Sound opts all client' := by
  have hmode := h.batch.mode
  unfold Client.step at hstep
  split at hstep
  · exact absurd hstep nofun
  · rename_i hrunning
    have hdone := h.running (Bool.eq_false_iff.mpr hrunning)
    cases event with
    | server event stalls =>
      dsimp only at hstep
      split at hstep
      · exact absurd hstep nofun
      · cases hstep
        exact h.server hdone hmeets
    | stdin event stalls =>
      dsimp only at hstep
      split at hstep
      · cases hstep
        obtain ⟨hquiet, hreturn, hsame⟩ := Ctx.stdinCb_quietly hmode hmeets
        refine .after (h.batch.quietly hquiet) (logged_stdinCb hmode h.logged)
          (fun _ => hsame.trans hdone) fun hstop => ?_
        rw [hreturn] at hstop
        exact absurd hstop.symm Bool.false_ne_true
      · exact absurd hstep nofun
    | ctrlC stalls =>
      cases hstep
      have hreturn : client.ctx.ctrlCCb = (client.ctx, false) := if_pos hmode
      rw [hreturn]
      exact .after h.batch h.logged (fun _ => hdone) fun _ => hmeets
    | sigwinch width height stalls =>
      cases hstep
      have hwinch := Ctx.winch_quietly client.ctx width height
      refine .after (h.batch.quietly hwinch) ?_ (fun _ => hdone) fun hstop => absurd hstop nofun
      exact h.logged.call (f := fun ktp => ktp.sendWinchNotification width height) ⟨_, rfl⟩

theorem sound_start (opts : ClientOpts) {mode : ClientMode} (hmode : mode ≠ .interactive)
    (commands : List String) (files : List (Option Bytes)) (stdin : Bytes)
    (ttyStdin ttyStdout ttyStderr stalled : Bool) :
    Sound opts (Ctx.init opts mode commands files stdin ttyStdin ttyStdout ttyStderr).commands
      (start (.init opts mode commands files stdin ttyStdin ttyStdout ttyStderr) stalled) := by
  refine ⟨⟨hmode, rfl, rfl, List.pairwise_singleton _ _, ?_, ?_, ?_⟩, rfl, fun _ => rfl, nofun⟩
  · exact (Spoken.OneAtATime.snoc [] (fun before entry later h => absurd h (by simp)) rfl)
  · intro _ _ msg hmem
    exact absurd (List.mem_singleton.mp hmem) nofun
  · exact .unauthorized rfl rfl rfl rfl rfl

/-- A batch client stops at an exit and tells the truth about the last command, in every run in
which it gets the exit flag only when it has no more commands to send, in which a command that is
sent gets its last ack before the loop ends for another reason, and in which no byte of the
commands is read for a command. -/
theorem batch_truthful (opts : ClientOpts) {mode : ClientMode} (hmode : mode ≠ .interactive)
    (commands : List String) (files : List (Option Bytes)) (stdin : Bytes)
    (ttyStdin ttyStdout ttyStderr stalled : Bool) {events : List Event} {client : Client}
    (hrun : Runs.run step
      (start (.init opts mode commands files stdin ttyStdin ttyStdout ttyStderr) stalled) events =
        some client)
    (hmeets : Runs.Along step Meets
      (start (.init opts mode commands files stdin ttyStdin ttyStdout ttyStderr) stalled) events) :
    Truthful opts (Ctx.init opts mode commands files stdin ttyStdin ttyStdout ttyStderr).commands
      client := by
  have hstart := sound_start opts hmode commands files stdin ttyStdin ttyStdout ttyStderr stalled
  exact (Runs.run_along (fun _ _ _ h hmeets hstep => Sound.step h hmeets hstep) hstart hrun
    hmeets).truthful

section Samples

/-- The last ack of a command that succeeds. -/
def succeeded (exit : Bool) : KtpMsg := (KtpMsg.preform .cmdAck { exit }).addParam .retcode [0]

/-- The first command is answered with the exit flag. -/
def sampleExit : List Event :=
  [received [.preform .authAck {}] false, received [succeeded true] false]

/-- The second command is sent after the answer to the first, and is the one with the exit flag. -/
def sampleAnswers : List Event :=
  [received [.preform .authAck {}] false, received [succeeded false] false,
    received [succeeded true] false]

/-- The server closes the connection while a command is running. -/
def sampleHangup : List Event :=
  [received [.preform .authAck {}] false, .server ⟨false, false, true, false, false, []⟩ false]

/-- The context in which the loop starts. -/
def sampleStart (commands : List String) : Client :=
  start (.init sampleOpts .cmdline commands [] [] false false false) false

end Samples

/-- The second of two commands ends the session. -/
theorem batch_truthful_exit : ∃ client,
    Runs.run step (sampleStart ["show", "exit"]) sampleAnswers = some client ∧
    Spoken.cmds client.ctx.log = [cbytes "show", cbytes "exit"] ∧
    Truthful sampleOpts ["show", "exit"] client := by
  refine ⟨_, rfl, by decide, @batch_truthful sampleOpts .cmdline (by decide) ["show", "exit"] [] []
    false false false false sampleAnswers _ rfl ⟨⟨?_, nofun⟩, fun t ht => ?_⟩⟩
  · intro _ _
    refine ⟨rfl, fun m hm => ?_⟩
    exact absurd (List.mem_singleton.mp hm) nofun
  · cases ht
    refine ⟨⟨fun _ _ => ⟨rfl, fun m hm => ?_⟩, nofun⟩, fun t ht => ?_⟩
    · rcases List.mem_cons.mp hm with hsent | hm
      · exact absurd hsent nofun
      · rcases List.mem_cons.mp hm with hack | hm
        · obtain rfl := Spoken.ack.inj hack
          rfl
        · rcases List.mem_pair.mp hm with hsent | hsent <;> exact absurd hsent nofun
    cases ht
    refine ⟨⟨fun _ hne => absurd rfl hne, nofun⟩, fun t ht => ?_⟩
    cases ht
    trivial

/-- A client with a command left goes on after an exit. -/
theorem batch_not_truthful :
    ¬ ∀ (opts : ClientOpts) (mode : ClientMode), mode ≠ .interactive →
      ∀ (commands : List String) (files : List (Option Bytes)) (stdin : Bytes)
        (ttyStdin ttyStdout ttyStderr stalled : Bool) (events : List Event) (client : Client),
        Runs.run step
          (start (.init opts mode commands files stdin ttyStdin ttyStdout ttyStderr) stalled)
            events = some client →
        Truthful opts
          (Ctx.init opts mode commands files stdin ttyStdin ttyStdout ttyStderr).commands client := by
  intro h
  have hexit := h sampleOpts .cmdline (by decide) ["exit", "show"] [] [] false false false false
    sampleExit _ rfl
  have hline := List.pairwise_iff_getElem.mp hexit.stops 4 5 (by decide) (by decide) (by decide)
    (.inl rfl)
  exact absurd hline (Option.some_ne_none _)

/-- The program succeeds when the connection is lost before its only command has an ack. -/
example : (Runs.run step (sampleStart ["show"]) sampleHangup).map
    (fun client => (client.stopped, client.ctx.exitStatus, Spoken.cmds client.ctx.log)) =
      some (true, 0, [cbytes "show"]) := by
  decide

end Client

end Klish
