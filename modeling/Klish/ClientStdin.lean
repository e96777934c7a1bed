import Klish.ClientBatch
import Klish.KtpAnswer

/-!
# The standard input as a list of commands

In `MODE_STDIN` the commands are the lines of the standard input. The handler of the standard input
is added whenever the socket has been written, so it may read bytes for a command that needs them,
and these bytes are in no line then.
-/

namespace Klish

namespace Ctx

variable {ctx ctx' : Ctx} {msg : KtpMsg} {sys : ClientSys}

/-- Bytes of the standard input are read for a command in `MODE_STDIN`. -/
def Leaks (ctx : Ctx) (event : StdinEvent) : Prop :=
  ctx.mode = .stdin ∧ event.obufLen ≤ obufLimit ∧ ctx.ktp.state = .waitForCmd ∧
    ctx.ktp.cmdFeatures.needStdin = true ∧ event.data ctx ≠ []

/-- The client has sent no bytes of the standard input, and the commands in their order. -/
structure Steady (ctx ctx' : Ctx) : Prop where
  mode : ctx'.mode = ctx.mode
  sent : ∃ more, ctx'.ktp.toServer = ctx.ktp.toServer ++ more ∧ (∀ msg ∈ more, msg.cmd ≠ .stdin) ∧
    more.filterMap KtpMsg.cmdLine ++ ctx'.commands.map cbytes = ctx.commands.map cbytes

namespace Steady

theorem trans {ctx'' : Ctx} (h : Steady ctx ctx') (h' : Steady ctx' ctx'') : Steady ctx ctx'' := by
  obtain ⟨more, hsent, hmore, hlines⟩ := h.sent
  obtain ⟨more', hsent', hmore', hlines'⟩ := h'.sent
  refine ⟨h'.mode.trans h.mode, more ++ more', ?_, ?_, ?_⟩
  · rw [hsent', hsent, List.append_assoc]
  · intro msg hmsg
    exact (List.mem_append.mp hmsg).elim (hmore msg) (hmore' msg)
  · rw [List.filterMap_append, List.append_assoc, hlines', hlines]

/-- Nothing is sent. -/
theorem of_eq (mode : ctx'.mode = ctx.mode) (toServer : ctx'.ktp.toServer = ctx.ktp.toServer)
    (commands : ctx'.commands = ctx.commands) : Steady ctx ctx' :=
  ⟨mode, [], by rw [toServer, List.append_nil], fun _ h => absurd h List.not_mem_nil,
    by rw [commands]; rfl⟩

theorem refl (ctx : Ctx) : Steady ctx ctx := .of_eq rfl rfl rfl

/-- One message is sent that has nothing to do with the standard input. -/
theorem call {f : Ktp → Ktp} (hsent : (f ctx.ktp).toServer = ctx.ktp.toServer ++ [msg])
    (hcmd : msg.cmd ≠ .cmd) (hstdin : msg.cmd ≠ .stdin) : Steady ctx (ctx.call f) := by
  refine ⟨rfl, [msg], hsent, fun m hm => List.mem_singleton.mp hm ▸ hstdin, ?_⟩
  have hnone : [msg].filterMap KtpMsg.cmdLine = [] := by
    simp [KtpMsg.cmdLine, hcmd]
  rw [hnone]
  rfl

end Steady

theorem winch_steady (ctx : Ctx) (width height : ℕ) :
    Steady ctx (ctx.call fun ktp => ktp.sendWinchNotification width height) :=
  .call rfl nofun nofun

theorem params_steady (ctx : Ctx) (msg : KtpMsg) :
    Steady ctx ((ctx.processPromptParam msg).processHotkeyParam msg) := by
  unfold processHotkeyParam
  split <;> exact .of_eq rfl rfl rfl

/-- The next command is the next line. -/
theorem next_steady (hmode : ctx.mode ≠ .interactive) : Steady ctx (ctx.sendNextCommand sys) := by
  obtain ⟨next, hsame, hnext⟩ := sendNextCommand_spec sys hmode
  rcases hnext with ⟨hnil, hsent, hrest⟩ | ⟨line, hcons, hsent⟩
  · rw [hsent]
    have hdone : Steady next next.setDone := .of_eq rfl rfl rfl
    exact (Steady.of_eq hsame.mode (by rw [hsame.ktp]) (hrest.trans hnil.symm)).trans hdone
  · rw [hsent]
    refine ⟨hsame.mode, [cmdMsg line ctx.opts.dryRun], ?_, ?_, ?_⟩
    · show (next.ktp.sessionCmd line ctx.opts.dryRun).toServer = _
      rw [hsame.ktp]
      rfl
    · intro m hm
      rw [List.mem_singleton.mp hm]
      exact nofun
    · have hline : [cmdMsg line ctx.opts.dryRun].filterMap KtpMsg.cmdLine = [cbytes line] := by
        simp [cmdLine_cmdMsg]
      rw [hline, hcons]
      rfl

theorem stdoutCb_steady (ctx : Ctx) (sys : ClientSys) : Steady ctx (ctx.stdoutCb sys) :=
  stdoutCb_rel .refl Steady.trans (fun _ _ => .of_eq rfl rfl rfl) fun _ => .call rfl nofun nofun

theorem dispatch_steady (hmode : ctx.mode ≠ .interactive) : Steady ctx (ctx.dispatch msg sys) := by
  have hktp : Steady ctx { ctx with ktp := ctx.ktp.dispatch msg } :=
    .of_eq rfl (Channel.dispatch_toServer ctx.ktp msg) rfl
  have hnote : Steady ctx (ctx.noteAck msg) :=
    .of_eq rfl (Channel.dispatch_toServer ctx.ktp msg) rfl
  unfold Ctx.dispatch
  split
  · split
    · have hparams := hnote.trans (params_steady _ msg)
      unfold authAckCb
      dsimp only
      split
      · exact hparams
      · have hwinch := hparams.trans (winch_steady _ sys.width sys.height)
        rw [if_neg (by rw [hwinch.mode]; exact hmode)]
        exact hwinch.trans (next_steady (by rw [hwinch.mode]; exact hmode))
    · exact .refl ctx
  · split
    · split
      · unfold cmdIncompletedAckCb
        split
        · exact hnote
        · split
          · exact hnote.trans (.of_eq rfl rfl rfl)
          · exact hnote
      · have hpager : Steady ctx { ctx.noteAck msg with pagerWorking := none } :=
          hnote.trans (.of_eq rfl rfl rfl)
        have hparams := hpager.trans (params_steady _ msg)
        unfold cmdAckCb
        dsimp only
        split
        · exact hparams.trans (.of_eq rfl rfl rfl)
        · rw [if_neg (by rw [hparams.mode]; exact hmode)]
          exact hparams.trans (next_steady (by rw [hparams.mode]; exact hmode))
    · exact .refl ctx
  · split
    · exact hnote.trans (.of_eq rfl rfl rfl)
    · exact .refl ctx
  · split
    · exact hnote.trans (.of_eq rfl rfl rfl)
    · exact .refl ctx
  · dsimp only
    split
    · exact hktp.trans (stdoutCb_steady _ sys)
    · exact hktp
  · exact hktp

theorem dispatchAll_steady {msgs : List (KtpMsg × ClientSys)} (hmode : ctx.mode ≠ .interactive) :
    Steady ctx (ctx.dispatchAll msgs) := by
  induction msgs generalizing ctx with
  | nil => exact .refl ctx
  | cons m msgs ih =>
    have hfirst : Steady ctx (ctx.dispatch m.1 m.2) := dispatch_steady hmode
    exact hfirst.trans (ih (hfirst.mode ▸ hmode))

/-- The handler of the standard input, if it does not leak. -/
theorem stdinCb_steady {event : StdinEvent} (hmode : ctx.mode = .stdin)
    (hleak : ¬ ctx.Leaks event) : Steady ctx (ctx.stdinCb event).1 := by
  have hwatched (ctx : Ctx) : Steady ctx { ctx with stdinWatched := false } := .of_eq rfl rfl rfl
  have hclose : Steady ctx (ctx.call Ktp.sessionStdinClose) := .call rfl nofun nofun
  unfold stdinCb
  split
  · exact hwatched ctx
  · rename_i hobuf
    rw [if_neg (by rw [hmode]; exact fun h => absurd h.2 nofun)]
    split
    · rename_i hneed
      dsimp only
      rw [if_neg fun hdata => hleak ⟨hmode, Nat.le_of_not_lt hobuf, hneed.1, hneed.2, hdata⟩]
      split
      · exact hclose.trans (hwatched _)
      · exact .refl ctx
    · exact hwatched ctx

/-- A leak sends a message with the bytes. -/
theorem stdinCb_leaks {event : StdinEvent} (hleak : ctx.Leaks event) :
    ∃ msg ∈ (ctx.stdinCb event).1.ktp.toServer, msg.cmd = .stdin := by
  obtain ⟨hmode, hobuf, hstate, hneed, hdata⟩ := hleak
  unfold stdinCb
  rw [if_neg (Nat.not_lt.mpr hobuf), if_neg (by rw [hmode]; exact fun h => absurd h.2 nofun),
    if_pos ⟨hstate, hneed⟩]
  dsimp only
  rw [if_pos hdata]
  exact ⟨_, List.mem_append_right _ List.mem_cons_self, rfl⟩

end Ctx

namespace Client

variable {client client' : Client}

/-- The standard input is nothing but a list of commands. -/
structure OnlyCommands (input : Bytes) (client : Client) : Prop where
  /-- No byte of it is sent for a command. -/
  noStdin : ∀ msg ∈ client.ctx.ktp.toServer, msg.cmd ≠ .stdin
  /-- The commands that were sent and the lines that are left are the lines of the input. -/
  lines : client.ctx.ktp.toServer.filterMap KtpMsg.cmdLine ++
    ((lines 10 client.ctx.stdin.all).map cstr).map cbytes = ((lines 10 input).map cstr).map cbytes

/-- The standard input is not read for a command. -/
def StdinKept (client : Client) : Event → Prop
  | .stdin event _ => ¬ client.ctx.Leaks event
  | .server .. | .ctrlC _ | .sigwinch .. => True

/-- What is kept in `MODE_STDIN`. -/
structure StdinInv (input : Bytes) (client : Client) : Prop where
  mode : client.ctx.mode = .stdin
  only : OnlyCommands input client

theorem commands_stdin {ctx : Ctx} (hmode : ctx.mode = .stdin) :
    ctx.commands = (Klish.lines 10 ctx.stdin.all).map cstr := by
  unfold Ctx.commands
  rw [hmode]

theorem StdinInv.steady {input : Bytes} (h : StdinInv input client)
    (hs : Ctx.Steady client.ctx client'.ctx) : StdinInv input client' := by
  obtain ⟨more, hsent, hmore, hlines⟩ := hs.sent
  have hmode : client'.ctx.mode = .stdin := hs.mode.trans h.mode
  refine ⟨hmode, ?_, ?_⟩
  · intro msg hmsg
    rw [hsent] at hmsg
    exact (List.mem_append.mp hmsg).elim (h.only.noStdin msg) (hmore msg)
  · rw [commands_stdin h.mode, commands_stdin hmode] at hlines
    rw [hsent, List.filterMap_append, List.append_assoc, hlines]
    exact h.only.lines

theorem serverEv_steady {ctx : Ctx} {event : SocketEvent} (hmode : ctx.mode ≠ .interactive) :
    Ctx.Steady ctx (serverEv ctx event).1 := by
  have hstart : Ctx.Steady ctx (if event.pollout then ctx.asyncStdinSentCb else ctx) := by
    split <;> exact .of_eq rfl rfl rfl
  have hall : Ctx.Steady ctx ((if event.pollout then ctx.asyncStdinSentCb else ctx).dispatchAll
      (read event)) := hstart.trans (Ctx.dispatchAll_steady (hstart.mode ▸ hmode))
  unfold serverEv
  split
  · exact .refl ctx
  · dsimp only
    split <;> exact hall

theorem step_steady {event : Event} (hmode : client.ctx.mode = .stdin)
    (hkept : client.StdinKept event) (hstep : client.step event = some client') :
    Ctx.Steady client.ctx client'.ctx := by
  have hbatch : client.ctx.mode ≠ .interactive := by
    rw [hmode]
    exact nofun
  unfold step at hstep
  split at hstep
  · exact absurd hstep nofun
  · cases event with
    | server event stalls =>
      dsimp only at hstep
      split at hstep
      · exact absurd hstep nofun
      · cases hstep
        exact serverEv_steady hbatch
    | stdin event stalls =>
      dsimp only at hstep
      split at hstep
      · cases hstep
        exact Ctx.stdinCb_steady hmode hkept
      · exact absurd hstep nofun
    | ctrlC stalls =>
      cases hstep
      have hreturn : client.ctx.ctrlCCb = (client.ctx, false) := if_pos hbatch
      rw [hreturn]
      exact .refl _
    | sigwinch width height stalls =>
      cases hstep
      exact Ctx.winch_steady client.ctx width height

theorem stdinKept_of_only {event : Event} {input : Bytes}
    (hstep : client.step event = some client') (honly : OnlyCommands input client') :
    client.StdinKept event := by
  cases event with
  | stdin event stalls =>
    intro hleak
    unfold step at hstep
    split at hstep
    · exact absurd hstep nofun
    · dsimp only at hstep
      split at hstep
      · cases hstep
        obtain ⟨msg, hmsg, hcmd⟩ := Ctx.stdinCb_leaks hleak
        exact honly.noStdin msg hmsg hcmd
      · exact absurd hstep nofun
  | server => trivial
  | ctrlC => trivial
  | sigwinch => trivial

/-- The standard input is nothing but a list of commands in a run if and only if it is never read
while a command that needs it is running. -/
theorem onlyCommands_iff (opts : ClientOpts) (input : Bytes)
    (ttyStdin ttyStdout ttyStderr stalled : Bool) {events : List Event} {client : Client}
    (hrun : Runs.run step
      (start (.init opts .stdin [] [] input ttyStdin ttyStdout ttyStderr) stalled) events =
        some client) :
    (∀ n t, Runs.run step
      (start (.init opts .stdin [] [] input ttyStdin ttyStdout ttyStderr) stalled)
        (events.take n) = some t → OnlyCommands input t) ↔
      Runs.Along step StdinKept
        (start (.init opts .stdin [] [] input ttyStdin ttyStdout ttyStderr) stalled) events := by
  apply Runs.forall_states_iff_along (I := StdinInv input) fun _ h => h.only
  · intro s a t h hkept hstep
    exact h.steady (step_steady h.mode hkept hstep)
  · intro s a t _ hstep honly
    exact stdinKept_of_only hstep honly
  · refine ⟨rfl, fun msg hmsg => ?_, rfl⟩
    rw [List.mem_singleton.mp hmsg]
    exact nofun
  · exact hrun

section Samples

def sampleOpts : ClientOpts := ⟨false, false, false⟩

def sampleSys : ClientSys := ⟨0, true, true, 80, 24⟩

/-- The messages of one read. -/
def received (msgs : List KtpMsg) (stalls : Bool) : Event :=
  .server ⟨false, true, false, false, false, msgs.map fun msg => (msg, sampleSys)⟩ stalls

/-- Two lines. -/
def sampleInput : Bytes := [97, 10, 98, 10]

def sampleStdin : Client := start (.init sampleOpts .stdin [] [] sampleInput false false false) false

/-- The first command needs the standard input. The socket takes it only later. -/
def sampleRunning : List Event :=
  [received [.preform .authAck {}] true, .server ⟨true, false, false, false, false, []⟩ false,
    received [.preform .cmdAck { incompleted := true, needStdin := true }] false]

/-- The second line arrives. -/
def sampleArrival : Event := .stdin ⟨false, 0, 2, none⟩ false

end Samples

/-- The standard input is not read while the first command is running. -/
theorem onlyCommands_running :
    ∃ client, Runs.run step sampleStdin sampleRunning = some client ∧
      OnlyCommands sampleInput client := by
  refine ⟨_, rfl, (@onlyCommands_iff sampleOpts sampleInput false false false false
    sampleRunning _ rfl).mpr ⟨trivial, fun t ht => ?_⟩ 3 _ rfl⟩
  cases ht
  refine ⟨trivial, fun t ht => ?_⟩
  cases ht
  refine ⟨trivial, fun t ht => ?_⟩
  cases ht
  trivial

/-- The second line goes to the first command. -/
theorem not_onlyCommands :
    ¬ ∀ (opts : ClientOpts) (input : Bytes) (ttyStdin ttyStdout ttyStderr stalled : Bool)
      (events : List Event) (client : Client), Runs.run step
        (start (.init opts .stdin [] [] input ttyStdin ttyStdout ttyStderr) stalled) events =
          some client → OnlyCommands input client := by
  intro h
  have hrun : ∃ client, Runs.run step sampleStdin (sampleRunning ++ [sampleArrival]) = some client :=
    ⟨_, rfl⟩
  obtain ⟨client, hrun⟩ := hrun
  have honly := h sampleOpts sampleInput false false false false _ _ hrun
  obtain ⟨mid, hmid, hlast⟩ := Runs.run_append.mp hrun
  obtain ⟨last, hstep, hnil⟩ := Runs.run_cons.mp hlast
  cases hmid
  cases hnil
  exact stdinKept_of_only hstep honly ⟨rfl, by decide, rfl, rfl, nofun⟩

end Client

end Klish
