import Klish.Client
import Klish.Lib.Runs

/-!
# The batch modes of the client

In the modes that are not interactive the client sends its commands one after another, each from
the callback of an ack. `Ctx.Batch` is what every message keeps.
-/

namespace Klish

namespace KtpMsg

/-- The return code that the session takes from the last ack of a command. -/
def ackRetcode (msg : KtpMsg) : ℤ := (Ktp.msgRetcode msg).getD (if msg.status.error then -1 else 0)

theorem msgRetcode_nonneg (msg : KtpMsg) {r : ℤ} (h : Ktp.msgRetcode msg = some r) : 0 ≤ r := by
  unfold Ktp.msgRetcode at h
  obtain ⟨data, -, hhead⟩ := Option.bind_eq_some_iff.mp h
  obtain ⟨b, -, rfl⟩ := Option.map_eq_some_iff.mp hhead
  exact Int.natCast_nonneg _

/-- The last ack of a command. -/
def finalAck (msg : KtpMsg) : Bool := msg.cmd == .cmdAck && !msg.status.incompleted

/-- The line of a command. -/
def cmdLine (msg : KtpMsg) : Option Bytes := if msg.cmd = .cmd then msg.param .line else none

end KtpMsg

namespace Spoken

/-- The line of a command that is sent. -/
def cmdLine : Spoken → Option Bytes
  | .sent msg => msg.cmdLine
  | .ack _ => none

/-- The last ack of a command. -/
def final : Spoken → Bool
  | .sent _ => false
  | .ack msg => msg.finalAck

/-- After this ack the client must not send a command. -/
def Stops (opts : ClientOpts) : Spoken → Prop
  | .sent _ => False
  | .ack msg => msg.status.exit = true ∨
      (opts.stopOnError = true ∧ msg.finalAck = true ∧ msg.ackRetcode ≠ 0)

/-- Neither a command nor the last ack of one. -/
def Quiet (entry : Spoken) : Prop := entry.cmdLine = none ∧ entry.final = false

/-- The commands that are sent. -/
def cmds (log : List Spoken) : List Bytes := log.filterMap cmdLine

/-- Each command is sent after the last ack of the one before. -/
def OneAtATime (log : List Spoken) : Prop :=
  ∀ before entry later, log = before ++ entry :: later → entry.cmdLine ≠ none →
    (cmds before).length = before.countP final

/-- The last command, if there is one, has an ack with this return code. -/
def LastAcked (log : List Spoken) (retcode : ℤ) : Prop :=
  ∀ before entry later, log = before ++ entry :: later → entry.cmdLine ≠ none → cmds later = [] →
    ∃ msg, .ack msg ∈ later ∧ msg.finalAck = true ∧ msg.ackRetcode = retcode

variable {opts : ClientOpts} {log more : List Spoken} {entry : Spoken} {retcode : ℤ}

@[simp] theorem cmds_append : cmds (log ++ more) = cmds log ++ cmds more := List.filterMap_append

theorem cmds_eq_nil (h : ∀ entry ∈ more, Quiet entry) : cmds more = [] :=
  List.filterMap_eq_nil_iff.mpr fun entry hentry => (h entry hentry).1

theorem countP_final_eq_zero (h : ∀ entry ∈ more, Quiet entry) : more.countP final = 0 := by
  rw [List.countP_eq_zero]
  intro entry hentry hfinal
  exact absurd hfinal (by rw [(h entry hentry).2]; exact Bool.false_ne_true)

/-- What stands before an entry of a longer list, if the entry is not in the end. -/
theorem split_append {before later : List Spoken}
    (hsplit : log ++ more = before ++ entry :: later) (hmore : entry ∉ more) :
    ∃ rest, log = before ++ entry :: rest ∧ later = rest ++ more := by
  rcases List.append_eq_append_iff.mp hsplit with ⟨mid, hbefore, hmid⟩ | ⟨mid, hlog, hmid⟩
  · exact absurd (hmid ▸ List.mem_append_right mid List.mem_cons_self) hmore
  · cases mid with
    | nil =>
      rw [List.nil_append] at hmid
      exact absurd (hmid ▸ List.mem_cons_self) hmore
    | cons e rest =>
      rw [List.cons_append] at hmid
      cases hmid
      exact ⟨rest, hlog, rfl⟩

theorem OneAtATime.append (h : OneAtATime log) (hmore : ∀ e ∈ more, e.cmdLine = none) :
    OneAtATime (log ++ more) := by
  intro before entry later hsplit hentry
  obtain ⟨rest, hlog, -⟩ := split_append hsplit fun hmem => hentry (hmore entry hmem)
  exact h before entry rest hlog hentry

variable (log) in
/-- A command is sent when all commands before have had their last ack. -/
theorem OneAtATime.snoc (h : OneAtATime log) (hall : (cmds log).length = log.countP final) :
    OneAtATime (log ++ [entry]) := by
  intro before entry' later hsplit hentry
  by_cases hmem : entry' ∈ [entry]
  · cases List.eq_nil_or_concat later with
    | inl hnil =>
      subst hnil
      obtain ⟨hbefore, -⟩ := List.append_inj' hsplit rfl
      exact hbefore ▸ hall
    | inr hconcat =>
      obtain ⟨later', last, rfl⟩ := hconcat
      rw [List.concat_eq_append, ← List.cons_append, ← List.append_assoc] at hsplit
      obtain ⟨hlog, -⟩ := List.append_inj' hsplit rfl
      exact h before entry' later' hlog hentry
  · obtain ⟨rest, hlog, -⟩ := split_append hsplit hmem
    exact h before entry' rest hlog hentry

theorem LastAcked.append (h : LastAcked log retcode) (hmore : ∀ e ∈ more, e.cmdLine = none) :
    LastAcked (log ++ more) retcode := by
  intro before entry later hsplit hentry hlater
  obtain ⟨rest, hlog, rfl⟩ := split_append hsplit fun hmem => hentry (hmore entry hmem)
  rw [cmds_append] at hlater
  obtain ⟨msg, hmem, hmsg⟩ := h before entry rest hlog hentry (List.append_eq_nil_iff.mp hlater).1
  exact ⟨msg, List.mem_append_left _ hmem, hmsg⟩

/-- The last ack of the last command. -/
theorem lastAcked_ack {msg : KtpMsg} (hfinal : msg.finalAck = true) :
    LastAcked (log ++ [.ack msg]) msg.ackRetcode := by
  intro before entry later hsplit hentry _
  have hne : entry ∉ [Spoken.ack msg] := by
    intro hmem
    rw [List.mem_singleton.mp hmem] at hentry
    exact hentry rfl
  obtain ⟨rest, -, rfl⟩ := split_append hsplit hne
  exact ⟨msg, List.mem_append_right _ List.mem_cons_self, hfinal, rfl⟩

theorem lastAcked_of_cmds_nil (h : cmds log = []) : LastAcked log retcode := by
  rintro before entry later rfl hentry _
  rw [cmds_append] at h
  have hcons := (List.append_eq_nil_iff.mp h).2
  unfold cmds at hcons
  rw [List.filterMap_eq_nil_iff] at hcons
  exact absurd (hcons entry List.mem_cons_self) hentry

end Spoken

namespace Ctx

/-- The commands that have not been sent yet. -/
def commands (ctx : Ctx) : List String :=
  match ctx.mode with
  | .cmdline => ctx.cmdlineIter
  | .files =>
    ((ctx.filesFd.map fun fd => lines 10 fd.all).getD [] ++
      ctx.filesIter.flatMap fun file => lines 10 (file.getD [])).map cstr
  | .stdin => (lines 10 ctx.stdin.all).map cstr
  | .interactive => []

variable {ctx ctx' : Ctx} {msg : KtpMsg} {sys : ClientSys} {ahead : ℕ}

variable (ahead) in
theorem openNext_spec (files : List (Option Bytes)) :
    (files.flatMap (fun file => lines 10 (file.getD [])) = [] ∧
      openNext ahead files = (none, none, [])) ∨
    ∃ line fd rest, openNext ahead files = (some line, some fd, rest) ∧
      files.flatMap (fun file => lines 10 (file.getD [])) =
        line :: (lines 10 fd.all ++ rest.flatMap fun file => lines 10 (file.getD [])) := by
  induction files with
  | nil => exact .inl ⟨rfl, rfl⟩
  | cons file files ih =>
    cases file with
    | none => exact ih
    | some data =>
      rw [List.flatMap_cons]
      rcases (LineReader.mk [] data).getline_spec 10 ahead with ⟨hall, hline, -⟩ | ⟨line, fd, hline, hlines⟩
      · have hdata : data = [] := hall
        have hopen : openNext ahead (some data :: files) = openNext ahead files := by
          rw [openNext]
          split
          · rfl
          · rename_i hsome
            rw [hsome] at hline
            exact absurd hline (Option.some_ne_none _)
        rw [hopen, hdata]
        exact ih
      · have hopen : openNext ahead (some data :: files) = (some line, some fd, files) := by
          rw [openNext, hline]
        refine .inr ⟨line, fd, files, hopen, ?_⟩
        have hdata : lines 10 data = line :: lines 10 fd.all := hlines
        rw [Option.getD_some, hdata]
        rfl

variable (ahead) in
theorem filesGetline_spec (filesFd : Option (LineReader UInt8)) (files : List (Option Bytes)) :
    ((filesFd.map fun fd => lines 10 fd.all).getD [] = [] ∧
      files.flatMap (fun file => lines 10 (file.getD [])) = [] ∧
      filesGetline ahead filesFd files = (none, none, [])) ∨
    ∃ line fd rest, filesGetline ahead filesFd files = (some line, some fd, rest) ∧
      (filesFd.map fun fd => lines 10 fd.all).getD [] ++
          files.flatMap (fun file => lines 10 (file.getD [])) =
        line :: (lines 10 fd.all ++ rest.flatMap fun file => lines 10 (file.getD [])) := by
  cases filesFd with
  | none =>
    rcases openNext_spec ahead files with ⟨hnil, hopen⟩ | hopen
    · exact .inl ⟨rfl, hnil, hopen⟩
    · exact .inr hopen
  | some fd =>
    rw [Option.map_some, Option.getD_some]
    rcases fd.getline_spec 10 ahead with ⟨hall, hline, -⟩ | ⟨line, fd', hline, hlines⟩
    · have hnext : filesGetline ahead (some fd) files = openNext ahead files := by
        rw [filesGetline]
        split
        · rfl
        · rename_i hsome
          rw [hsome] at hline
          exact absurd hline (Option.some_ne_none _)
      rw [hnext, hall, lines_nil]
      rcases openNext_spec ahead files with ⟨hnil, hopen⟩ | hopen
      · exact .inl ⟨rfl, hnil, hopen⟩
      · exact .inr hopen
    · refine .inr ⟨line, fd', files, ?_, ?_⟩
      · rw [filesGetline, hline]
      · rw [hlines]
        rfl

/-- The fields that are not about where the commands come from. -/
structure SameButSource (ctx ctx' : Ctx) : Prop where
  ktp : ctx'.ktp = ctx.ktp
  opts : ctx'.opts = ctx.opts
  mode : ctx'.mode = ctx.mode
  log : ctx'.log = ctx.log

variable (ahead) in
/-- The commands are taken in their order, whatever is read ahead. -/
theorem nextLine_spec (hmode : ctx.mode ≠ .interactive) :
    ∃ next, SameButSource ctx next ∧
      ((ctx.commands = [] ∧ ctx.nextLine ahead = (none, next) ∧ next.commands = []) ∨
        ∃ line, ctx.nextLine ahead = (some line, next) ∧ ctx.commands = line :: next.commands) := by
  refine ⟨(ctx.nextLine ahead).2, ?_, ?_⟩
  · unfold nextLine
    split <;> exact ⟨rfl, rfl, rfl, rfl⟩
  · unfold nextLine commands
    split
    · rename_i hcmdline
      simp only [hcmdline]
      cases ctx.cmdlineIter with
      | nil => exact .inl ⟨rfl, rfl, rfl⟩
      | cons line rest => exact .inr ⟨line, rfl, rfl⟩
    · rename_i hfiles
      simp only [hfiles]
      rcases filesGetline_spec ahead ctx.filesFd ctx.filesIter with
        ⟨hfd, hiter, hline⟩ | ⟨line, fd, rest, hline, hlines⟩
      · rw [hfd, hiter, hline]
        exact .inl ⟨rfl, rfl, rfl⟩
      · rw [hlines, hline]
        exact .inr ⟨cstr line, rfl, rfl⟩
    · rename_i hstdin
      simp only [hstdin]
      rcases ctx.stdin.getline_spec 10 ahead with ⟨hall, hline, hnext⟩ | ⟨line, fd, hline, hlines⟩
      · rw [hall, hline, hnext]
        exact .inl ⟨rfl, rfl, rfl⟩
      · rw [hlines, hline]
        exact .inr ⟨cstr line, rfl, rfl⟩
    · rename_i hinteractive
      exact absurd hinteractive hmode

/-- The message of a command. -/
def cmdMsg (line : String) (dryRun : Bool) : KtpMsg :=
  (KtpMsg.preform .cmd { dryRun }).addParam .line (cbytes line)

theorem call_sessionCmd (line : String) (dryRun : Bool) :
    (ctx.call fun ktp => ktp.sessionCmd line dryRun).log = ctx.log ++ [.sent (cmdMsg line dryRun)] := by
  simp [call, Ktp.sessionCmd, Ktp.req, Ktp.send, Ktp.dropState, cmdMsg]

theorem cmdLine_cmdMsg (line : String) (dryRun : Bool) :
    (cmdMsg line dryRun).cmdLine = some (cbytes line) := by
  simp [KtpMsg.cmdLine, cmdMsg, KtpMsg.param, KtpMsg.addParam, KtpMsg.preform]

variable (sys) in
/-- The next command is sent, or there are no more and the session is done. -/
theorem sendNextCommand_spec (hmode : ctx.mode ≠ .interactive) :
    ∃ next, SameButSource ctx next ∧
      ((ctx.commands = [] ∧ ctx.sendNextCommand sys = next.setDone ∧ next.commands = []) ∨
        ∃ line, ctx.commands = line :: next.commands ∧ ctx.sendNextCommand sys =
          next.call fun ktp => ktp.sessionCmd line ctx.opts.dryRun) := by
  obtain ⟨next, hsame, hnext⟩ := nextLine_spec sys.ahead hmode
  refine ⟨next, hsame, ?_⟩
  unfold sendNextCommand
  rw [if_neg hmode]
  rcases hnext with ⟨hnil, hline, hrest⟩ | ⟨line, hline, hcons⟩
  · refine .inl ⟨hnil, ?_, hrest⟩
    rw [hline]
  · refine .inr ⟨line, hcons, ?_⟩
    rw [hline, ← hsame.opts]

/-- Nothing has been said about the commands. -/
structure Quietly (ctx ctx' : Ctx) : Prop where
  mode : ctx'.mode = ctx.mode
  opts : ctx'.opts = ctx.opts
  commands : ctx'.commands = ctx.commands
  state : ctx'.ktp.state = ctx.ktp.state
  available : ctx'.ktp.cmdRetcodeAvailable = ctx.ktp.cmdRetcodeAvailable
  retcode : ctx'.ktp.cmdRetcode = ctx.ktp.cmdRetcode
  log : ∃ more, ctx'.log = ctx.log ++ more ∧ ∀ entry ∈ more, entry.Quiet

namespace Quietly

theorem trans {ctx'' : Ctx} (h : Quietly ctx ctx') (h' : Quietly ctx' ctx'') : Quietly ctx ctx'' := by
  obtain ⟨more, hlog, hmore⟩ := h.log
  obtain ⟨more', hlog', hmore'⟩ := h'.log
  refine ⟨h'.mode.trans h.mode, h'.opts.trans h.opts, h'.commands.trans h.commands,
    h'.state.trans h.state, h'.available.trans h.available, h'.retcode.trans h.retcode,
    more ++ more', ?_, ?_⟩
  · rw [hlog', hlog, List.append_assoc]
  · intro entry hentry
    exact (List.mem_append.mp hentry).elim (hmore entry) (hmore' entry)

/-- Nothing is said at all. -/
theorem of_log_eq (mode : ctx'.mode = ctx.mode) (opts : ctx'.opts = ctx.opts)
    (commands : ctx'.commands = ctx.commands) (state : ctx'.ktp.state = ctx.ktp.state)
    (available : ctx'.ktp.cmdRetcodeAvailable = ctx.ktp.cmdRetcodeAvailable)
    (retcode : ctx'.ktp.cmdRetcode = ctx.ktp.cmdRetcode) (log : ctx'.log = ctx.log) :
    Quietly ctx ctx' :=
  ⟨mode, opts, commands, state, available, retcode, [], by rw [log, List.append_nil],
    fun _ h => absurd h List.not_mem_nil⟩

/-- One message is sent, and the session does not change otherwise. -/
theorem call {f : Ktp → Ktp} (hsent : (f ctx.ktp).toServer = ctx.ktp.toServer ++ [msg])
    (hstate : (f ctx.ktp).state = ctx.ktp.state)
    (havailable : (f ctx.ktp).cmdRetcodeAvailable = ctx.ktp.cmdRetcodeAvailable)
    (hretcode : (f ctx.ktp).cmdRetcode = ctx.ktp.cmdRetcode) (hmsg : msg.cmd ≠ .cmd) :
    Quietly ctx (ctx.call f) := by
  refine ⟨rfl, rfl, rfl, hstate, havailable, hretcode, [.sent msg], ?_, ?_⟩
  · simp [Ctx.call, hsent]
  · intro entry hentry
    rw [List.mem_singleton.mp hentry]
    exact ⟨if_neg hmsg, rfl⟩

end Quietly

theorem prompt_hotkey_quietly (ctx : Ctx) (msg : KtpMsg) :
    Quietly ctx ((ctx.processPromptParam msg).processHotkeyParam msg) := by
  unfold processHotkeyParam
  split <;> exact .of_log_eq rfl rfl rfl rfl rfl rfl rfl

theorem winch_quietly (ctx : Ctx) (width height : ℕ) :
    Quietly ctx (ctx.call fun ktp => ktp.sendWinchNotification width height) :=
  .call rfl rfl rfl rfl nofun

theorem stdoutCb_quietly (ctx : Ctx) (sys : ClientSys) : Quietly ctx (ctx.stdoutCb sys) :=
  stdoutCb_rel (fun _ => .of_log_eq rfl rfl rfl rfl rfl rfl rfl) Quietly.trans
    (fun _ _ => .of_log_eq rfl rfl rfl rfl rfl rfl rfl) fun _ => .call rfl rfl rfl rfl nofun

theorem stdoutCb_done (ctx : Ctx) (sys : ClientSys) :
    (ctx.stdoutCb sys).ktp.done = ctx.ktp.done :=
  stdoutCb_rel (R := fun c c' => c'.ktp.done = c.ktp.done) (fun _ => rfl)
    (fun hab hbc => hbc.trans hab) (fun _ _ => rfl) fun _ => rfl

theorem cmdIncompletedAckCb_quietly (ctx : Ctx) : Quietly ctx ctx.cmdIncompletedAckCb := by
  unfold cmdIncompletedAckCb
  split
  · exact .of_log_eq rfl rfl rfl rfl rfl rfl rfl
  · split <;> exact .of_log_eq rfl rfl rfl rfl rfl rfl rfl

/-- Where a batch client is between its commands. -/
inductive Phase (ctx : Ctx) : Prop where
  | unauthorized (state : ctx.ktp.state = .unauthorized) (cmds : Spoken.cmds ctx.log = [])
      (finals : ctx.log.countP Spoken.final = 0) (available : ctx.ktp.cmdRetcodeAvailable = false)
      (retcode : ctx.ktp.cmdRetcode = 0)
  | waiting (state : ctx.ktp.state = .waitForCmd)
      (cmds : (Spoken.cmds ctx.log).length = ctx.log.countP Spoken.final + 1)
      (available : ctx.ktp.cmdRetcodeAvailable = false)
  | idle (state : ctx.ktp.state = .idle)
      (cmds : (Spoken.cmds ctx.log).length = ctx.log.countP Spoken.final)
      (available : ctx.ktp.cmdRetcodeAvailable = true)
      (acked : Spoken.LastAcked ctx.log ctx.ktp.cmdRetcode)

/-- What a batch client keeps. -/
structure Batch (opts : ClientOpts) (all : List String) (ctx : Ctx) : Prop where
  mode : ctx.mode ≠ .interactive
  options : ctx.opts = opts
  lines : Spoken.cmds ctx.log ++ ctx.commands.map cbytes = all.map cbytes
  stops : ctx.log.Pairwise fun a b => a.Stops opts → b.cmdLine = none
  oneAtATime : Spoken.OneAtATime ctx.log
  /-- A command that has failed is the last one. -/
  failed : ctx.ktp.state ≠ .idle → opts.stopOnError = true → ∀ msg, .ack msg ∈ ctx.log →
    msg.finalAck = true → msg.ackRetcode = 0
  phase : Phase ctx

namespace Batch

variable {opts : ClientOpts} {all : List String}

theorem quietly (h : Batch opts all ctx) (hq : Quietly ctx ctx') : Batch opts all ctx' := by
  obtain ⟨more, hlog, hmore⟩ := hq.log
  have hcmds : Spoken.cmds ctx'.log = Spoken.cmds ctx.log := by
    rw [hlog, Spoken.cmds_append, Spoken.cmds_eq_nil hmore, List.append_nil]
  have hfinals : ctx'.log.countP Spoken.final = ctx.log.countP Spoken.final := by
    rw [hlog, List.countP_append, Spoken.countP_final_eq_zero hmore, Nat.add_zero]
  have hnone : ∀ entry ∈ more, entry.cmdLine = none := fun entry hentry => (hmore entry hentry).1
  refine ⟨hq.mode ▸ h.mode, hq.opts.trans h.options, ?_, ?_, ?_, ?_, ?_⟩
  · rw [hcmds, hq.commands]
    exact h.lines
  · rw [hlog, List.pairwise_append]
    exact ⟨h.stops, List.pairwise_of_forall_mem_list fun _ _ b hb _ => hnone b hb,
      fun _ _ b hb _ => hnone b hb⟩
  · rw [hlog]
    exact h.oneAtATime.append hnone
  · intro hstate hstop msg hmem hfinal
    rw [hlog] at hmem
    rcases List.mem_append.mp hmem with hmem | hmem
    · exact h.failed (hq.state ▸ hstate) hstop msg hmem hfinal
    · exact absurd hfinal (by rw [show msg.finalAck = false from (hmore _ hmem).2]; exact Bool.false_ne_true)
  · cases h.phase with
    | unauthorized state cmds finals available retcode =>
      exact .unauthorized (hq.state.trans state) (hcmds.trans cmds) (hfinals.trans finals)
        (hq.available.trans available) (hq.retcode.trans retcode)
    | waiting state cmds available =>
      exact .waiting (hq.state.trans state) (by rw [hcmds, hfinals, cmds])
        (hq.available.trans available)
    | idle state cmds available acked =>
      refine .idle (hq.state.trans state) (by rw [hcmds, hfinals, cmds])
        (hq.available.trans available) ?_
      rw [hlog, hq.retcode]
      exact acked.append hnone

/-- The next command, when the last one is done. -/
theorem next (h : Batch opts all ctx) (hstate : ctx.ktp.state = .idle)
    (hgo : ctx.commands ≠ [] → ∀ entry ∈ ctx.log, ¬ entry.Stops opts) :
    Batch opts all (ctx.sendNextCommand sys) := by
  obtain ⟨next, hsame, hnext⟩ := sendNextCommand_spec sys h.mode
  rcases hnext with ⟨hnil, hsent, hrest⟩ | ⟨line, hcons, hsent⟩
  · rw [hsent]
    apply h.quietly
    have hdone : Quietly next next.setDone := .of_log_eq rfl rfl rfl rfl rfl rfl rfl
    refine (Quietly.of_log_eq hsame.mode hsame.opts ?_ ?_ ?_ ?_ hsame.log).trans hdone
    · exact hrest.trans hnil.symm
    · rw [hsame.ktp]
    · rw [hsame.ktp]
    · rw [hsame.ktp]
  · have hne : ctx.commands ≠ [] := by
      rw [hcons]
      exact List.cons_ne_nil _ _
    have hcmds : (Spoken.cmds ctx.log).length = ctx.log.countP Spoken.final := by
      cases h.phase with
      | idle _ cmds => exact cmds
      | unauthorized state => rw [hstate] at state; exact absurd state nofun
      | waiting state => rw [hstate] at state; exact absurd state nofun
    have hlog : (ctx.sendNextCommand sys).log =
        ctx.log ++ [.sent (cmdMsg line ctx.opts.dryRun)] := by
      rw [hsent, call_sessionCmd, hsame.log]
    have hline : Spoken.cmds [Spoken.sent (cmdMsg line ctx.opts.dryRun)] = [cbytes line] := by
      simp [Spoken.cmds, Spoken.cmdLine, cmdLine_cmdMsg]
    refine ⟨?_, ?_, ?_, ?_, ?_, ?_, ?_⟩
    · rw [hsent]
      exact hsame.mode ▸ h.mode
    · rw [hsent]
      exact hsame.opts.trans h.options
    · have hcommands : (ctx.sendNextCommand sys).commands = next.commands := by
        rw [hsent]
        rfl
      rw [hlog, Spoken.cmds_append, hline, hcommands, List.append_assoc, ← h.lines, hcons]
      rfl
    · rw [hlog, List.pairwise_append]
      exact ⟨h.stops, List.pairwise_singleton _ _,
        fun a ha _ _ hstops => absurd hstops (hgo hne a ha)⟩
    · rw [hlog]
      exact h.oneAtATime.snoc _ hcmds
    · intro _ hstop msg hmem hfinal
      rw [hlog] at hmem
      have hold : Spoken.ack msg ∈ ctx.log :=
        (List.mem_append.mp hmem).resolve_right fun hnew => absurd (List.mem_singleton.mp hnew) nofun
      by_contra hretcode
      exact hgo hne _ hold (.inr ⟨hstop, hfinal, hretcode⟩)
    · refine .waiting ?_ ?_ ?_
      · rw [hsent]
        rfl
      · rw [hlog, Spoken.cmds_append, hline, List.length_append, hcmds, List.countP_append]
        rfl
      · rw [hsent]
        rfl

theorem next_done (h : Batch opts all ctx) (hstate : ctx.ktp.state = .idle)
    (hdone : (ctx.sendNextCommand sys).ktp.done = true) :
    (ctx.ktp.done = true ∧ ctx.commands ≠ []) ∨ (ctx.sendNextCommand sys).ktp.state = .idle := by
  obtain ⟨next, hsame, hnext⟩ := sendNextCommand_spec sys h.mode
  rcases hnext with ⟨hnil, hsent, hrest⟩ | ⟨line, hcons, hsent⟩
  · right
    rw [hsent]
    exact (congrArg Ktp.state hsame.ktp).trans hstate
  · left
    rw [hsent] at hdone
    refine ⟨hsame.ktp ▸ hdone, ?_⟩
    rw [hcons]
    exact List.cons_ne_nil _ _

end Batch

/-- The ack is one after which the client goes on to the next command. -/
def GoesOn (ctx : Ctx) (msg : KtpMsg) : Prop :=
  (msg.cmd = .authAck ∧ ctx.ktp.state = .unauthorized) ∨
    (msg.cmd = .cmdAck ∧ ctx.ktp.state = .waitForCmd ∧ msg.status.incompleted = false ∧
      ¬ (msg.ackRetcode ≠ 0 ∧ ctx.opts.stopOnError = true))

/-- When the client goes on and there are commands left, no ack has carried the exit flag. -/
def NoExit (ctx : Ctx) (msg : KtpMsg) : Prop :=
  ctx.GoesOn msg → ctx.commands ≠ [] →
    msg.status.exit = false ∧ ∀ m, .ack m ∈ ctx.log → m.status.exit = false

/-- The message makes the session done although it is no ack. -/
def exitNote (msg : KtpMsg) : Bool := msg.cmd == .notification && msg.status.exit

namespace Batch

variable {opts : ClientOpts} {all : List String}

/-- No ack of the log has stopped the client, if it may go on. -/
theorem not_stops (h : Batch opts all ctx) (hstate : ctx.ktp.state ≠ .idle)
    (hexit : ∀ m, .ack m ∈ ctx.log → m.status.exit = false) :
    ∀ entry ∈ ctx.log, ¬ entry.Stops opts := by
  intro entry hentry hstops
  cases entry with
  | sent _ => exact hstops
  | ack msg =>
    rcases hstops with hflag | ⟨hstop, hfinal, hretcode⟩
    · rw [hexit msg hentry] at hflag
      exact absurd hflag Bool.false_ne_true
    · exact hretcode (h.failed hstate hstop msg hentry hfinal)

/-- The ack of the authorization. -/
theorem noteAck_auth (h : Batch opts all ctx) (hstate : ctx.ktp.state = .unauthorized)
    (hcmd : msg.cmd = .authAck) :
    Batch opts all (ctx.noteAck msg) ∧ 0 ≤ (ctx.noteAck msg).ktp.cmdRetcode := by
  have hktp : (ctx.noteAck msg).ktp = ctx.ktp.processAuthAck msg := by
    show ctx.ktp.dispatch msg = _
    unfold Ktp.dispatch
    rw [hcmd]
    exact if_pos hstate
  have hnotFinal : Spoken.final (.ack msg) = false := by simp [Spoken.final, KtpMsg.finalAck, hcmd]
  have hquiet : ∀ entry ∈ [Spoken.ack msg], entry.Quiet := by
    intro entry hentry
    rw [List.mem_singleton.mp hentry]
    exact ⟨rfl, hnotFinal⟩
  obtain ⟨cmds, finals, retcode⟩ : Spoken.cmds ctx.log = [] ∧ ctx.log.countP Spoken.final = 0 ∧
      ctx.ktp.cmdRetcode = 0 := by
    cases h.phase with
    | unauthorized _ cmds finals _ retcode => exact ⟨cmds, finals, retcode⟩
    | waiting state => rw [hstate] at state; exact absurd state nofun
    | idle state => rw [hstate] at state; exact absurd state nofun
  have hcmds : Spoken.cmds (ctx.noteAck msg).log = [] := by
    show Spoken.cmds (ctx.log ++ [Spoken.ack msg]) = []
    rw [Spoken.cmds_append, cmds, Spoken.cmds_eq_nil hquiet]
    rfl
  have hfinals : (ctx.noteAck msg).log.countP Spoken.final = 0 := by
    show (ctx.log ++ [Spoken.ack msg]).countP Spoken.final = 0
    rw [List.countP_append, finals, Spoken.countP_final_eq_zero hquiet]
  -- A log without commands has nothing to keep.
  refine ⟨⟨h.mode, h.options, ?_, ?_, ?_, ?_, ?_⟩, ?_⟩
  · rw [hcmds, List.nil_append, ← h.lines, cmds]
    rfl
  · show (ctx.log ++ [Spoken.ack msg]).Pairwise _
    rw [List.pairwise_append]
    exact ⟨h.stops, List.pairwise_singleton _ _, fun _ _ b hb _ => (hquiet b hb).1⟩
  · exact h.oneAtATime.append fun e he => (hquiet e he).1
  · intro hidle
    exact absurd (show (ctx.noteAck msg).ktp.state = .idle by rw [hktp]; rfl) hidle
  · refine .idle ?_ ?_ ?_ (Spoken.lastAcked_of_cmds_nil hcmds)
    · rw [hktp]
      rfl
    · rw [hcmds, hfinals]
      rfl
    · rw [hktp]
      rfl
  · rw [hktp]
    show 0 ≤ (Ktp.msgRetcode msg).getD ctx.ktp.cmdRetcode
    cases hretcode : Ktp.msgRetcode msg with
    | none => exact Int.le_of_eq retcode.symm
    | some r => exact msg.msgRetcode_nonneg hretcode

/-- The last ack of a command. -/
theorem noteAck_final (h : Batch opts all ctx) (hstate : ctx.ktp.state = .waitForCmd)
    (hcmd : msg.cmd = .cmdAck) (hfinal : msg.status.incompleted = false) :
    Batch opts all (ctx.noteAck msg) ∧ (ctx.noteAck msg).retcode = msg.ackRetcode := by
  have hktp : (ctx.noteAck msg).ktp = ctx.ktp.processCmdAck msg := by
    show ctx.ktp.dispatch msg = _
    unfold Ktp.dispatch
    rw [hcmd]
    exact if_pos hstate
  have hprocess : ctx.ktp.processCmdAck msg = Ktp.finish (Ktp.addError
      { ctx.ktp with cmdRetcode := msg.ackRetcode, cmdRetcodeAvailable := true } msg) msg := by
    unfold Ktp.processCmdAck
    rw [hfinal]
    rfl
  have hack : msg.finalAck = true := by simp [KtpMsg.finalAck, hcmd, hfinal]
  have hcmds : Spoken.cmds (ctx.noteAck msg).log = Spoken.cmds ctx.log := by
    show Spoken.cmds (ctx.log ++ [Spoken.ack msg]) = _
    rw [Spoken.cmds_append]
    exact List.append_nil _
  have hnone : ∀ entry ∈ [Spoken.ack msg], entry.cmdLine = none := by
    intro entry hentry
    rw [List.mem_singleton.mp hentry]
    rfl
  have hidle : (ctx.noteAck msg).ktp.state = .idle := by
    rw [hktp, hprocess]
    rfl
  refine ⟨⟨h.mode, h.options, ?_, ?_, h.oneAtATime.append hnone, ?_, ?_⟩, ?_⟩
  · rw [hcmds]
    exact h.lines
  · show (ctx.log ++ [Spoken.ack msg]).Pairwise _
    rw [List.pairwise_append]
    exact ⟨h.stops, List.pairwise_singleton _ _, fun _ _ b hb _ => hnone b hb⟩
  · exact fun hne => absurd hidle hne
  · refine .idle hidle ?_ ?_ ?_
    · rw [hcmds]
      show _ = (ctx.log ++ [Spoken.ack msg]).countP Spoken.final
      rw [List.countP_append, List.countP_singleton, if_pos (show (Spoken.ack msg).final = true from hack)]
      cases h.phase with
      | waiting _ cmds => exact cmds
      | unauthorized state => rw [hstate] at state; exact absurd state nofun
      | idle state => rw [hstate] at state; exact absurd state nofun
    · rw [hktp, hprocess]
      rfl
    · rw [hktp, hprocess]
      exact Spoken.lastAcked_ack hack
  · unfold retcode
    rw [hktp, hprocess]
    rfl

variable (ctx) in
/-- An ack of a command that is still running. -/
theorem noteAck_incompleted (hcmd : msg.cmd = .cmdAck) (hinc : msg.status.incompleted = true) :
    Quietly ctx (ctx.noteAck msg) := by
  have hktp : (ctx.noteAck msg).ktp = if ctx.ktp.state = .waitForCmd then
      ctx.ktp.processCmdAck msg else ctx.ktp := by
    show ctx.ktp.dispatch msg = _
    unfold Ktp.dispatch
    rw [hcmd]
  have hprocess : (ctx.ktp.processCmdAck msg).state = ctx.ktp.state ∧
      (ctx.ktp.processCmdAck msg).cmdRetcodeAvailable = ctx.ktp.cmdRetcodeAvailable ∧
      (ctx.ktp.processCmdAck msg).cmdRetcode = ctx.ktp.cmdRetcode := by
    unfold Ktp.processCmdAck
    rw [if_pos hinc]
    split <;> exact ⟨rfl, rfl, rfl⟩
  refine ⟨rfl, rfl, rfl, ?_, ?_, ?_, [.ack msg], rfl, ?_⟩
  · rw [hktp]
    split
    · exact hprocess.1
    · rfl
  · rw [hktp]
    split
    · exact hprocess.2.1
    · rfl
  · rw [hktp]
    split
    · exact hprocess.2.2
    · rfl
  · intro entry hentry
    rw [List.mem_singleton.mp hentry]
    exact ⟨rfl, by simp [Spoken.final, KtpMsg.finalAck, hinc]⟩

theorem idle (h : Batch opts all ctx) (hstate : ctx.ktp.state = .idle) :
    ctx.ktp.cmdRetcodeAvailable = true ∧ Spoken.LastAcked ctx.log ctx.ktp.cmdRetcode := by
  cases h.phase with
  | idle _ _ available acked => exact ⟨available, acked⟩
  | unauthorized state => rw [hstate] at state; exact absurd state nofun
  | waiting state => rw [hstate] at state; exact absurd state nofun

/-- The context in which the client goes on after an ack. -/
structure Follows (ctx next : Ctx) : Prop where
  quietly : Quietly ctx next
  done : next.ktp.done = ctx.ktp.done
  log : ∀ msg, .ack msg ∈ next.log → .ack msg ∈ ctx.log

theorem prompt_hotkey_follows (ctx : Ctx) (msg : KtpMsg) :
    Follows ctx ((ctx.processPromptParam msg).processHotkeyParam msg) := by
  refine ⟨prompt_hotkey_quietly ctx msg, ?_, ?_⟩
  · unfold processHotkeyParam
    split <;> rfl
  · unfold processHotkeyParam
    split <;> exact fun _ h => h

variable (msg) (sys) in
/-- After the authorization the first command is sent. -/
theorem authAckCb_eq (h : Batch opts all ctx) (hstate : ctx.ktp.state = .idle)
    (hretcode : 0 ≤ ctx.ktp.cmdRetcode) :
    ∃ next, Follows ctx next ∧ ctx.authAckCb msg sys = next.sendNextCommand sys := by
  have hparams := prompt_hotkey_follows ctx msg
  unfold authAckCb
  dsimp only
  generalize (ctx.processPromptParam msg).processHotkeyParam msg = params at hparams
  have hpos : ¬ (params.retcode < 0 ∧ params.ktp.error ≠ []) := by
    rintro ⟨hneg, -⟩
    have havailable := hparams.quietly.available.trans (h.idle hstate).1
    unfold retcode at hneg
    rw [if_pos havailable, hparams.quietly.retcode] at hneg
    omega
  have hmode : params.mode ≠ .interactive := hparams.quietly.mode ▸ h.mode
  rw [if_neg hpos, if_neg (by exact hmode)]
  have hwinch := winch_quietly params sys.width sys.height
  refine ⟨_, ⟨hparams.quietly.trans hwinch, hparams.done, fun m hm => hparams.log m ?_⟩, rfl⟩
  have hlog : (params.call fun ktp => ktp.sendWinchNotification sys.width sys.height).log =
      params.log ++ [.sent ((KtpMsg.preform .notification {}).addParam .winch
        (cbytes (toString sys.width ++ " " ++ toString sys.height)))] := by
    simp [call, Ktp.sendWinchNotification, Ktp.send]
  rw [hlog] at hm
  exact (List.mem_append.mp hm).resolve_right fun hnew => absurd (List.mem_singleton.mp hnew) nofun

variable (msg) (sys) in
/-- After a command the next one is sent, unless the client stops at the error. -/
theorem cmdAckCb_eq (h : Batch opts all ctx) :
    (ctx.retcode ≠ 0 ∧ opts.stopOnError = true ∧ Quietly ctx (ctx.cmdAckCb msg sys)) ∨
      (¬ (ctx.retcode ≠ 0 ∧ opts.stopOnError = true) ∧
        ∃ next, Follows ctx next ∧ ctx.cmdAckCb msg sys = next.sendNextCommand sys) := by
  have hparams : Follows ctx
      (({ ctx with pagerWorking := none }.processPromptParam msg).processHotkeyParam msg) := by
    have hfollows := prompt_hotkey_follows { ctx with pagerWorking := none } msg
    have hpager : Quietly ctx { ctx with pagerWorking := none } :=
      .of_log_eq rfl rfl rfl rfl rfl rfl rfl
    exact ⟨hpager.trans hfollows.quietly, hfollows.done, hfollows.log⟩
  unfold cmdAckCb
  dsimp only
  generalize ({ ctx with pagerWorking := none }.processPromptParam msg).processHotkeyParam msg =
    params at hparams
  have hretcode : params.retcode = ctx.retcode := by
    unfold retcode
    rw [hparams.quietly.available, hparams.quietly.retcode]
  have hopts : params.opts = opts := hparams.quietly.opts.trans h.options
  rw [hretcode, hopts]
  by_cases hstop : ctx.retcode ≠ 0 ∧ opts.stopOnError = true
  · rw [if_pos hstop]
    refine .inl ⟨hstop.1, hstop.2, hparams.quietly.trans ?_⟩
    exact .of_log_eq rfl rfl rfl rfl rfl rfl rfl
  · have hmode : params.mode ≠ .interactive := hparams.quietly.mode ▸ h.mode
    rw [if_neg hstop, if_neg hmode]
    exact .inr ⟨hstop, _, hparams, rfl⟩

end Batch

/-- What the client keeps when it takes a message. -/
structure Taken (opts : ClientOpts) (all : List String) (ctx : Ctx) (msg : KtpMsg) (ctx' : Ctx) :
    Prop where
  batch : Batch opts all ctx'
  /-- A session becomes done when the last command is, or when the server says so. -/
  done : ctx'.ktp.done = true →
    ctx.ktp.done = true ∨ exitNote msg = true ∨ ctx'.ktp.state = .idle
  idle : ctx.ktp.state = .idle → ctx'.ktp.state = .idle

namespace Batch

variable {opts : ClientOpts} {all : List String}

theorem taken_quietly (h : Batch opts all ctx) (hq : Quietly ctx ctx')
    (hdone : ctx'.ktp.done = true → ctx.ktp.done = true ∨ exitNote msg = true) :
    Taken opts all ctx msg ctx' :=
  ⟨h.quietly hq, fun hd => (hdone hd).imp_right .inl, fun hidle => hq.state.trans hidle⟩

/-- The client goes on after an ack. -/
theorem taken_next {note next : Ctx} (h : Batch opts all note) (hstate : note.ktp.state = .idle)
    (hne : ctx.ktp.state ≠ .idle) (hfollows : Follows note next)
    (hgo : note.commands ≠ [] → ∀ entry ∈ note.log, ¬ entry.Stops opts)
    (hflag : note.commands ≠ [] → note.ktp.done = true → ctx.ktp.done = true) :
    Taken opts all ctx msg (next.sendNextCommand sys) := by
  have hnext := h.quietly hfollows.quietly
  have hidle : next.ktp.state = .idle := hfollows.quietly.state.trans hstate
  have hcommands : next.commands = note.commands := hfollows.quietly.commands
  refine ⟨hnext.next hidle fun hne entry hentry hstops => ?_, fun hd => ?_,
    fun h => absurd h hne⟩
  · cases entry with
    | sent _ => exact hstops
    | ack m => exact hgo (hcommands ▸ hne) _ (hfollows.log m hentry) hstops
  · rcases hnext.next_done hidle hd with ⟨hd, hne⟩ | hwait
    · exact .inl (hflag (hcommands ▸ hne) (hfollows.done ▸ hd))
    · exact .inr (.inr hwait)

variable (ctx) (msg) in
/-- A message that is no ack changes nothing for the commands. -/
theorem dispatch_quietly (hauth : msg.cmd ≠ .authAck) (hcmd : msg.cmd ≠ .cmdAck)
    (hcompletion : msg.cmd ≠ .completionAck) (hhelp : msg.cmd ≠ .helpAck) :
    Quietly ctx { ctx with ktp := ctx.ktp.dispatch msg } ∧
      ((ctx.ktp.dispatch msg).done = true → ctx.ktp.done = true ∨ exitNote msg = true) := by
  have hstream : ∀ ktp : Ktp, ktp.state = ctx.ktp.state →
      ktp.cmdRetcodeAvailable = ctx.ktp.cmdRetcodeAvailable →
      ktp.cmdRetcode = ctx.ktp.cmdRetcode → Quietly ctx { ctx with ktp } :=
    fun ktp hstate havailable hretcode => .of_log_eq rfl rfl rfl hstate havailable hretcode rfl
  unfold Ktp.dispatch
  split
  · exact absurd ‹_› hauth
  · exact absurd ‹_› hcmd
  · exact absurd ‹_› hcompletion
  · exact absurd ‹_› hhelp
  · split
    · unfold Ktp.processStdout
      split
      · exact ⟨hstream _ rfl rfl rfl, .inl⟩
      · split
        · exact ⟨hstream _ rfl rfl rfl, .inl⟩
        · split <;> exact ⟨hstream _ rfl rfl rfl, .inl⟩
    · exact ⟨hstream _ rfl rfl rfl, .inl⟩
  · split
    · unfold Ktp.processStderr
      split
      · exact ⟨hstream _ rfl rfl rfl, .inl⟩
      · split
        · exact ⟨hstream _ rfl rfl rfl, .inl⟩
        · split <;> exact ⟨hstream _ rfl rfl rfl, .inl⟩
    · exact ⟨hstream _ rfl rfl rfl, .inl⟩
  · rename_i hnotification
    refine ⟨hstream _ rfl rfl rfl, fun hdone => ?_⟩
    rcases Bool.or_eq_true_iff.mp hdone with hdone | hflag
    · exact .inl hdone
    · exact .inr (by simp [exitNote, hnotification, hflag])
  · exact ⟨hstream _ rfl rfl rfl, .inl⟩

/-- In the log with a new ack there is nothing that stops the client, if the ack does not. -/
theorem not_stops_noteAck (h : Batch opts all ctx) (hstate : ctx.ktp.state ≠ .idle)
    (hexit : NoExit ctx msg) (hgo : ctx.GoesOn msg)
    (hack : ¬ (opts.stopOnError = true ∧ msg.finalAck = true ∧ msg.ackRetcode ≠ 0))
    (hne : ctx.commands ≠ []) : ∀ entry ∈ (ctx.noteAck msg).log, ¬ entry.Stops opts := by
  obtain ⟨hflag, hlog⟩ := hexit hgo hne
  intro entry hentry
  rcases List.mem_append.mp hentry with hold | hnew
  · exact h.not_stops hstate hlog entry hold
  · rw [List.mem_singleton.mp hnew]
    rintro (hstops | hstops)
    · rw [hflag] at hstops
      exact absurd hstops Bool.false_ne_true
    · exact hack hstops

theorem noteAck_done (hexit : NoExit ctx msg) (hgo : ctx.GoesOn msg) (hne : ctx.commands ≠ [])
    (hdone : (ctx.noteAck msg).ktp.done = true) : ctx.ktp.done = true := by
  obtain ⟨hflag, -⟩ := hexit hgo hne
  have hor : (ctx.noteAck msg).ktp.done = (ctx.ktp.done || msg.status.exit) := by
    show (ctx.ktp.dispatch msg).done = _
    unfold Ktp.dispatch
    rcases hgo with ⟨hcmd, hstate⟩ | ⟨hcmd, hstate, hinc, -⟩
    · rw [hcmd]
      exact congrArg Ktp.done (if_pos hstate)
    · rw [hcmd]
      refine (congrArg Ktp.done (if_pos hstate)).trans ?_
      unfold Ktp.processCmdAck
      rw [hinc]
      rfl
  rw [hor, hflag, Bool.or_false] at hdone
  exact hdone

variable (sys) in
/-- The client keeps what it has to when it takes a message. -/
theorem dispatch (h : Batch opts all ctx) (hexit : NoExit ctx msg) :
    Taken opts all ctx msg (ctx.dispatch msg sys) := by
  have hself : Taken opts all ctx msg ctx := ⟨h, .inl, id⟩
  have hneither : ctx.ktp.state ≠ .waitForCompletion ∧ ctx.ktp.state ≠ .waitForHelp := by
    cases h.phase with
    | unauthorized state => rw [state]; exact ⟨nofun, nofun⟩
    | waiting state => rw [state]; exact ⟨nofun, nofun⟩
    | idle state => rw [state]; exact ⟨nofun, nofun⟩
  unfold Ctx.dispatch
  split
  · rename_i hcmd
    split
    · rename_i hstate
      have hgo : ctx.GoesOn msg := .inl ⟨hcmd, hstate⟩
      have hne : ctx.ktp.state ≠ .idle := by rw [hstate]; exact nofun
      obtain ⟨hnote, hretcode⟩ := h.noteAck_auth hstate hcmd
      have hidle : (ctx.noteAck msg).ktp.state = .idle := by
        show (ctx.ktp.dispatch msg).state = .idle
        unfold Ktp.dispatch
        rw [hcmd]
        exact congrArg Ktp.state (if_pos hstate)
      obtain ⟨next, hfollows, hnext⟩ := hnote.authAckCb_eq msg sys hidle hretcode
      rw [hnext]
      refine hnote.taken_next hidle hne hfollows ?_ (noteAck_done hexit hgo)
      refine h.not_stops_noteAck hne hexit hgo ?_
      rintro ⟨-, hfinal, -⟩
      simp [KtpMsg.finalAck, hcmd] at hfinal
    · exact hself
  · rename_i hcmd
    split
    · rename_i hstate
      split
      · rename_i hinc
        have hnote := noteAck_incompleted ctx hcmd hinc
        refine h.taken_quietly (hnote.trans (cmdIncompletedAckCb_quietly _)) fun hdone => .inl ?_
        have hktp : (ctx.noteAck msg).cmdIncompletedAckCb.ktp = ctx.ktp.processCmdAck msg := by
          have hdispatch : ctx.ktp.dispatch msg = ctx.ktp.processCmdAck msg := by
            unfold Ktp.dispatch
            rw [hcmd]
            exact if_pos hstate
          rw [← hdispatch]
          unfold cmdIncompletedAckCb
          split
          · rfl
          · split <;> rfl
        rw [hktp] at hdone
        unfold Ktp.processCmdAck at hdone
        rw [if_pos hinc] at hdone
        split at hdone <;> exact hdone
      · rename_i hinc
        have hfinal : msg.status.incompleted = false := Bool.eq_false_iff.mpr hinc
        have hne : ctx.ktp.state ≠ .idle := by rw [hstate]; exact nofun
        obtain ⟨hnote, hretcode⟩ := h.noteAck_final hstate hcmd hfinal
        have hidle : (ctx.noteAck msg).ktp.state = .idle := by
          show (ctx.ktp.dispatch msg).state = .idle
          unfold Ktp.dispatch
          rw [hcmd]
          refine (congrArg Ktp.state (if_pos hstate)).trans ?_
          unfold Ktp.processCmdAck
          rw [hfinal]
          rfl
        rcases hnote.cmdAckCb_eq msg sys with
          ⟨-, -, hq⟩ | ⟨hgoes, next, hfollows, hnext⟩
        · have hend := hq.state.trans hidle
          exact ⟨hnote.quietly hq, fun _ => .inr (.inr hend), fun _ => hend⟩
        · rw [hretcode] at hgoes
          have hgo : ctx.GoesOn msg := .inr ⟨hcmd, hstate, hfinal, h.options.symm ▸ hgoes⟩
          rw [hnext]
          refine hnote.taken_next hidle hne hfollows ?_ (noteAck_done hexit hgo)
          refine h.not_stops_noteAck hne hexit hgo ?_
          exact fun hstops => hgoes ⟨hstops.2.2, hstops.1⟩
    · exact hself
  · rw [if_neg hneither.1]
    exact hself
  · rw [if_neg hneither.2]
    exact hself
  · rename_i hcmd
    obtain ⟨hq, hdone⟩ := dispatch_quietly ctx msg (by rw [hcmd]; exact nofun)
      (by rw [hcmd]; exact nofun) (by rw [hcmd]; exact nofun) (by rw [hcmd]; exact nofun)
    dsimp only
    split
    · refine h.taken_quietly (hq.trans (stdoutCb_quietly _ sys)) fun hd => hdone ?_
      rwa [stdoutCb_done] at hd
    · exact h.taken_quietly hq hdone
  · rename_i hauth hcmd hcompletion hhelp hstdout
    obtain ⟨hq, hdone⟩ := dispatch_quietly ctx msg hauth hcmd hcompletion hhelp
    exact h.taken_quietly hq hdone

end Batch

end Ctx

end Klish
