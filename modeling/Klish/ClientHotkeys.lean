import Klish.Client
import Klish.KtpAnswer
import Klish.KtpRetcode

/-!
# The hotkeys of the client

Only the answer to an authorization or the last answer to a command changes the hotkey table. Beside
that, a callback of the client makes calls of the session, and a request only when it waits for no
answer.
-/

namespace Klish

open Channel

/-- What the client makes of its session of itself. -/
inductive SessionCalls : Ktp → Ktp → Prop
  | refl (ktp : Ktp) : SessionCalls ktp ktp
  | call {ktp ktp' : Ktp} (h : SessionCalls ktp ktp') (call : ClientCall)
      (hfree : call.request = none ∨ ktp'.state.pending = none)
      (hauth : call.request ≠ some .auth) : SessionCalls ktp (call.run ktp')
  | done {ktp ktp' : Ktp} (h : SessionCalls ktp ktp') : SessionCalls ktp { ktp' with done := true }

theorem SessionCalls.trans {a b c : Ktp} (h : SessionCalls a b) (h' : SessionCalls b c) :
    SessionCalls a c := by
  induction h' with
  | refl => exact h
  | call _ call hfree hauth ih => exact ih.call call hfree hauth
  | done _ ih => exact ih.done

namespace Ctx

variable {ctx ctx' ctx'' : Ctx} {msg : KtpMsg} {sys : ClientSys}

/-- The hotkeys are left alone, and the session is called. -/
structure Acts (ctx ctx' : Ctx) : Prop where
  hotkeys : ctx'.hotkeys = ctx.hotkeys
  calls : SessionCalls ctx.ktp ctx'.ktp

namespace Acts

theorem of_eq (hhotkeys : ctx'.hotkeys = ctx.hotkeys) (hktp : ctx'.ktp = ctx.ktp) :
    Acts ctx ctx' := ⟨hhotkeys, hktp ▸ .refl _⟩

theorem refl (ctx : Ctx) : Acts ctx ctx := .of_eq rfl rfl

theorem trans (h : Acts ctx ctx') (h' : Acts ctx' ctx'') : Acts ctx ctx'' :=
  ⟨h'.hotkeys.trans h.hotkeys, h.calls.trans h'.calls⟩

/-- A call that is no request. -/
theorem notify (ctx : Ctx) (call : ClientCall) (h : call.request = none) :
    Acts ctx (ctx.call call.run) := by
  refine ⟨rfl, .call (.refl _) call (.inl h) ?_⟩
  rw [h]
  exact nofun

/-- A request of a client that waits for no answer. -/
theorem request (ctx : Ctx) (call : ClientCall) (h : ctx.ktp.state.pending = none)
    (hauth : call.request ≠ some .auth) : Acts ctx (ctx.call call.run) :=
  ⟨rfl, .call (.refl _) call (.inr h) hauth⟩

end Acts

theorem nextLine_acts (ctx : Ctx) (ahead : ℕ) : Acts ctx (ctx.nextLine ahead).2 := by
  unfold nextLine
  split <;> exact .of_eq rfl rfl

theorem sendNextCommand_acts (sys : ClientSys) (h : ctx.ktp.state.pending = none) :
    Acts ctx (ctx.sendNextCommand sys) := by
  have hnext := nextLine_acts ctx sys.ahead
  have hktp : (ctx.nextLine sys.ahead).2.ktp = ctx.ktp := by
    unfold nextLine
    split <;> rfl
  unfold sendNextCommand
  split
  · exact .refl ctx
  · generalize ctx.nextLine sys.ahead = next at *
    obtain ⟨line, ctx'⟩ := next
    cases line with
    | none => exact hnext.trans ⟨rfl, .done (.refl _)⟩
    | some line =>
      exact hnext.trans (.request ctx' (.cmd line ctx'.opts.dryRun) (hktp ▸ h) nofun)

theorem key_acts (key : Key) (h : ctx.ktp.state.pending = none) : Acts ctx (ctx.key key) := by
  cases key with
  | enter line =>
    exact (Acts.request ctx (.cmd line ctx.opts.dryRun) h nofun).trans (.of_eq rfl rfl)
  | hotkey code =>
    unfold Ctx.key
    dsimp only
    split
    · exact .refl ctx
    · rename_i line _
      exact (Acts.request ctx (.cmd line ctx.opts.dryRun) h nofun).trans (.of_eq rfl rfl)
  | tab line =>
    exact (Acts.request ctx (.completion line ctx.opts.dryRun) h nofun).trans (.of_eq rfl rfl)
  | help line => exact (Acts.request ctx (.help line) h nofun).trans (.of_eq rfl rfl)

/-- A key is taken when the client waits for no answer, and other input is no request. -/
theorem stdinCb_acts (ctx : Ctx) (event : StdinEvent) : Acts ctx (ctx.stdinCb event).1 := by
  unfold stdinCb
  split
  · exact .of_eq rfl rfl
  · split
    · rename_i hidle
      have hpending : ctx.ktp.state.pending = none := by
        rw [hidle.1]
        rfl
      have hkey : Acts ctx ((event.key.map ctx.key).getD ctx) := by
        cases event.key with
        | none => exact .refl ctx
        | some key => exact key_acts key hpending
      dsimp only
      split
      · exact hkey.trans (.of_eq rfl rfl)
      · exact hkey
    · split
      · dsimp only
        split
        · exact (Acts.of_eq rfl rfl : Acts ctx
            { ctx with stdin := ctx.stdin.skip (event.data ctx).length }).trans
              (.notify _ (.stdin (event.data ctx)) rfl)
        · split
          · exact (Acts.notify ctx .stdinClose rfl).trans (.of_eq rfl rfl)
          · exact .refl ctx
      · exact .of_eq rfl rfl

theorem ctrlCCb_acts (ctx : Ctx) : Acts ctx ctx.ctrlCCb.1 := by
  unfold ctrlCCb
  split
  · exact .refl ctx
  · split
    · exact .notify ctx (.stdin [3]) rfl
    · exact .refl ctx

theorem stdoutCb_acts (ctx : Ctx) (sys : ClientSys) : Acts ctx (ctx.stdoutCb sys) :=
  stdoutCb_rel .refl Acts.trans (fun _ _ => .of_eq rfl rfl) fun c => .notify c .stdoutClose rfl

/-- What the parameters of an answer make of the hotkeys. -/
def readHotkeys (hotkeys : ℕ → Option String) (msg : KtpMsg) : ℕ → Option String :=
  if msg.values .hotkey = [] then hotkeys else (msg.values .hotkey).foldl setHotkey fun _ => none

theorem processHotkeyParam_eq (ctx : Ctx) (msg : KtpMsg) :
    ctx.processHotkeyParam msg = { ctx with hotkeys := readHotkeys ctx.hotkeys msg } := by
  have hfold : ∀ (params : List (KtpParam × Bytes)) (hotkeys : ℕ → Option String),
      params.foldl (fun hotkeys p => if p.1 = .hotkey then setHotkey hotkeys p.2 else hotkeys)
        hotkeys =
      (params.filterMap fun p => if p.1 = .hotkey then some p.2 else none).foldl setHotkey
        hotkeys := by
    intro params
    induction params with
    | nil => exact fun _ => rfl
    | cons p params ih =>
      intro hotkeys
      by_cases hp : p.1 = .hotkey
      · simp [hp, ih]
      · simp [hp, ih]
  have hparam := msg.param_eq_head .hotkey
  unfold processHotkeyParam readHotkeys
  rw [hparam]
  cases hvalues : msg.values .hotkey with
  | nil => rfl
  | cons value values =>
    have htable : _ = (msg.values .hotkey).foldl setHotkey fun _ => none :=
      hfold msg.params fun _ => none
    rw [hvalues] at htable
    rw [if_neg (List.cons_ne_nil _ _)]
    exact congrArg (fun hotkeys => { ctx with hotkeys }) htable

/-- What a message makes of the hotkeys of a client that waits for it. -/
def noteHotkeys (hotkeys : ℕ → Option String) (msg : KtpMsg) : ℕ → Option String :=
  if msg.answer = some .auth ∨ msg.answer = some .cmd then readHotkeys hotkeys msg else hotkeys

/-- A message that is not taken for an answer. -/
theorem noteHotkeys_of_ne {hotkeys : ℕ → Option String} (hauth : msg.cmd ≠ .authAck)
    (hcmd : msg.cmd ≠ .cmdAck) : noteHotkeys hotkeys msg = hotkeys := by
  refine if_neg fun h => ?_
  rcases h with h | h
  · exact hauth (answer_eq_some.mp h).1
  · exact hcmd (answer_eq_some.mp h).1

/-- The hotkeys are read and then the callback goes on. -/
theorem authAckCb_acts (hpending : ctx.ktp.state.pending = none) :
    (ctx.authAckCb msg sys).hotkeys = readHotkeys ctx.hotkeys msg ∧
      SessionCalls ctx.ktp (ctx.authAckCb msg sys).ktp := by
  unfold authAckCb
  rw [processHotkeyParam_eq]
  generalize hparams : ({ ctx.processPromptParam msg with
    hotkeys := readHotkeys (ctx.processPromptParam msg).hotkeys msg } : Ctx) = params
  have hhotkeys : params.hotkeys = readHotkeys ctx.hotkeys msg := by
    rw [← hparams]
    rfl
  have hktp : params.ktp = ctx.ktp := by
    rw [← hparams]
    rfl
  dsimp only
  have hrest : Acts params (if params.retcode < 0 ∧ params.ktp.error ≠ [] then params
      else if (params.call fun ktp => ktp.sendWinchNotification sys.width sys.height).mode =
          .interactive then
        { params.call fun ktp => ktp.sendWinchNotification sys.width sys.height with
          stdinWatched := true }
      else (params.call fun ktp => ktp.sendWinchNotification sys.width sys.height).sendNextCommand
        sys) := by
    split
    · exact .refl params
    · have hwinch := Acts.notify params (.winch sys.width sys.height) rfl
      split
      · exact hwinch.trans (.of_eq rfl rfl)
      · refine hwinch.trans (sendNextCommand_acts sys ?_)
        show params.ktp.state.pending = none
        rw [hktp, hpending]
  exact ⟨hrest.hotkeys.trans hhotkeys, hktp ▸ hrest.calls⟩

theorem cmdAckCb_acts (hpending : ctx.ktp.state.pending = none) :
    (ctx.cmdAckCb msg sys).hotkeys = readHotkeys ctx.hotkeys msg ∧
      SessionCalls ctx.ktp (ctx.cmdAckCb msg sys).ktp := by
  unfold cmdAckCb
  rw [processHotkeyParam_eq]
  generalize hparams : ({ { ctx with pagerWorking := none }.processPromptParam msg with
    hotkeys :=
      readHotkeys ({ ctx with pagerWorking := none }.processPromptParam msg).hotkeys msg } :
    Ctx) = params
  have hhotkeys : params.hotkeys = readHotkeys ctx.hotkeys msg := by
    rw [← hparams]
    rfl
  have hktp : params.ktp = ctx.ktp := by
    rw [← hparams]
    rfl
  dsimp only
  have hrest : Acts params (if params.retcode ≠ 0 ∧ params.opts.stopOnError = true then
      params.setDone
      else (if params.mode = .interactive then { params with busy := false, stdinWatched := true }
        else params).sendNextCommand sys) := by
    split
    · exact ⟨rfl, .done (.refl _)⟩
    · have hidle : Acts params (if params.mode = .interactive then
          { params with busy := false, stdinWatched := true } else params) := by
        split <;> exact .of_eq rfl rfl
      refine hidle.trans (sendNextCommand_acts sys ?_)
      rw [← hpending, ← hktp]
      split <;> rfl
  exact ⟨hrest.hotkeys.trans hhotkeys, hktp ▸ hrest.calls⟩

variable (ctx sys) in
/-- A message that is expected is taken by the session and by the hotkeys. -/
theorem dispatch_acts (hwhole : Whole msg)
    (hexpected : ∀ r : KtpRequest, msg.cmd = r.ack → ctx.ktp.state.pending = some r) :
    (ctx.dispatch msg sys).hotkeys = noteHotkeys ctx.hotkeys msg ∧
      SessionCalls (ctx.ktp.dispatch msg) (ctx.dispatch msg sys).ktp := by
  have hpending : msg.answer ≠ none → (ctx.ktp.dispatch msg).state.pending = none := by
    intro hanswer
    rw [dispatch_pending ctx.ktp hwhole fun r hr => hexpected r (answer_eq_some.mp hr).1,
      if_pos (Option.isSome_iff_ne_none.mpr hanswer)]
  unfold dispatch
  split
  case h_1 hcmd =>
    have hp := hexpected .auth hcmd
    have hstate : ctx.ktp.state = .unauthorized := by
      cases hs : ctx.ktp.state <;> rw [hs] at hp <;> cases hp
    have hfinal : msg.status.incompleted = false := by
      by_contra hinc
      exact absurd (hwhole ((Bool.not_eq_false _).mp hinc) .auth hcmd) (by decide)
    have hanswer : msg.answer = some .auth := answer_eq_some.mpr ⟨hcmd, hfinal⟩
    rw [if_pos hstate, noteHotkeys, if_pos (.inl hanswer)]
    exact authAckCb_acts (hpending (by simp [hanswer]))
  case h_2 hcmd =>
    have hp := hexpected .cmd hcmd
    have hstate : ctx.ktp.state = .waitForCmd := by
      cases hs : ctx.ktp.state <;> rw [hs] at hp <;> cases hp
    rw [if_pos hstate]
    split
    · rename_i hinc
      have hnone : msg.answer = none := by
        simp [KtpMsg.answer, hinc]
      rw [noteHotkeys, if_neg (by simp [hnone])]
      unfold cmdIncompletedAckCb
      split
      · exact ⟨rfl, .refl _⟩
      · split <;> exact ⟨rfl, .refl _⟩
    · rename_i hinc
      have hanswer : msg.answer = some .cmd :=
        answer_eq_some.mpr ⟨hcmd, (Bool.not_eq_true _).mp hinc⟩
      rw [noteHotkeys, if_pos (.inr hanswer)]
      exact cmdAckCb_acts (hpending (by simp [hanswer]))
  case h_3 hcmd =>
    have hp := hexpected .completion hcmd
    have hstate : ctx.ktp.state = .waitForCompletion := by
      cases hs : ctx.ktp.state <;> rw [hs] at hp <;> cases hp
    rw [if_pos hstate, noteHotkeys_of_ne (by rw [hcmd]; decide) (by rw [hcmd]; decide)]
    exact ⟨rfl, .refl _⟩
  case h_4 hcmd =>
    have hp := hexpected .help hcmd
    have hstate : ctx.ktp.state = .waitForHelp := by
      cases hs : ctx.ktp.state <;> rw [hs] at hp <;> cases hp
    rw [if_pos hstate, noteHotkeys_of_ne (by rw [hcmd]; decide) (by rw [hcmd]; decide)]
    exact ⟨rfl, .refl _⟩
  case h_5 hcmd =>
    rw [noteHotkeys_of_ne (by rw [hcmd]; decide) (by rw [hcmd]; decide)]
    dsimp only
    split
    · have hacts := stdoutCb_acts { ctx with ktp := ctx.ktp.dispatch msg } sys
      exact ⟨hacts.hotkeys, hacts.calls⟩
    · exact ⟨rfl, .refl _⟩
  case h_6 hauth hcmd _ _ _ =>
    rw [noteHotkeys_of_ne hauth hcmd]
    exact ⟨rfl, .refl _⟩

end Ctx

end Klish
