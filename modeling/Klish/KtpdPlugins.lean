import Klish.KtpdLoop
import Klish.KtpdPath

/-!
# The sessions of the plugins

A plugin may have a function for the start of a session and one for its end. The first one is
called by the handler of AUTH, the other one when the session is freed.
-/

namespace Klish

/-- A call of a function of a plugin. The plugin is named by its place in the scheme. -/
inductive PluginCall where
  | initSession (plugin : ℕ)
  | finiSession (plugin : ℕ)
  deriving DecidableEq, Repr

def PluginCall.plugin : PluginCall → ℕ
  | initSession plugin | finiSession plugin => plugin

/-- The functions that a plugin has set. -/
structure SessionFns where
  initSession : Bool
  finiSession : Bool

section Calls

variable (fns : Kplugin → SessionFns) (scheme : Kscheme)

/-- `kplugin_init_session`. The function is not mandatory. -/
def kpluginInitSession (i : ℕ) (plugin : Kplugin) : List PluginCall :=
  if (fns plugin).initSession then [.initSession i] else []

/-- `kplugin_fini_session` -/
def kpluginFiniSession (i : ℕ) (plugin : Kplugin) : List PluginCall :=
  if (fns plugin).finiSession then [.finiSession i] else []

/-- `kscheme_init_session_plugins`. A plugin that fails does not stop the loop. -/
def kschemeInitSessionPlugins : List PluginCall :=
  scheme.plugins.zipIdx.flatMap fun p => kpluginInitSession fns p.2 p.1

/-- `kscheme_fini_session_plugins` -/
def kschemeFiniSessionPlugins : List PluginCall :=
  scheme.plugins.zipIdx.flatMap fun p => kpluginFiniSession fns p.2 p.1

end Calls

/-- The calls for the plugin are none, or one for the start and then one for the end. -/
def Balanced (i : ℕ) (calls : List PluginCall) : Prop :=
  calls.filter (fun call => call.plugin = i) = [] ∨
    calls.filter (fun call => call.plugin = i) = [.initSession i, .finiSession i]

namespace KtpdLoop

variable {env : KtpdEnv}

section Life

variable (fns : Kplugin → SessionFns)

/-- The calls of `ktpd_session_process_auth`. -/
def authCalls (env : KtpdEnv) (sys : KtpdSys) : List PluginCall :=
  if !sys.peercred then [] else kschemeInitSessionPlugins fns env.scheme

/-- The calls of `ktpd_session_dispatch`. -/
def dispatchCalls (h : Handled env) : List PluginCall :=
  match h.msg.cmd with
  | .auth =>
    if h.ktpd.state = .unauthorized ∨ h.ktpd.state = .idle then authCalls fns env h.sys else []
  | _ => []

/-- The calls of `ktpd_session_free`. -/
def sessionFreeCalls (ktpd : Ktpd env) : List PluginCall :=
  if ktpd.state ≠ .unauthorized then kschemeFiniSessionPlugins fns env.scheme else []

/-- All calls of a session, which is freed after the last callback of the loop. -/
def sessionCalls (loop : KtpdLoop env) : List PluginCall :=
  loop.handled.reverse.flatMap (dispatchCalls fns) ++ sessionFreeCalls fns loop.ktpd

end Life

instance (h : Handled env) : Decidable (Authorises h) := inferInstanceAs (Decidable (_ ∧ _))

/-- The number of AUTH messages that have been served. -/
def auths (handled : List (Handled env)) : ℕ := handled.countP fun h => Authorises h

theorem authorises_iff {h : Handled env} : Authorises h ↔ h.msg.cmd = .auth ∧
    (h.ktpd.state = .unauthorized ∨ h.ktpd.state = .idle) ∧ h.sys.peercred = true := by
  simp only [Authorises, knowsPeer, Bool.and_eq_true, beq_iff_eq]
  tauto

/-- The plugins are called when an AUTH is served. -/
theorem dispatchCalls_eq (fns : Kplugin → SessionFns) (h : Handled env) :
    dispatchCalls fns h =
      if Authorises h then kschemeInitSessionPlugins fns env.scheme else [] := by
  unfold dispatchCalls
  split
  · rename_i hcmd
    split
    · rename_i hstate
      unfold authCalls
      cases hpeer : h.sys.peercred with
      | true => exact (if_pos (authorises_iff.mpr ⟨hcmd, hstate, hpeer⟩)).symm
      | false =>
        have hnot : ¬Authorises h := fun hauth =>
          Bool.false_ne_true (hpeer.symm.trans (authorises_iff.mp hauth).2.2)
        exact (if_neg hnot).symm
    · rename_i hstate
      have hnot : ¬Authorises h := fun hauth => hstate (authorises_iff.mp hauth).2.1
      exact (if_neg hnot).symm
  · rename_i hcmd
    have hnot : ¬Authorises h := fun hauth => hcmd (authorises_iff.mp hauth).1
    exact (if_neg hnot).symm

section Own

variable {fns : Kplugin → SessionFns}

/-- A plugin is called once by a loop over all of them. -/
theorem filter_plugins {call : ℕ → Kplugin → List PluginCall}
    (hown : ∀ i plugin, ∀ c ∈ call i plugin, c.plugin = i) {plugins : List Kplugin} {k i : ℕ} :
    ((plugins.zipIdx k).flatMap fun p => call p.2 p.1).filter (fun c => c.plugin = k + i) =
      (plugins[i]?).elim [] (call (k + i)) := by
  induction plugins generalizing k i with
  | nil => rfl
  | cons plugin plugins ih =>
    rw [List.zipIdx_cons, List.flatMap_cons, List.filter_append]
    cases i with
    | zero =>
      have hfirst : (call k plugin).filter (fun c => c.plugin = k + 0) = call k plugin := by
        apply List.filter_eq_self.mpr
        intro c hc
        simpa using hown k plugin c hc
      have hrest : ((plugins.zipIdx (k + 1)).flatMap fun p => call p.2 p.1).filter
          (fun c => c.plugin = k + 0) = [] := by
        apply List.filter_eq_nil_iff.mpr
        intro c hc
        obtain ⟨p, hp, hc⟩ := List.mem_flatMap.mp hc
        have hle := List.le_snd_of_mem_zipIdx hp
        rw [hown p.2 p.1 c hc]
        simp only [decide_eq_true_eq]
        omega
      rw [hfirst, hrest, List.append_nil]
      rfl
    | succ i =>
      have hfirst : (call k plugin).filter (fun c => c.plugin = k + (i + 1)) = [] := by
        apply List.filter_eq_nil_iff.mpr
        intro c hc
        rw [hown k plugin c hc]
        simp
      have hshift : k + (i + 1) = k + 1 + i := by omega
      rw [hfirst, List.nil_append, hshift, ih]
      rfl

theorem initSession_own {i : ℕ} {plugin : Kplugin} (h : env.scheme.plugins[i]? = some plugin) :
    (kschemeInitSessionPlugins fns env.scheme).filter (fun call => call.plugin = i) =
      kpluginInitSession fns i plugin := by
  have hown := @filter_plugins (kpluginInitSession fns) (by
    intro i plugin c hc
    unfold kpluginInitSession at hc
    split at hc
    · rw [List.mem_singleton.mp hc]
      rfl
    · cases hc) env.scheme.plugins 0 i
  rw [h, Nat.zero_add] at hown
  exact hown

theorem finiSession_own {i : ℕ} {plugin : Kplugin} (h : env.scheme.plugins[i]? = some plugin) :
    (kschemeFiniSessionPlugins fns env.scheme).filter (fun call => call.plugin = i) =
      kpluginFiniSession fns i plugin := by
  have hown := @filter_plugins (kpluginFiniSession fns) (by
    intro i plugin c hc
    unfold kpluginFiniSession at hc
    split at hc
    · rw [List.mem_singleton.mp hc]
      rfl
    · cases hc) env.scheme.plugins 0 i
  rw [h, Nat.zero_add] at hown
  exact hown

end Own

section State

variable {ktpd ktpd' : Ktpd env} {sys : KtpdSys} {handled handled' : List (Handled env)}

/-- The session has been authorised exactly if an AUTH has been served. -/
structure Signed (ktpd : Ktpd env) (handled : List (Handled env)) : Prop where
  live : Ktpd.Live ktpd
  signed : ktpd.state = .unauthorized ↔ auths handled = 0

theorem auths_cons (h : Handled env) :
    auths (h :: handled) = auths handled + if Authorises h then 1 else 0 := by
  simp [auths, List.countP_cons]

/-- A message leaves an authorised session authorised. -/
theorem dispatch_live {msg : KtpMsg} (hlive : Ktpd.Live ktpd)
    (h : ktpd.dispatch sys msg = some ktpd') :
    Ktpd.Live ktpd' ∧ (ktpd.state ≠ .unauthorized → ktpd'.state ≠ .unauthorized) := by
  have hsilent : ∀ r : Ktpd env, Ktpd.Silent ktpd r →
      Ktpd.Live r ∧ (ktpd.state ≠ .unauthorized → r.state ≠ .unauthorized) := by
    intro r hr
    exact ⟨hlive.of_eq hr.exec hr.state, fun hne => hr.state ▸ hne⟩
  cases Ktpd.dispatch_spec hlive h with
  | answered r hkind h =>
    refine ⟨h.live hlive, fun hne => ?_⟩
    rcases h.state with hstate | ⟨-, hidle⟩
    · exact hstate ▸ hne
    · rw [hidle]
      decide
  | scheduled hkind hidle h =>
    have hstate := h.state
    refine ⟨⟨fun _ => hstate, fun _ => by rw [h.running]; rfl⟩, fun _ => ?_⟩
    rw [hstate]
    decide
  | notified hkind hinput hnotify h hkeeps =>
    exact ⟨hlive.of_eq (by rw [h.exec]) h.state, fun hne => h.state ▸ hne⟩
  | stdin hkind => exact hsilent _ (Ktpd.processStdin_silent sys ktpd msg)
  | stdinClose hkind => exact hsilent _ (Ktpd.processStdinClose_silent sys ktpd)
  | stdoutClose hkind => exact hsilent _ (Ktpd.processStdoutClose_closes ktpd).silent
  | stderrClose hkind => exact hsilent _ (Ktpd.processStderrClose_closes ktpd).silent

theorem dispatch_signed {m : KtpMsg × KtpdSys} (hsigned : Signed ktpd handled)
    (h : ktpd.dispatch m.2 m.1 = some ktpd') : Signed ktpd' (⟨ktpd, m.1, m.2⟩ :: handled) := by
  obtain ⟨hlive, hkeeps⟩ := dispatch_live hsigned.live h
  refine ⟨hlive, ?_⟩
  rw [auths_cons]
  by_cases hstate : ktpd.state = .unauthorized
  · have hnext := dispatch_state h (.inl hstate) (by rw [hstate]; simp)
    have hnone := hsigned.signed.mp hstate
    have hiff : Authorises ⟨ktpd, m.1, m.2⟩ ↔ knowsPeer m = true :=
      ⟨fun hauth => hauth.1, fun hpeer => ⟨hpeer, .inl hstate⟩⟩
    rw [hnext, hnone, hstate]
    cases hpeer : knowsPeer m <;> simp [hiff, hpeer]
  · have hsome : auths handled ≠ 0 := fun hnone => hstate (hsigned.signed.mpr hnone)
    exact ⟨fun h => absurd h (hkeeps hstate), fun h => by omega⟩

theorem dispatchAll_signed {msgs : List (KtpMsg × KtpdSys)} (hsigned : Signed ktpd handled)
    (h : dispatchAll (ktpd, handled) msgs = some (ktpd', handled')) : Signed ktpd' handled' := by
  induction msgs generalizing ktpd handled with
  | nil =>
    cases h
    exact hsigned
  | cons m msgs ih =>
    obtain ⟨mid, hmid, hrest⟩ := dispatchAll_cons.mp h
    exact ih (dispatch_signed hsigned hmid) hrest

/-- A callback that dispatches nothing. -/
theorem Signed.of_state (h : Signed ktpd handled) (hexec : ktpd'.exec.isSome = ktpd.exec.isSome)
    (hstate : ktpd'.state = ktpd.state) : Signed ktpd' handled :=
  ⟨h.live.of_eq hexec hstate, hstate ▸ h.signed⟩

theorem still_isSome (h : Ktpd.Still ktpd ktpd') : ktpd'.exec.isSome = ktpd.exec.isSome := by
  have hsaved := congrArg Option.isSome h.saved
  rwa [Option.isSome_map, Option.isSome_map] at hsaved

theorem poll_signed {fd : Fd} {revents : Ktpd.Revents} (hsigned : Signed ktpd handled)
    (h : ktpd.step (.poll fd revents, sys) = some ktpd') : Signed ktpd' handled :=
  hsigned.of_state (still_isSome (Ktpd.poll_still h)) (Ktpd.step_poll_same h).2

theorem written_signed (event : ClientEvent) (hsigned : Signed ktpd handled) :
    Signed (written ktpd event) handled := by
  refine hsigned.of_state ?_ (written_spec ktpd event).2.1
  unfold written
  split
  · obtain ⟨eloop, heq, -⟩ := Ktpd.clientOut_spec event.sys ktpd
    rw [heq]
  · rfl

theorem waitForActionsEv_signed (sys : KtpdSys) (reports : List (Pid × WaitStatus))
    (hsigned : Signed ktpd handled) : Signed (ktpd.waitForActionsEv sys reports) handled := by
  have hstill := Ktpd.reapChildren_still sys ktpd reports
  obtain ⟨-, -, hstate, -⟩ := Ktpd.reapChildren_spec sys ktpd reports
  have hreaped := hsigned.of_state (still_isSome hstill) hstate
  unfold Ktpd.waitForActionsEv
  dsimp only
  split
  · exact hreaped
  · rename_i exec hexec
    split
    · exact hreaped
    · rename_i retcode hretcode
      -- A command that is over was running in an authorised session.
      have hwait := hreaped.live.mp (by rw [hexec]; rfl)
      have hfinish := Ktpd.finishCommand_spec sys (ktpd.reapChildren sys reports) exec retcode
      constructor
      · constructor
        · intro hsome
          rw [hfinish.idle] at hsome
          cases hsome
        · intro hstate
          rw [hfinish.state] at hstate
          cases hstate
      · rw [hfinish.state, ← hreaped.signed, hwait]
        simp

variable {loop loop' : KtpdLoop env}

theorem step_signed (event : LoopEvent) (hsigned : Signed loop.ktpd loop.handled)
    (h : loop.step event = some loop') : Signed loop'.ktpd loop'.handled := by
  unfold step at h
  split at h
  · cases h
  · split at h
    · rename_i event
      split at h
      · unfold clientEv at h
        split at h
        · cases h
          exact ⟨hsigned.live, hsigned.signed⟩
        · obtain ⟨⟨ktpd, handled⟩, hread, rfl⟩ := Option.map_eq_some_iff.mp h
          have hnext := dispatchAll_signed (written_signed event hsigned) hread
          dsimp only
          split
          · exact ⟨hnext.live, hnext.signed⟩
          · exact hnext
      · cases h
    · split at h
      · cases h
      · obtain ⟨ktpd, hktpd, rfl⟩ := Option.map_eq_some_iff.mp h
        exact poll_signed hsigned hktpd
    · cases h
      exact waitForActionsEv_signed _ _ hsigned

theorem new_signed (eloop : env.L.State) (world : World) :
    Signed (new eloop world : KtpdLoop env).ktpd (new eloop world : KtpdLoop env).handled := by
  refine ⟨⟨fun h => ?_, fun h => ?_⟩, fun _ => rfl, fun _ => rfl⟩
  · cases h
  · cases h

end State

section Balance

variable {fns : Kplugin → SessionFns} {loop : KtpdLoop env} {i : ℕ} {plugin : Kplugin}

theorem filter_flatMap_calls (handled : List (Handled env))
    (h : env.scheme.plugins[i]? = some plugin) :
    (handled.flatMap (dispatchCalls fns)).filter (fun call => call.plugin = i) =
      (List.replicate (auths handled) (kpluginInitSession fns i plugin)).flatten := by
  induction handled with
  | nil => rfl
  | cons head handled ih =>
    rw [List.flatMap_cons, List.filter_append, ih, dispatchCalls_eq, auths_cons]
    by_cases hauth : Authorises head
    · rw [if_pos hauth, if_pos hauth, initSession_own h, List.replicate_succ, List.flatten_cons]
    · rw [if_neg hauth, if_neg hauth]
      rfl

theorem auths_reverse (handled : List (Handled env)) : auths handled.reverse = auths handled :=
  List.countP_reverse

/-- The calls for one plugin. -/
theorem sessionCalls_own (hsigned : Signed loop.ktpd loop.handled)
    (h : env.scheme.plugins[i]? = some plugin) :
    (sessionCalls fns loop).filter (fun call => call.plugin = i) =
      (List.replicate (auths loop.handled) (kpluginInitSession fns i plugin)).flatten ++
        if auths loop.handled = 0 then [] else kpluginFiniSession fns i plugin := by
  rw [sessionCalls, List.filter_append, filter_flatMap_calls _ h, auths_reverse]
  congr 1
  unfold sessionFreeCalls
  by_cases hnone : auths loop.handled = 0
  · rw [if_pos hnone, if_neg (not_not.mpr (hsigned.signed.mpr hnone))]
    rfl
  · rw [if_neg hnone, if_pos fun hstate => hnone (hsigned.signed.mp hstate), finiSession_own h]

/-- A plugin is called once for the start and once for the end of a session, exactly if one AUTH
has been served, or none, as far as the plugin has set the functions. -/
theorem plugin_balanced_iff {eloop : env.L.State} {world : World} {events : List LoopEvent}
    (hrun : Runs.run step (new eloop world) events = some loop)
    (hplugin : env.scheme.plugins[i]? = some plugin) :
    Balanced i (sessionCalls fns loop) ↔ auths loop.handled = 0 ∨
      ((fns plugin).initSession = (fns plugin).finiSession ∧
        (auths loop.handled = 1 ∨ (fns plugin).initSession = false)) := by
  have hsigned := Runs.run_invariant (I := fun loop : KtpdLoop env => Signed loop.ktpd loop.handled)
    (fun _ event _ hs h => step_signed event hs h) (new_signed eloop world) hrun
  rw [Balanced, sessionCalls_own hsigned hplugin]
  unfold kpluginInitSession kpluginFiniSession
  generalize auths loop.handled = n
  match n with
  | 0 => simp
  | 1 =>
    cases (fns plugin).initSession <;> cases (fns plugin).finiSession <;> simp
  | n + 2 =>
    cases (fns plugin).initSession <;> cases (fns plugin).finiSession <;>
      simp [List.replicate_succ]

end Balance

/-- The sample server with one plugin. -/
def pluginEnv : KtpdEnv :=
  { Ktpd.sampleEnv with
    scheme := { Ktpd.sampleEnv.scheme with plugins := [⟨"klish", []⟩] } }

def bothFns : Kplugin → SessionFns := fun _ => ⟨true, true⟩

theorem plugin_balanced_iff_sample : ∃ loop : KtpdLoop pluginEnv,
    Runs.run step (new (fun _ => none) Ktpd.sampleWorld)
      [sampleRead [(.preform .auth {}, Ktpd.sampleSys 0)]] = some loop ∧
    (Balanced 0 (sessionCalls bothFns loop) ↔ auths loop.handled = 0 ∨
      ((bothFns ⟨"klish", []⟩).initSession = (bothFns ⟨"klish", []⟩).finiSession ∧
        (auths loop.handled = 1 ∨ (bothFns ⟨"klish", []⟩).initSession = false))) := by
  have hrun : (Runs.run step (new (fun _ => none) Ktpd.sampleWorld : KtpdLoop pluginEnv)
      [sampleRead [(.preform .auth {}, Ktpd.sampleSys 0)]]).isSome = true := by decide
  obtain ⟨loop, hloop⟩ := Option.isSome_iff_exists.mp hrun
  exact ⟨loop, hloop, plugin_balanced_iff hloop rfl⟩

/-- A client sends a second AUTH and leaves. -/
theorem plugin_init_twice : ∃ loop : KtpdLoop pluginEnv,
    Runs.run step (new (fun _ => none) Ktpd.sampleWorld)
      [sampleRead [(.preform .auth {}, Ktpd.sampleSys 0)],
        sampleRead [(.preform .auth {}, Ktpd.sampleSys 0)]] = some loop ∧
    sessionCalls bothFns loop = [.initSession 0, .initSession 0, .finiSession 0] ∧
    ¬Balanced 0 (sessionCalls bothFns loop) := by
  have hrun : (Runs.run step (new (fun _ => none) Ktpd.sampleWorld : KtpdLoop pluginEnv)
      [sampleRead [(.preform .auth {}, Ktpd.sampleSys 0)],
        sampleRead [(.preform .auth {}, Ktpd.sampleSys 0)]]).map (sessionCalls bothFns) =
      some [.initSession 0, .initSession 0, .finiSession 0] := by decide
  obtain ⟨loop, hloop, hcalls⟩ := Option.map_eq_some_iff.mp hrun
  refine ⟨loop, hloop, hcalls, ?_⟩
  rw [hcalls, Balanced]
  decide

end KtpdLoop

end Klish
