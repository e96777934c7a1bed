import Klish.KtpdExit

/-!
# The event loop of the server process

`client_ev` hands all messages of one read over to the session before it looks at the exit flag.
The loop has a history of the messages that were handed over.
-/

namespace Klish

/-- What `client_ev` finds. The read callback completes the messages one after another. -/
structure ClientEvent where
  revents : Ktpd.Revents
  /-- The system during the write. -/
  sys : KtpdSys
  outFailed : Bool
  msgs : List (KtpMsg × KtpdSys)
  inFailed : Bool

/-- What makes the loop call the session. -/
inductive LoopEvent where
  | client (event : ClientEvent)
  | stream (fd : Fd) (revents : Ktpd.Revents) (sys : KtpdSys)
  | sigchld (reports : List (Pid × WaitStatus)) (sys : KtpdSys)

/-- A message and the session that dispatches it. -/
structure Handled (env : KtpdEnv) where
  ktpd : Ktpd env
  msg : KtpMsg
  sys : KtpdSys

/-- The messages are those handed over so far, the last one first. -/
structure KtpdLoop (env : KtpdEnv) where
  ktpd : Ktpd env
  /-- A callback has returned `BOOL_FALSE`. -/
  stopped : Bool
  handled : List (Handled env)

namespace KtpdLoop

variable {env : KtpdEnv}

def new (eloop : env.L.State) (world : World) : KtpdLoop env := ⟨.new eloop world, false, []⟩

/-- The calls of `ktpd_session_dispatch` during one read. -/
def dispatchAll (s : Ktpd env × List (Handled env)) (msgs : List (KtpMsg × KtpdSys)) :
    Option (Ktpd env × List (Handled env)) :=
  Runs.run (Runs.observed (fun (ktpd : Ktpd env) m => ktpd.dispatch m.2 m.1)
    fun ktpd m _ handled => ⟨ktpd, m.1, m.2⟩ :: handled) s msgs

/-- The session after the part of `client_ev` that writes. -/
def written (ktpd : Ktpd env) (event : ClientEvent) : Ktpd env :=
  if event.revents.pollout then ktpd.clientOut event.sys else ktpd

/-- The messages that are read. -/
def received (event : ClientEvent) : List (KtpMsg × KtpdSys) :=
  if event.revents.pollin then event.msgs else []

/-- `client_ev`. The loop is stopped by an error, by the end of the connection or by the exit
flag. -/
def clientEv (loop : KtpdLoop env) (event : ClientEvent) : Option (KtpdLoop env) :=
  if event.revents.pollout && event.outFailed then
    some { loop with
      ktpd := { loop.ktpd with eloop := env.L.delFd loop.ktpd.eloop env.clientFd }
      stopped := true }
  else
    (dispatchAll (written loop.ktpd event, loop.handled) (received event)).map fun r =>
      let failed := (event.revents.pollin && event.inFailed) || event.revents.failed
      { ktpd :=
          if failed then { r.1 with eloop := env.L.delFd r.1.eloop env.clientFd } else r.1
        stopped := failed || r.1.exit
        handled := r.2 }

/-- `wait_for_actions_ev` gets to its end: there is a command and it is over. -/
def finishes (ktpd : Ktpd env) (sys : KtpdSys) (reports : List (Pid × WaitStatus)) : Bool :=
  (ktpd.reapChildren sys reports).exec.any fun exec => (Kexec.kexecRetcode exec.toKexec).isSome

/-- One callback of the loop. -/
def step (loop : KtpdLoop env) (event : LoopEvent) : Option (KtpdLoop env) :=
  if loop.stopped then none
  else
    match event with
    | .client event =>
      if (event.revents.pollin = true → env.L.polls loop.ktpd.eloop env.clientFd .pollin = true) ∧
          (event.revents.pollout = true →
            env.L.polls loop.ktpd.eloop env.clientFd .pollout = true) then
        loop.clientEv event
      else none
    | .stream fd revents sys =>
      if fd = env.clientFd then none
      else (loop.ktpd.step (.poll fd revents, sys)).map fun ktpd => { loop with ktpd }
    | .sigchld reports sys =>
      let ktpd := loop.ktpd.waitForActionsEv sys reports
      some { loop with ktpd, stopped := finishes loop.ktpd sys reports && ktpd.exit }

/-- The messages that make the server parse or execute a line. -/
def IsRequest (msg : KtpMsg) : Prop :=
  msg.cmd = .cmd ∨ msg.cmd = .completion ∨ msg.cmd = .help

instance (msg : KtpMsg) : Decidable (IsRequest msg) := inferInstanceAs (Decidable (_ ∨ _ ∨ _))

/-- An AUTH for which the system knows the peer. -/
def knowsPeer (m : KtpMsg × KtpdSys) : Bool := m.1.cmd == .auth && m.2.peercred

/-- The message is a request, and it is served. -/
def Serves (h : Handled env) : Prop := IsRequest h.msg ∧ h.ktpd.state = .idle

/-- An AUTH that succeeds. -/
def Authorises (h : Handled env) : Prop :=
  knowsPeer (h.msg, h.sys) = true ∧ (h.ktpd.state = .unauthorized ∨ h.ktpd.state = .idle)

/-- Requests are served in an authorised session without a command that has not been told to
exit. -/
def Lawful : List (Handled env) → Prop
  | [] => True
  | h :: before =>
    (Serves h → (∃ a ∈ before, Authorises a) ∧ h.ktpd.exec = none ∧ h.ktpd.exit = false) ∧
      Lawful before

/-- None of the messages is a request that comes when the session is authorised. -/
def Restrained : Bool → List (KtpMsg × KtpdSys) → Prop
  | _, [] => True
  | authorised, m :: msgs =>
    (IsRequest m.1 → authorised = false) ∧ Restrained (authorised || knowsPeer m) msgs

/-- Behind the message that sets the exit flag there is no request, as far as the session is
authorised. -/
def Orderly : Ktpd env → List (KtpMsg × KtpdSys) → Prop
  | _, [] => True
  | ktpd, m :: msgs => ∀ ktpd', ktpd.dispatch m.2 m.1 = some ktpd' →
    if ktpd'.exit then Restrained (decide (ktpd'.state ≠ .unauthorized)) msgs
    else Orderly ktpd' msgs

/-- The messages of each read are orderly. -/
def OrderlyEvent (loop : KtpdLoop env) : LoopEvent → Prop
  | .client event => (event.revents.pollout && event.outFailed) = false →
    Orderly (written loop.ktpd event) (received event)
  | .stream .. | .sigchld .. => True

variable {ktpd ktpd' : Ktpd env} {handled handled' : List (Handled env)} {sys : KtpdSys}
  {msgs : List (KtpMsg × KtpdSys)}

/-- The requests of a history have found no exit flag. -/
def Timely (handled : List (Handled env)) : Prop :=
  ∀ h ∈ handled, Serves h → h.ktpd.exit = false

theorem timely_cons {h : Handled env} :
    Timely (h :: handled) ↔ (Serves h → h.ktpd.exit = false) ∧ Timely handled := by
  simp [Timely]

theorem Lawful.timely (h : Lawful handled) : Timely handled := by
  induction handled with
  | nil => exact fun h hmem => absurd hmem List.not_mem_nil
  | cons first handled ih =>
    apply timely_cons.mpr
    exact ⟨fun hserves => (h.1 hserves).2.2, ih h.2⟩

theorem dispatchAll_cons {m : KtpMsg × KtpdSys} {r : Ktpd env × List (Handled env)} :
    dispatchAll (ktpd, handled) (m :: msgs) = some r ↔ ∃ ktpd', ktpd.dispatch m.2 m.1 = some ktpd' ∧
      dispatchAll (ktpd', ⟨ktpd, m.1, m.2⟩ :: handled) msgs = some r := by
  unfold dispatchAll
  rw [Runs.run_cons]
  constructor
  · rintro ⟨t, ht, hr⟩
    obtain ⟨ktpd', hktpd', rfl⟩ := Runs.observed_eq_some.mp ht
    exact ⟨ktpd', hktpd', hr⟩
  · rintro ⟨ktpd', hktpd', hr⟩
    exact ⟨_, Runs.observed_eq_some.mpr ⟨ktpd', hktpd', rfl⟩, hr⟩

/-- The history only grows. -/
theorem dispatchAll_timely (h : dispatchAll (ktpd, handled) msgs = some (ktpd', handled'))
    (htimely : Timely handled') : Timely handled := by
  induction msgs generalizing ktpd handled with
  | nil =>
    cases h
    exact htimely
  | cons m msgs ih =>
    obtain ⟨mid, -, hrest⟩ := dispatchAll_cons.mp h
    exact (timely_cons.mp (ih hrest)).2

theorem dispatch_exit_mono {msg : KtpMsg} (h : ktpd.dispatch sys msg = some ktpd')
    (hexit : ktpd.exit = true) : ktpd'.exit = true := by
  cases Ktpd.dispatch_exit h with
  | kept h => rw [h, hexit]
  | auth hkind hstate h =>
    subst h
    rw [(Ktpd.processAuth_ends sys ktpd msg).exit, hexit, Bool.true_or]
  | cmd hkind hidle h =>
    cases h with
    | ends hnot done h => rw [h.exit, hexit, Bool.true_or]
    | refused r h hflag => rw [hflag, hexit, Bool.true_or]
  | hint hkind hidle done h => rw [h.exit, hexit, Bool.true_or]

/-- A request that is not served gets an error, and neither the klish session nor the command is
touched. -/
theorem dispatch_unserved {msg : KtpMsg} (h : ktpd.dispatch sys msg = some ktpd')
    (hrequest : IsRequest msg) (hnot : ¬ Serves (⟨ktpd, msg, sys⟩ : Handled env)) :
    (∃ ktpCmd err, ktpd' = ktpd.send sys (.ofError ktpCmd (some err))) ∧
      ktpd'.world = ktpd.world ∧ ktpd'.exec = ktpd.exec ∧ ktpd'.state = ktpd.state := by
  have hbusy : ktpd.state ≠ .idle := fun hidle => hnot ⟨hrequest, hidle⟩
  have hkinds : ∃ r : KtpRequest, msg.cmd = r.kind := by
    rcases hrequest with hcmd | hcompletion | hhelp
    · exact ⟨.cmd, hcmd⟩
    · exact ⟨.completion, hcompletion⟩
    · exact ⟨.help, hhelp⟩
  obtain ⟨r, hr⟩ := hkinds
  cases Ktpd.dispatch_handler h with
  | illegal r err _ _ _ => exact ⟨⟨r.ack, err, rfl⟩, rfl, rfl, rfl⟩
  | cmd _ hidle _ | completion _ hidle _ | help _ hidle _ => exact absurd hidle hbusy
  | unsupported _ hkind _ | ignored hkind _ => exact absurd hr (hkind r)
  | auth hkind _ | stdin hkind _ | stdinClose hkind _ | stdoutClose hkind _ | stderrClose hkind _
  | notification hkind =>
    rw [IsRequest, hkind] at hrequest
    rcases hrequest with hcmd | hcompletion | hhelp <;> contradiction

/-- The state after a message that is not served. -/
theorem dispatch_state {msg : KtpMsg} (h : ktpd.dispatch sys msg = some ktpd')
    (hstate : ktpd.state = .unauthorized ∨ ktpd.state = .idle)
    (hnot : ¬ (IsRequest msg ∧ ktpd.state = .idle)) :
    ktpd'.state = if knowsPeer (msg, sys) then .idle else ktpd.state := by
  have hwait : ktpd.state ≠ .waitForProcess := by
    rcases hstate with hstate | hstate <;> rw [hstate] <;> decide
  have hother : msg.cmd ≠ .auth → knowsPeer (msg, sys) = false := fun hne => by
    simp [knowsPeer, hne]
  cases Ktpd.dispatch_handler h with
  | auth hkind _ =>
    unfold Ktpd.processAuth
    cases hpeer : sys.peercred <;> simp [knowsPeer, hkind, hpeer, Ktpd.send]
  | cmd hkind hidle _ => exact absurd ⟨.inl hkind, hidle⟩ hnot
  | completion hkind hidle _ => exact absurd ⟨.inr (.inl hkind), hidle⟩ hnot
  | help hkind hidle _ => exact absurd ⟨.inr (.inr hkind), hidle⟩ hnot
  | illegal r err hkind hbusy hauth =>
    rw [hother fun hkind => (hauth hkind) (hstate.resolve_right hbusy)]
    rfl
  | stdin _ hwait' => exact absurd hwait' hwait
  | stdinClose _ hwait' => exact absurd hwait' hwait
  | stdoutClose _ hwait' => exact absurd hwait' hwait
  | stderrClose _ hwait' => exact absurd hwait' hwait
  | notification hkind =>
    obtain ⟨session, hsession⟩ := Ktpd.processNotification_spec ktpd msg
    rw [hsession, hother (by rw [hkind]; decide)]
    rfl
  | unsupported err hkind =>
    rw [hother (hkind .auth)]
    rfl
  | ignored hkind =>
    rw [hother (hkind .auth)]
    rfl

/-- With the exit flag set, no request may be served. -/
theorem timely_iff_restrained (hexit : ktpd.exit = true)
    (hstate : ktpd.state = .unauthorized ∨ ktpd.state = .idle)
    (h : dispatchAll (ktpd, handled) msgs = some (ktpd', handled')) :
    Timely handled' ↔
      Timely handled ∧ Restrained (decide (ktpd.state ≠ .unauthorized)) msgs := by
  induction msgs generalizing ktpd handled with
  | nil =>
    cases h
    simp [Restrained]
  | cons m msgs ih =>
    obtain ⟨mid, hmid, hrest⟩ := dispatchAll_cons.mp h
    by_cases hserves : IsRequest m.1 ∧ ktpd.state = .idle
    · constructor
      · intro htimely
        have hfirst := (timely_cons.mp (dispatchAll_timely hrest htimely)).1 hserves
        rw [hexit] at hfirst
        cases hfirst
      · rintro ⟨-, hrestrained⟩
        have hnone := hrestrained.1 hserves.1
        rw [hserves.2] at hnone
        cases hnone
    · have hmidState := dispatch_state hmid hstate hserves
      have hiff := ih (dispatch_exit_mono hmid hexit) (by
        rw [hmidState]
        split
        · exact .inr rfl
        · exact hstate) hrest
      have hauth : decide (mid.state ≠ .unauthorized) =
          (decide (ktpd.state ≠ .unauthorized) || knowsPeer m) := by
        rw [hmidState]
        cases knowsPeer m <;> simp
      have hfirst : IsRequest m.1 → decide (ktpd.state ≠ .unauthorized) = false := by
        intro hrequest
        rcases hstate with hstate | hstate
        · rw [hstate]
          rfl
        · exact absurd ⟨hrequest, hstate⟩ hserves
      rw [hiff, timely_cons, hauth, Restrained]
      constructor
      · rintro ⟨⟨-, htimely⟩, hrestrained⟩
        exact ⟨htimely, hfirst, hrestrained⟩
      · rintro ⟨htimely, -, hrestrained⟩
        exact ⟨⟨fun hfirst => absurd hfirst hserves, htimely⟩, hrestrained⟩

/-- A message that sets the exit flag leaves the session idle or unauthorised. -/
theorem dispatch_exit_state {msg : KtpMsg} (hlive : Ktpd.Live ktpd)
    (h : ktpd.dispatch sys msg = some ktpd') (hexit : ktpd.exit = false)
    (hexit' : ktpd'.exit = true) : ktpd'.state = .unauthorized ∨ ktpd'.state = .idle := by
  obtain ⟨r, -, hanswered⟩ := Ktpd.dispatch_answered hlive h hexit hexit'
  have hbefore : ktpd.state = .unauthorized ∨ ktpd.state = .idle := by
    cases Ktpd.dispatch_exit h with
    | kept h =>
      rw [h, hexit] at hexit'
      cases hexit'
    | auth hkind hstate h => exact hstate
    | cmd hkind hidle h => exact .inr hidle
    | hint hkind hidle done h => exact .inr hidle
  rcases hanswered.state with hstate | ⟨-, hidle⟩
  · rwa [hstate]
  · exact .inr hidle

theorem dispatch_wired {msg : KtpMsg} (hwired : Ktpd.Wired ktpd)
    (h : ktpd.dispatch sys msg = some ktpd') : Ktpd.Wired ktpd' :=
  (Ktpd.dispatch_stepSpec hwired h).wired hwired

/-- The requests of one read are served in time exactly if the messages are orderly. -/
theorem timely_iff_orderly (hwired : Ktpd.Wired ktpd) (hexit : ktpd.exit = false)
    (h : dispatchAll (ktpd, handled) msgs = some (ktpd', handled')) :
    Timely handled' ↔ Timely handled ∧ Orderly ktpd msgs := by
  induction msgs generalizing ktpd handled with
  | nil =>
    cases h
    simp [Orderly]
  | cons m msgs ih =>
    obtain ⟨mid, hmid, hrest⟩ := dispatchAll_cons.mp h
    have hfirst : Timely (⟨ktpd, m.1, m.2⟩ :: handled) ↔ Timely handled := by
      rw [timely_cons]
      exact ⟨And.right, fun htimely => ⟨fun _ => hexit, htimely⟩⟩
    have horderly : Orderly ktpd (m :: msgs) ↔ if mid.exit then
        Restrained (decide (mid.state ≠ .unauthorized)) msgs else Orderly mid msgs := by
      constructor
      · intro h
        exact h mid hmid
      · intro h ktpd' hktpd'
        obtain rfl : mid = ktpd' := Option.some.inj (hmid.symm.trans hktpd')
        exact h
    rw [horderly, ← hfirst]
    cases hmidExit : mid.exit with
    | true =>
      have hmidState := dispatch_exit_state hwired.live hmid hexit hmidExit
      simpa using timely_iff_restrained hmidExit hmidState hrest
    | false => simpa using ih (dispatch_wired hwired hmid) hmidExit hrest

/-- What every callback of the session keeps. The law needs the requests to be served in time. -/
structure ReadInv (ktpd : Ktpd env) (handled : List (Handled env)) : Prop where
  wired : Ktpd.Wired ktpd
  authorised : ktpd.state ≠ .unauthorized → ∃ a ∈ handled, Authorises a
  lawful : Timely handled → Lawful handled

theorem dispatch_readInv {m : KtpMsg × KtpdSys} (hinv : ReadInv ktpd handled)
    (h : ktpd.dispatch m.2 m.1 = some ktpd') : ReadInv ktpd' (⟨ktpd, m.1, m.2⟩ :: handled) where
  wired := dispatch_wired hinv.wired h
  authorised := by
    intro hstate'
    by_cases hstate : ktpd.state = .unauthorized
    · have hidle := dispatch_state h (.inl hstate) (by rw [hstate]; simp)
      cases hpeer : knowsPeer m with
      | true => exact ⟨_, List.mem_cons_self, hpeer, .inl hstate⟩
      | false =>
        rw [hpeer] at hidle
        exact absurd (hidle.trans hstate) hstate'
    · obtain ⟨a, ha, hauth⟩ := hinv.authorised hstate
      exact ⟨a, List.mem_cons_of_mem _ ha, hauth⟩
  lawful := by
    intro htimely
    obtain ⟨hfirst, htimely⟩ := timely_cons.mp htimely
    refine ⟨fun hserves => ⟨hinv.authorised ?_, hinv.wired.exec_none ?_, hfirst hserves⟩,
      hinv.lawful htimely⟩
    · show ktpd.state ≠ .unauthorized
      rw [show ktpd.state = .idle from hserves.2]
      decide
    · show ktpd.state ≠ .waitForProcess
      rw [show ktpd.state = .idle from hserves.2]
      decide

theorem dispatchAll_readInv (hinv : ReadInv ktpd handled)
    (h : dispatchAll (ktpd, handled) msgs = some (ktpd', handled')) : ReadInv ktpd' handled' := by
  induction msgs generalizing ktpd handled with
  | nil =>
    cases h
    exact hinv
  | cons m msgs ih =>
    obtain ⟨mid, hmid, hrest⟩ := dispatchAll_cons.mp h
    exact ih (dispatch_readInv hinv hmid) hrest

/-- A callback that dispatches nothing. -/
theorem ReadInv.of_state (hinv : ReadInv ktpd handled) (hwired : Ktpd.Wired ktpd')
    (hstate : ktpd'.state ≠ .unauthorized → ktpd.state ≠ .unauthorized) :
    ReadInv ktpd' handled := ⟨hwired, fun h => hinv.authorised (hstate h), hinv.lawful⟩

theorem written_spec (ktpd : Ktpd env) (event : ClientEvent) :
    (written ktpd event).exit = ktpd.exit ∧ (written ktpd event).state = ktpd.state ∧
      (Ktpd.Wired ktpd → Ktpd.Wired (written ktpd event)) := by
  unfold written
  split
  · obtain ⟨eloop, heq, hkeeps⟩ := Ktpd.clientOut_spec event.sys ktpd
    rw [heq]
    refine ⟨rfl, rfl, fun hwired => ⟨hwired.live, ?_, hwired.isOpen, hwired.apart⟩⟩
    have hkeeps := hkeeps fun exec hexec =>
      ⟨(hwired.apart exec hexec).stdout, (hwired.apart exec hexec).stderr⟩
    exact hkeeps.callback.trans hwired.callback
  · exact ⟨rfl, rfl, fun hwired => hwired⟩

/-- A loop that goes on has seen no exit flag. -/
def Running (loop : KtpdLoop env) : Prop :=
  loop.stopped = false → loop.ktpd.exit = false ∧ ReadInv loop.ktpd loop.handled

/-- All requests so far have been served in time. -/
structure LoopInv (loop : KtpdLoop env) : Prop where
  running : Running loop
  timely : Timely loop.handled
  lawful : Lawful loop.handled

variable {loop loop' : KtpdLoop env}

theorem finishes_spec (sys : KtpdSys) (ktpd : Ktpd env) (reports : List (Pid × WaitStatus)) :
    (finishes ktpd sys reports = false → (ktpd.waitForActionsEv sys reports).exit = ktpd.exit ∧
      (ktpd.waitForActionsEv sys reports).state = ktpd.state) ∧
    (finishes ktpd sys reports = true → ktpd.exec.isSome = true) := by
  obtain ⟨-, -, hstate, -, hnone, -⟩ := Ktpd.reapChildren_spec sys ktpd reports
  have hexit := Ktpd.reapChildren_exit sys ktpd reports
  unfold finishes Ktpd.waitForActionsEv
  dsimp only
  cases hexec : (ktpd.reapChildren sys reports).exec with
  | none => exact ⟨fun _ => ⟨hexit, hstate⟩, fun h => by simp at h⟩
  | some exec =>
    cases hretcode : Kexec.kexecRetcode exec.toKexec with
    | none =>
      simp only [hretcode]
      exact ⟨fun _ => ⟨hexit, hstate⟩, fun h => by simp [hretcode] at h⟩
    | some retcode =>
      refine ⟨fun h => by simp [hretcode] at h, fun _ => ?_⟩
      cases hbefore : ktpd.exec with
      | none =>
        rw [(hnone hbefore).1] at hexec
        cases hexec
      | some exec => rfl

/-- The callback that reaps processes keeps the invariant of a loop that goes on. -/
theorem waitForActionsEv_readInv (sys : KtpdSys) (reports : List (Pid × WaitStatus))
    (hinv : ReadInv ktpd handled) : ReadInv (ktpd.waitForActionsEv sys reports) handled := by
  obtain ⟨hsame, hfinished⟩ := finishes_spec sys ktpd reports
  refine hinv.of_state
    ((Ktpd.waitForActionsEv_stepSpec ktpd sys reports).wired hinv.wired) fun hstate => ?_
  cases hfinishes : finishes ktpd sys reports with
  | false => rwa [← (hsame hfinishes).2]
  | true =>
    rw [hinv.wired.live.mp (hfinished hfinishes)]
    decide

theorem clientEv_cases {event : ClientEvent} (h : loop.clientEv event = some loop') :
    ((event.revents.pollout && event.outFailed) = true ∧ loop'.stopped = true ∧
      loop'.handled = loop.handled) ∨
    ((event.revents.pollout && event.outFailed) = false ∧ ∃ ktpd,
      dispatchAll (written loop.ktpd event, loop.handled) (received event) =
        some (ktpd, loop'.handled) ∧
      (loop'.stopped = false → loop'.ktpd = ktpd ∧ ktpd.exit = false)) := by
  unfold clientEv at h
  split at h
  · rename_i hfailed
    cases h
    exact .inl ⟨hfailed, rfl, rfl⟩
  · rename_i hfailed
    obtain ⟨⟨ktpd, handled⟩, hread, rfl⟩ := Option.map_eq_some_iff.mp h
    refine .inr ⟨by simpa using hfailed, ktpd, hread, fun hstopped => ?_⟩
    obtain ⟨hnot, hexit⟩ := Bool.or_eq_false_iff.mp hstopped
    dsimp only
    rw [hnot]
    exact ⟨rfl, hexit⟩

/-- The session after the write of a loop that goes on. -/
theorem written_readInv (event : ClientEvent) (hread : ReadInv loop.ktpd loop.handled) :
    ReadInv (written loop.ktpd event) loop.handled := by
  obtain ⟨-, hstate, hwired⟩ := written_spec loop.ktpd event
  exact hread.of_state (hwired hread.wired) fun h => hstate ▸ h

/-- What is known of a loop that can make a step. -/
theorem goes_on {event : LoopEvent} (hrunning : Running loop)
    (h : loop.step event = some loop') :
    loop.stopped = false ∧ loop.ktpd.exit = false ∧ ReadInv loop.ktpd loop.handled := by
  unfold step at h
  split at h
  · cases h
  · rename_i hgoes
    have hstopped : loop.stopped = false := by simpa using hgoes
    exact ⟨hstopped, hrunning hstopped⟩

theorem step_running (event : LoopEvent) (hrunning : Running loop)
    (h : loop.step event = some loop') : Running loop' := by
  obtain ⟨hstopped, hexit, hread⟩ := goes_on hrunning h
  intro hstopped'
  unfold step at h
  rw [hstopped, if_neg Bool.false_ne_true] at h
  split at h
  · rename_i event
    split at h
    · rcases clientEv_cases h with ⟨-, hstop, -⟩ | ⟨-, ktpd, hdispatch, hgoes⟩
      · rw [hstop] at hstopped'
        cases hstopped'
      · obtain ⟨heq, hnone⟩ := hgoes hstopped'
        rw [heq]
        exact ⟨hnone, dispatchAll_readInv (written_readInv event hread) hdispatch⟩
    · cases h
  · split at h
    · cases h
    · obtain ⟨ktpd, hktpd, rfl⟩ := Option.map_eq_some_iff.mp h
      obtain ⟨hsameExit, hsameState⟩ := Ktpd.step_poll_same hktpd
      refine ⟨hsameExit.trans hexit, ?_⟩
      exact hread.of_state (Ktpd.step_wired hread.wired hktpd) fun h => hsameState ▸ h
  · rename_i reports sys
    cases h
    refine ⟨?_, waitForActionsEv_readInv sys reports hread⟩
    rcases Bool.and_eq_false_iff.mp hstopped' with hnot | hnone
    · exact ((finishes_spec sys loop.ktpd reports).1 hnot).1.trans hexit
    · exact hnone

theorem step_loopInv (event : LoopEvent) (hinv : LoopInv loop)
    (horderly : OrderlyEvent loop event) (h : loop.step event = some loop') : LoopInv loop' := by
  have hrunning := step_running event hinv.running h
  obtain ⟨hstopped, hexit, hread⟩ := goes_on hinv.running h
  unfold step at h
  rw [hstopped, if_neg Bool.false_ne_true] at h
  split at h
  · rename_i event
    split at h
    · rcases clientEv_cases h with ⟨-, -, hhandled⟩ | ⟨hfailed, ktpd, hdispatch, -⟩
      · exact ⟨hrunning, hhandled ▸ hinv.timely, hhandled ▸ hinv.lawful⟩
      · have hwritten := written_readInv event hread
        have hexit' := (written_spec loop.ktpd event).1.trans hexit
        have htimely := (timely_iff_orderly hwritten.wired hexit' hdispatch).mpr
          ⟨hinv.timely, horderly hfailed⟩
        exact ⟨hrunning, htimely, (dispatchAll_readInv hwritten hdispatch).lawful htimely⟩
    · cases h
  · split at h
    · cases h
    · obtain ⟨ktpd, -, rfl⟩ := Option.map_eq_some_iff.mp h
      exact ⟨hrunning, hinv.timely, hinv.lawful⟩
  · cases h
    exact ⟨hrunning, hinv.timely, hinv.lawful⟩

/-- A read whose requests are served in time was orderly. -/
theorem step_orderly (event : LoopEvent) (hinv : LoopInv loop) (h : loop.step event = some loop')
    (hlawful : Lawful loop'.handled) : OrderlyEvent loop event := by
  obtain ⟨hstopped, hexit, hread⟩ := goes_on hinv.running h
  unfold step at h
  rw [hstopped, if_neg Bool.false_ne_true] at h
  cases event with
  | stream fd revents sys => trivial
  | sigchld reports sys => trivial
  | client event =>
    dsimp only at h
    split at h
    · rcases clientEv_cases h with ⟨hfailed, -⟩ | ⟨-, ktpd, hdispatch, -⟩
      · intro hnot
        rw [hfailed] at hnot
        cases hnot
      · intro _
        have hexit' := (written_spec loop.ktpd event).1.trans hexit
        exact ((timely_iff_orderly (written_readInv event hread).wired hexit' hdispatch).mp
          hlawful.timely).2
    · cases h

theorem new_loopInv {eloop : env.L.State} {world : World}
    (hnew : env.L.watched eloop env.clientFd = false) (hopen : env.clientFd ∈ world.fds) :
    LoopInv (new eloop world : KtpdLoop env) where
  running _ := ⟨rfl, Ktpd.new_wired hnew hopen, fun h => absurd rfl h, fun _ => trivial⟩
  timely := by simp [Timely, new]
  lawful := trivial

/-- In a run of the loop the server executes requests in the authorised, live session only, exactly
if no read has a request behind the message that sets the exit flag. -/
theorem served_lawful_iff {eloop : env.L.State} {world : World}
    (hnew : env.L.watched eloop env.clientFd = false) (hopen : env.clientFd ∈ world.fds)
    {events : List LoopEvent} (hrun : Runs.run step (new eloop world) events = some loop) :
    (∀ n t, Runs.run step (new eloop world) (events.take n) = some t → Lawful t.handled) ↔
      Runs.Along step OrderlyEvent (new eloop world : KtpdLoop env) events :=
  Runs.forall_states_iff_along (I := LoopInv) (fun _ h => h.lawful)
    (fun _ event _ hinv horderly h => step_loopInv event hinv horderly h)
    (fun _ event _ hinv h hlawful => step_orderly event hinv h hlawful)
    (new_loopInv hnew hopen) hrun

/-- One read with the messages. -/
def sampleRead (msgs : List (KtpMsg × KtpdSys)) : LoopEvent :=
  .client ⟨⟨true, false, false⟩, Ktpd.sampleSys 0, false, msgs, false⟩

/-- A CMD comes with the AUTH, and one comes alone that is left running and ends. -/
def sampleReads : List LoopEvent :=
  [sampleRead [(.preform .auth {}, Ktpd.sampleSys 0), (.preform .cmd {}, Ktpd.sampleSys 0)],
    sampleRead [(Ktpd.sampleCmd, Ktpd.sampleSys 0)],
    .sigchld [(1, .zero)] (Ktpd.sampleSys 0)]

theorem served_lawful_iff_sample : ∃ loop : KtpdLoop Ktpd.sampleEnv,
    Runs.run step (new (fun _ => none) Ktpd.sampleWorld) sampleReads = some loop ∧
    ((∀ n t, Runs.run step (new (fun _ => none) Ktpd.sampleWorld) (sampleReads.take n) =
        some (t : KtpdLoop Ktpd.sampleEnv) → Lawful t.handled) ↔
      Runs.Along step OrderlyEvent
        (new (fun _ => none) Ktpd.sampleWorld : KtpdLoop Ktpd.sampleEnv) sampleReads) := by
  have hrun : (Runs.run step (new (fun _ => none) Ktpd.sampleWorld : KtpdLoop Ktpd.sampleEnv)
      sampleReads).isSome = true := by decide
  obtain ⟨loop, hloop⟩ := Option.isSome_iff_exists.mp hrun
  exact ⟨loop, hloop, @served_lawful_iff Ktpd.sampleEnv _ _ _ rfl (by decide) _ hloop⟩

/-- The first CMD ends the klish session, and another one is read together with it. -/
def lateReads : List LoopEvent :=
  [sampleRead [(.preform .auth {}, Ktpd.sampleSys 0)],
    sampleRead [(Ktpd.sampleCmd, Ktpd.stoppingSys), (Ktpd.sampleCmd, Ktpd.sampleSys 0)]]

theorem served_after_exit : ∃ loop : KtpdLoop Ktpd.sampleEnv,
    Runs.run step (new (fun _ => none) Ktpd.sampleWorld) lateReads = some loop ∧
      ¬ Lawful loop.handled := by
  have hrun : (Runs.run step (new (fun _ => none) Ktpd.sampleWorld : KtpdLoop Ktpd.sampleEnv)
      lateReads).map (fun loop => loop.handled.head?.map fun h =>
        (h.msg.cmd, h.ktpd.state, h.ktpd.exit)) = some (some (.cmd, .idle, true)) := by decide
  obtain ⟨loop, hloop, heq⟩ := Option.map_eq_some_iff.mp hrun
  obtain ⟨h, hhead, heq⟩ := Option.map_eq_some_iff.mp heq
  obtain ⟨hcmd, hstate, hexit⟩ : h.msg.cmd = .cmd ∧ h.ktpd.state = .idle ∧ h.ktpd.exit = true := by
    simpa using heq
  refine ⟨loop, hloop, fun hlawful => ?_⟩
  have hnone := hlawful.timely h (List.mem_of_head? hhead) ⟨.inl hcmd, hstate⟩
  rw [hexit] at hnone
  cases hnone

end KtpdLoop

end Klish
