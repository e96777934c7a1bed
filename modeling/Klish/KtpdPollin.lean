import Klish.KtpdWired
import Klish.Lib.Runs

/-!
# Reading from the client

POLLIN on the client's socket is switched off while the buffer of a command's stdin is full, and
`push_stdin` switches it on again. It stays off when the command goes away in between.
-/

namespace Klish.Ktpd

variable {env : KtpdEnv}

/-- POLLIN is enabled on the client's socket. -/
def Hears (ktpd : Ktpd env) : Prop := env.L.polls ktpd.eloop env.clientFd .pollin = true

/-- A command is running with a full buffer, and the loop waits for a write to its stdin. -/
def Full (ktpd : Ktpd env) : Prop :=
  ∃ exec fd, ktpd.exec = some exec ∧ exec.stdin = some fd ∧
    env.L.polls ktpd.eloop fd .pollout = true ∧ bufLimit ≤ exec.bufin.length

/-- Reading from the client is not switched off for good. -/
structure PollinLaw (ktpd : Ktpd env) : Prop where
  paused : Hears ktpd ∨ Full ktpd
  idle : ktpd.state = .idle → Hears ktpd

/-- What one write leaves of the buffer, when data has been added to it. -/
def stdinLeft (ktpd : Ktpd env) (sys : KtpdSys) (data : Bytes) : ℕ :=
  match ktpd.exec with
  | none => 0
  | some exec =>
    match exec.stdin with
    | none => 0
    | some fd =>
      exec.bufin.length + data.length - if fd ∈ ktpd.world.fds then sys.taken else 0

/-- The step does not lose POLLIN. -/
def PollinSafe (ktpd : Ktpd env) : Event × KtpdSys → Prop
  -- The command does not end while POLLIN is off.
  | (.sigchld reports, sys) => Hears ktpd ∨
      ∀ exec, (ktpd.reapChildren sys reports).exec = some exec →
        Kexec.kexecRetcode exec.toKexec = none
  -- The stdin is not removed from the loop while POLLIN is off.
  | (.poll fd revents, sys) => revents.failed = true → ktpd.stdinFd = some fd →
      Hears ktpd ∨ (env.L.callbackOf ktpd.eloop fd = some .actionStdout ∧
        revents.pollout = true ∧ ktpd.stdinLeft sys [] < bufLimit)
  -- The buffer is not filled when the stdin is not in the loop, and not emptied here.
  | (.dispatch msg, sys) => msg.cmd = .stdin → ∀ exec fd data,
      ktpd.stdinOf sys msg = some (exec, fd, data) →
        (bufLimit < ktpd.stdinLeft sys data → env.L.watched ktpd.eloop fd = true) ∧
          (Hears ktpd ∨ bufLimit ≤ ktpd.stdinLeft sys data)

variable {ktpd ktpd' : Ktpd env} {sys : KtpdSys} {exec : KtpdExec} {fd : Fd}

theorem stdinLeft_eq (sys : KtpdSys) (data : Bytes) (hexec : ktpd.exec = some exec)
    (hstdin : exec.stdin = some fd) :
    (ktpd.stdinOut sys { exec with bufin := exec.bufin ++ data } fd).bufin.length =
      ktpd.stdinLeft sys data := by
  simp [stdinOut, stdinLeft, hexec, hstdin]

theorem stdinLeft_nil (sys : KtpdSys) (hexec : ktpd.exec = some exec)
    (hstdin : exec.stdin = some fd) :
    (ktpd.stdinOut sys exec fd).bufin.length = ktpd.stdinLeft sys [] := by
  simp [stdinOut, stdinLeft, hexec, hstdin]

theorem Full.exec_isSome (h : Full ktpd) : ktpd.exec.isSome = true := by
  obtain ⟨exec, fd, hexec, -⟩ := h
  rw [hexec]
  rfl

theorem Wired.pollinLaw (hwired : Wired ktpd) (h : Hears ktpd ∨ Full ktpd) : PollinLaw ktpd := by
  refine ⟨h, fun hidle => h.resolve_right fun hfull => ?_⟩
  have hstate := hwired.live.mp hfull.exec_isSome
  rw [hidle] at hstate
  cases hstate

theorem Wired.watched (hwired : Wired ktpd) : env.L.watched ktpd.eloop env.clientFd = true :=
  EventLoop.watched_of_callbackOf hwired.callback

theorem Wired.stdin_ne (hwired : Wired ktpd) (hexec : ktpd.exec = some exec)
    (hstdin : exec.stdin = some fd) : fd ≠ env.clientFd := by
  rintro rfl
  exact (hwired.apart exec hexec).stdin hstdin

theorem polls_pushEloop_pollin {eloop : env.L.State} {bufin : Bytes}
    (hwatched : env.L.watched eloop env.clientFd = true) :
    env.L.polls (pushEloop eloop fd bufin) env.clientFd .pollin =
      (env.L.polls eloop env.clientFd .pollin || decide (bufin.length < bufLimit)) := by
  have hinclude : env.L.polls (if bufin.length < bufLimit then
      env.L.includeFdEvent eloop env.clientFd .pollin else eloop) env.clientFd .pollin =
        (env.L.polls eloop env.clientFd .pollin || decide (bufin.length < bufLimit)) := by
    split <;> rename_i hlen <;> simp [EventLoop.polls_includeFdEvent, hwatched, hlen]
  unfold pushEloop
  dsimp only
  split
  · rw [EventLoop.polls_excludeFdEvent, hinclude]
    simp
  · exact hinclude

theorem polls_pushEloop_pollout {eloop : env.L.State} {bufin : Bytes}
    (hlen : bufLimit ≤ bufin.length) :
    env.L.polls (pushEloop eloop fd bufin) fd .pollout = env.L.polls eloop fd .pollout := by
  have hne : bufin.isEmpty = false := by
    cases bufin with
    | nil => simp [bufLimit] at hlen
    | cons => rfl
  unfold pushEloop
  rw [if_neg (by omega : ¬ bufin.length < bufLimit)]
  simp [hne]

/-- `push_stdin` is where reading from the client is switched on again. -/
theorem pushStdin_hears (hwired : Wired ktpd) (hexec : ktpd.exec = some exec)
    (hstdin : exec.stdin = some fd) :
    Hears (ktpd.pushStdin sys) ↔ Hears ktpd ∨ ktpd.stdinLeft sys [] < bufLimit := by
  have hleft := stdinLeft_nil sys hexec hstdin
  unfold Hears
  rw [pushStdin_eq hexec hstdin]
  dsimp only
  rw [polls_pushEloop_pollin hwired.watched, hleft]
  simp

theorem pushStdin_paused (sys : KtpdSys) (hwired : Wired ktpd) (h : Hears ktpd ∨ Full ktpd) :
    Hears (ktpd.pushStdin sys) ∨ Full (ktpd.pushStdin sys) := by
  cases hfd : ktpd.stdinFd with
  | none =>
    rw [pushStdin_of_none hfd]
    exact h
  | some fd =>
    obtain ⟨exec, hexec, hstdin⟩ := stdinFd_eq_some.mp hfd
    rw [pushStdin_hears hwired hexec hstdin]
    rcases h with hears | ⟨exec', fd', hexec', hstdin', hpollout, -⟩
    · exact .inl (.inl hears)
    · cases hexec.symm.trans hexec'
      cases hstdin.symm.trans hstdin'
      by_cases hlen : ktpd.stdinLeft sys [] < bufLimit
      · exact .inl (.inr hlen)
      · right
        have hleft := stdinLeft_nil sys hexec hstdin
        have hlimit : bufLimit ≤ (ktpd.stdinOut sys exec fd).bufin.length := by omega
        rw [pushStdin_eq hexec hstdin]
        exact ⟨_, fd, rfl, hstdin, (polls_pushEloop_pollout hlimit).trans hpollout, hlimit⟩

/-- A step that has nothing to do with it. -/
theorem Kept.hears (h : Kept ktpd ktpd') : Hears ktpd' ↔ Hears ktpd := by
  unfold Hears
  rw [h.keeps.pollin]

theorem Kept.full (h : Kept ktpd ktpd') (hwired : Wired ktpd) (hfull : Full ktpd) : Full ktpd' := by
  obtain ⟨exec, fd, hexec, hstdin, hpollout, hlen⟩ := hfull
  have hinput := h.input
  rw [hexec] at hinput
  obtain ⟨exec', hexec', heq⟩ := Option.map_eq_some_iff.mp hinput
  have hkexec : exec'.toKexec = exec.toKexec := congrArg Prod.fst heq
  have hbufin : exec'.bufin = exec.bufin := congrArg (fun input => input.2.1) heq
  refine ⟨exec', fd, hexec', hkexec ▸ hstdin, ?_, hbufin ▸ hlen⟩
  rw [h.keeps.pollout fd (hwired.stdin_ne hexec hstdin), hpollout]

theorem Kept.paused (h : Kept ktpd ktpd') (hwired : Wired ktpd)
    (hlaw : Hears ktpd ∨ Full ktpd) : Hears ktpd' ∨ Full ktpd' :=
  hlaw.imp h.hears.mpr (h.full hwired)

theorem pushed_hears {revents : Revents} (hwired : Wired ktpd) (hfd : ktpd.stdinFd = some fd) :
    Hears (ktpd.pushed sys fd revents) ↔ Hears ktpd ∨
      (env.L.callbackOf ktpd.eloop fd = some .actionStdout ∧ revents.pollout = true ∧
        ktpd.stdinLeft sys [] < bufLimit) := by
  obtain ⟨exec, hexec, hstdin⟩ := stdinFd_eq_some.mp hfd
  unfold pushed
  split
  · rename_i hpush
    rw [pushStdin_hears hwired hexec hstdin]
    simp only [hpush, true_and]
  · rename_i hpush
    constructor
    · exact .inl
    · rintro (hears | ⟨hcallback, hpollout, -⟩)
      · exact hears
      · exact absurd ⟨hcallback, hpollout⟩ hpush

theorem polls_stdinEloop_pollout {eloop : env.L.State} {bufin : Bytes} (hne : bufin ≠ [])
    (h : env.L.polls eloop fd .pollout = true ∨ env.L.watched eloop fd = true) :
    env.L.polls (stdinEloop eloop fd bufin) fd .pollout = true := by
  have hempty : bufin.isEmpty = false := by simpa using hne
  have hinclude : env.L.polls (env.L.includeFdEvent eloop fd .pollout) fd .pollout = true := by
    rw [EventLoop.polls_includeFdEvent]
    rcases h with h | h <;> simp [h]
  unfold stdinEloop
  rw [hempty]
  dsimp only
  split
  · rename_i h
    cases h
  · split
    · rw [EventLoop.polls_excludeFdEvent, hinclude]
      simp
    · exact hinclude

theorem polls_stdinEloop_pollin {eloop : env.L.State} {bufin : Bytes} :
    env.L.polls (stdinEloop eloop fd bufin) env.clientFd .pollin =
      (env.L.polls eloop env.clientFd .pollin && decide (bufin.length ≤ bufLimit)) := by
  unfold stdinEloop
  split
  · rename_i hempty
    simp [List.isEmpty_iff.mp hempty]
  · dsimp only
    split <;> rename_i hlen
    · rw [EventLoop.polls_excludeFdEvent]
      simp [hlen]
    · rw [EventLoop.polls_includeFdEvent]
      simp [Nat.le_of_not_lt hlen]

theorem processStdin_paused {msg : KtpMsg} {data : Bytes}
    (hlaw : Hears ktpd ∨ Full ktpd) (hstdinOf : ktpd.stdinOf sys msg = some (exec, fd, data))
    (hwatched : bufLimit < ktpd.stdinLeft sys data → env.L.watched ktpd.eloop fd = true)
    (hleft : Hears ktpd ∨ bufLimit ≤ ktpd.stdinLeft sys data) :
    Hears (ktpd.processStdin sys msg) ∨ Full (ktpd.processStdin sys msg) := by
  obtain ⟨hexec, hstdin, -⟩ := stdinOf_eq_some.mp hstdinOf
  have hlen := stdinLeft_eq sys data hexec hstdin
  unfold processStdin Hears
  rw [hstdinOf]
  dsimp only
  rw [polls_stdinEloop_pollin, hlen]
  by_cases hfits : ktpd.stdinLeft sys data ≤ bufLimit ∧ Hears ktpd
  · left
    rw [show env.L.polls ktpd.eloop env.clientFd .pollin = true from hfits.2]
    simp [hfits.1]
  · right
    have hlimit : bufLimit ≤ ktpd.stdinLeft sys data := by
      rcases hleft with hears | hleft
      · have hlt : ¬ ktpd.stdinLeft sys data ≤ bufLimit := fun h => hfits ⟨h, hears⟩
        omega
      · exact hleft
    refine ⟨_, fd, rfl, hstdin, ?_, by rw [hlen]; exact hlimit⟩
    have hne : (ktpd.stdinOut sys { exec with bufin := exec.bufin ++ data } fd).bufin ≠ [] := by
      intro hnil
      rw [hnil] at hlen
      simp only [List.length_nil, bufLimit] at hlen hlimit
      omega
    apply polls_stdinEloop_pollout hne
    by_cases hover : bufLimit < ktpd.stdinLeft sys data
    · exact .inr (hwatched hover)
    · rcases hlaw with hears | ⟨exec', fd', hexec', hstdin', hpollout, -⟩
      · exact absurd ⟨by omega, hears⟩ hfits
      · cases hexec.symm.trans hexec'
        cases hstdin.symm.trans hstdin'
        exact .inl hpollout

/-- The end of a command leaves the reading from the client as it is. -/
theorem finished_hears {reports : List (Pid × WaitStatus)} {exec' : KtpdExec}
    (hwired : Wired ktpd) (hexec : ktpd.exec = some exec)
    (h : Reaped exec exec' ktpd.world (ktpd.reapChildren sys reports).world) (retcode : ℤ) :
    Hears ((ktpd.reapChildren sys reports).finishCommand sys exec' retcode) ↔ Hears ktpd := by
  obtain ⟨heloop, -⟩ := reapChildren_spec sys ktpd reports
  have hapart := hwired.apart exec hexec
  obtain ⟨-, hpollin⟩ := (finishCommand_spec sys (ktpd.reapChildren sys reports) exec' retcode).pollin
    (h.stdin ▸ hapart.stdin) (h.stdout ▸ hapart.stdout) (h.stderr ▸ hapart.stderr)
  unfold Hears
  rw [hpollin, heloop]

/-- A safe step keeps the law. -/
theorem StepSpec.paused {event : Event × KtpdSys} (hspec : StepSpec ktpd event ktpd')
    (hwired : Wired ktpd) (hlaw : Hears ktpd ∨ Full ktpd) (hsafe : PollinSafe ktpd event) :
    Hears ktpd' ∨ Full ktpd' := by
  cases hspec with
  | kept hquiet h => exact h.paused hwired hlaw
  | scheduled hkind hidle h =>
    have hears : Hears ktpd := hlaw.resolve_right fun hfull => by
      have hsome := hfull.exec_isSome
      rw [hidle] at hsome
      cases hsome
    left
    unfold Hears
    rw [(h.keeps hwired.isOpen).pollin]
    exact hears
  | stdin hkind hstdin =>
    obtain ⟨hwatched, hleft⟩ := hsafe hkind _ _ _ hstdin
    exact processStdin_paused hlaw hstdin hwatched hleft
  | stdinClose hkind hexec hstdin =>
    exact pushStdin_paused _ (hwired.withFlag true) hlaw
  | @streamClose msg sys exec exec' fd hclose hexec hinput =>
    apply hlaw.imp (fun hears => hears)
    rintro ⟨exec₀, fd₀, hexec₀, hstdin, hpollout, hlen⟩
    obtain rfl : exec = exec₀ := Option.some.inj (hexec.symm.trans hexec₀)
    have hkexec : exec'.toKexec = exec.toKexec := congrArg Prod.fst hinput
    have hbufin : exec'.bufin = exec.bufin := congrArg (fun input => input.2.1) hinput
    exact ⟨exec', fd₀, rfl, hkexec ▸ hstdin, hpollout, hbufin ▸ hlen⟩
  | @polled fd revents sys mid hfd h =>
    have hpushed : Hears (ktpd.pushed sys fd revents) ∨ Full (ktpd.pushed sys fd revents) := by
      unfold pushed
      split
      · exact pushStdin_paused sys hwired hlaw
      · exact hlaw
    have hmid := h.paused hwired.pushed hpushed
    split
    · rename_i hfailed
      have hdel : Hears mid → Hears { mid with eloop := env.L.delFd mid.eloop fd } := by
        intro hears
        unfold Hears
        dsimp only
        rw [EventLoop.polls_delFd, show env.L.polls mid.eloop env.clientFd .pollin = true from hears]
        simpa using hfd.symm
      rcases hmid with hears | ⟨exec', fd', hexec', hstdin', hpollout, hlen⟩
      · exact .inl (hdel hears)
      · by_cases hne : fd' = fd
        · subst hne
          have hstdinFd : ktpd.stdinFd = some fd' := by
            rw [← pushed_stdinFd ktpd sys fd' revents, ← h.stdinFd_eq, stdinFd_eq hexec', hstdin']
          have hsafe := hsafe hfailed hstdinFd
          exact .inl (hdel (h.hears.mpr ((pushed_hears hwired hstdinFd).mpr hsafe)))
        · refine .inr ⟨exec', fd', hexec', hstdin', ?_, hlen⟩
          simp [hne, hpollout]
    · exact hmid
  | @reaped reports sys exec exec' hexec hreap h hretcode =>
    obtain ⟨heloop, -⟩ := reapChildren_spec sys ktpd reports
    rcases hlaw with hears | ⟨exec₀, fd₀, hexec₀, hstdin, hpollout, hlen⟩
    · left
      unfold Hears
      rw [heloop]
      exact hears
    · obtain rfl : exec = exec₀ := Option.some.inj (hexec.symm.trans hexec₀)
      exact .inr ⟨exec', fd₀, hreap, h.stdin.trans hstdin, heloop ▸ hpollout, h.bufin ▸ hlen⟩
  | @finished reports sys exec exec' retcode hexec hreap h hretcode =>
    have hears : Hears ktpd := hsafe.resolve_right fun hgoes => by
      have hnone := hgoes exec' hreap
      rw [hretcode] at hnone
      cases hnone
    left
    exact (finished_hears hwired hexec h retcode).mpr hears

/-- When a command ends, the session is idle, and it reads from the client if it did before. -/
theorem waitForActionsEv_ends {reports : List (Pid × WaitStatus)} {retcode : ℤ}
    (hwired : Wired ktpd) (hreap : (ktpd.reapChildren sys reports).exec = some exec)
    (hretcode : Kexec.kexecRetcode exec.toKexec = some retcode) :
    (ktpd.waitForActionsEv sys reports).state = .idle ∧
      (Hears (ktpd.waitForActionsEv sys reports) ↔ Hears ktpd) := by
  obtain ⟨-, -, -, -, hnone, hsome⟩ := reapChildren_spec sys ktpd reports
  have hend : ktpd.waitForActionsEv sys reports =
      (ktpd.reapChildren sys reports).finishCommand sys exec retcode := by
    unfold waitForActionsEv
    dsimp only
    rw [hreap]
    simp only [hretcode]
  rw [hend]
  refine ⟨(finishCommand_spec sys (ktpd.reapChildren sys reports) exec retcode).state, ?_⟩
  cases hexec : ktpd.exec with
  | none =>
    rw [(hnone hexec).1] at hreap
    cases hreap
  | some exec₀ =>
    obtain ⟨exec', hreap', h⟩ := hsome exec₀ hexec
    obtain rfl : exec = exec' := Option.some.inj (hreap.symm.trans hreap')
    exact finished_hears hwired hexec h retcode

theorem sigchld_safe {reports : List (Pid × WaitStatus)} (hwired : Wired ktpd)
    (hlaw : PollinLaw (ktpd.waitForActionsEv sys reports)) :
    PollinSafe ktpd (.sigchld reports, sys) := by
  by_cases hears : Hears ktpd
  · exact .inl hears
  · right
    intro exec hreap
    by_contra hne
    obtain ⟨retcode, hretcode⟩ := Option.ne_none_iff_exists'.mp hne
    obtain ⟨hidle, hiff⟩ := waitForActionsEv_ends hwired hreap hretcode
    exact hears (hiff.mp (hlaw.idle hidle))

theorem poll_safe {revents : Revents} (hwired : Wired ktpd)
    (h : ktpd.step (.poll fd revents, sys) = some ktpd') (hlaw : PollinLaw ktpd') :
    PollinSafe ktpd (.poll fd revents, sys) := by
  intro hfailed hstdinFd
  rcases poll_spec hwired h with ⟨hfd, mid, hmid, rfl⟩ | ⟨-, hfailed', -⟩
  · rw [if_pos hfailed] at hlaw
    rw [← pushed_hears hwired hstdinFd, ← hmid.hears]
    rcases hlaw.paused with hears | ⟨exec', fd', hexec', hstdin', hpollout, -⟩
    · unfold Hears at hears ⊢
      simp only [EventLoop.polls_delFd, Bool.and_eq_true] at hears
      exact hears.2
    · -- The stdin of the command is no longer in the loop.
      have hmidFd : mid.stdinFd = some fd := by
        rw [hmid.stdinFd_eq, pushed_stdinFd, hstdinFd]
      rw [stdinFd_eq (show mid.exec = some exec' from hexec'), hstdin'] at hmidFd
      cases hmidFd
      simp at hpollout
  · rw [hfailed] at hfailed'
    cases hfailed'

@[simp] theorem watched_stdinEloop {eloop : env.L.State} {bufin : Bytes} :
    env.L.watched (stdinEloop eloop fd bufin) fd = env.L.watched eloop fd := by
  unfold stdinEloop
  split
  · rfl
  · dsimp only
    split <;> simp

theorem dispatch_safe {msg : KtpMsg} (hwired : Wired ktpd)
    (h : ktpd.dispatch sys msg = some ktpd') (hlaw : PollinLaw ktpd') :
    PollinSafe ktpd (.dispatch msg, sys) := by
  intro hkind exec fd data hstdinOf
  obtain ⟨hexec, hstdin, -⟩ := stdinOf_eq_some.mp hstdinOf
  have hself : ktpd' = ktpd.processStdin sys msg :=
    Option.some.inj (h.symm.trans (dispatch_stdin hwired hkind hstdinOf))
  have hlen := stdinLeft_eq sys data hexec hstdin
  have hpaused := hlaw.paused
  unfold Hears Full at hpaused
  rw [hself, processStdin, hstdinOf] at hpaused
  dsimp only at hpaused
  rw [polls_stdinEloop_pollin, hlen] at hpaused
  rcases hpaused with hears | ⟨exec', fd', hexec', hstdin', hpollout, hlimit⟩
  · simp only [Bool.and_eq_true, decide_eq_true_eq] at hears
    exact ⟨fun hover => absurd hears.2 (by omega), .inl hears.1⟩
  · cases hexec'
    rw [hlen] at hlimit
    obtain rfl : fd = fd' := Option.some.inj (hstdin.symm.trans hstdin')
    refine ⟨fun _ => ?_, .inr hlimit⟩
    simpa using EventLoop.watched_of_polls hpollout

/-- A step to a state that meets the law is safe. -/
theorem step_safe {event : Event × KtpdSys} (hwired : Wired ktpd)
    (h : ktpd.step event = some ktpd') (hlaw : PollinLaw ktpd') : PollinSafe ktpd event := by
  obtain ⟨event, sys⟩ := event
  cases event with
  | dispatch msg => exact dispatch_safe hwired h hlaw
  | poll fd revents => exact poll_safe hwired h hlaw
  | sigchld reports =>
    cases h
    exact sigchld_safe hwired hlaw

theorem new_hears {eloop : env.L.State} {world : World} :
    Hears (new eloop world : Ktpd env) := by
  unfold Hears new
  rw [EventLoop.polls_includeFdEvent]
  simp

/-- The law holds in all states of a run exactly if no step of it loses POLLIN. -/
theorem pollin_law_iff (eloop : env.L.State) (world : World)
    (hnew : env.L.watched eloop env.clientFd = false) (hopen : env.clientFd ∈ world.fds)
    (events : List (Event × KtpdSys)) (s : Ktpd env)
    (hrun : Runs.run step (new eloop world) events = some s) :
    (∀ n t, Runs.run step (new eloop world) (events.take n) = some t → PollinLaw t) ↔
      Runs.Along step PollinSafe (new eloop world) events := by
  have hstart := new_wired hnew hopen
  refine Runs.forall_states_iff_along (I := fun s => Wired s ∧ PollinLaw s) (fun _ h => h.2) ?_
    (fun s a t hI hstep hlaw => step_safe hI.1 hstep hlaw)
    ⟨hstart, hstart.pollinLaw (.inl new_hears)⟩ hrun
  rintro s a t ⟨hwired, hlaw⟩ hsafe hstep
  have hspec := step_spec hwired hstep
  have hwired' := hspec.wired hwired
  exact ⟨hwired', hwired'.pollinLaw (hspec.paused hwired hlaw.paused hsafe)⟩

/-- Its input is written in two parts, and it ends. -/
def sampleEvents : List (Event × KtpdSys) :=
  sampleStart ++ [(.dispatch (sampleStdin [97, 98, 99]), sampleSys 2),
    (.poll 5 ⟨false, true, false⟩, sampleSys 2), (.sigchld [(1, .zero)], sampleSys 0)]

theorem pollin_law_iff_sample : ∃ s : Ktpd sampleEnv,
    Runs.run step (new (fun _ => none) sampleWorld) sampleEvents = some s ∧
    ((∀ n t, Runs.run step (new (fun _ => none) sampleWorld : Ktpd sampleEnv)
        (sampleEvents.take n) = some t → PollinLaw t) ↔
      Runs.Along step PollinSafe (new (fun _ => none) sampleWorld : Ktpd sampleEnv)
        sampleEvents) := by
  have hrun : (Runs.run step (new (fun _ => none) sampleWorld : Ktpd sampleEnv)
      sampleEvents).isSome = true := by decide
  obtain ⟨s, hs⟩ := Option.isSome_iff_exists.mp hrun
  exact ⟨s, hs, @pollin_law_iff sampleEnv _ _ rfl (by decide) _ _ hs⟩

/-- A message that fills the buffer, and the end of the command before anything is written. -/
def deafEvents : List (Event × KtpdSys) :=
  sampleStart ++ [(.dispatch (sampleStdin (List.replicate (bufLimit + 1) 97)), sampleSys 0),
    (.sigchld [(1, .zero)], sampleSys 0)]

theorem deaf_when_command_ends : ∃ s : Ktpd sampleEnv,
    Runs.run step (new (fun _ => none) sampleWorld) deafEvents = some s ∧
    s.state = .idle ∧ ¬ Hears s ∧ ¬ PollinLaw s := by
  have hstart : ((Runs.run step (new (fun _ => none) sampleWorld : Ktpd sampleEnv)
      sampleStart).bind fun s => s.exec.map fun exec => (exec.stdin, exec.bufin,
        Kexec.kexecRetcode (reapLoop sampleEnv [(1, .zero)] exec.toKexec s.world).1)) =
      some (some 5, [], some 0) := by decide
  obtain ⟨s, hs, hstart⟩ := Option.bind_eq_some_iff.mp hstart
  obtain ⟨exec, hexec, heq⟩ := Option.map_eq_some_iff.mp hstart
  obtain ⟨hstdin, hbufin, hretcode⟩ : exec.stdin = some 5 ∧ exec.bufin = [] ∧
      Kexec.kexecRetcode (reapLoop sampleEnv [(1, .zero)] exec.toKexec s.world).1 = some 0 := by
    simpa using heq
  have hwired : Wired s := Runs.run_invariant (I := Wired)
    (fun _ _ _ hwired hstep => step_wired hwired hstep) (new_wired rfl (by decide)) hs
  generalize hdata : List.replicate (bufLimit + 1) (97 : UInt8) = data
  have hlen : data.length = bufLimit + 1 := by rw [← hdata, List.length_replicate]
  have hstdinOf : s.stdinOf (sampleSys 0) (sampleStdin data) = some (exec, 5, data) := by
    refine stdinOf_eq_some.mpr ⟨hexec, hstdin, data, rfl, ?_, rfl⟩
    intro hnil
    rw [hnil] at hlen
    cases hlen
  -- The buffer is full, so the client is not read.
  obtain ⟨t, ht⟩ : ∃ t, t = s.processStdin (sampleSys 0) (sampleStdin data) := ⟨_, rfl⟩
  have hstep : s.step (.dispatch (sampleStdin data), sampleSys 0) = some t :=
    ht ▸ dispatch_stdin hwired rfl hstdinOf
  have hleft : s.stdinLeft (sampleSys 0) data = bufLimit + 1 := by
    simp [stdinLeft, hexec, hstdin, hbufin, sampleSys, hlen]
  have hdeaf : ¬ Hears t := by
    unfold Hears
    rw [ht, processStdin, hstdinOf]
    dsimp only
    rw [polls_stdinEloop_pollin, stdinLeft_eq (sampleSys 0) data hexec hstdin, hleft]
    simp
  have hwired' : Wired t := step_wired hwired hstep
  -- The process ends.
  obtain ⟨exec', hexec', hkexec, hworld⟩ : ∃ exec', t.exec = some exec' ∧
      exec'.toKexec = exec.toKexec ∧ t.world = s.world := by
    rw [ht, processStdin, hstdinOf]
    exact ⟨_, rfl, rfl, rfl⟩
  have hreap : ∃ exec'', (t.reapChildren (sampleSys 0) [(1, .zero)]).exec = some exec'' ∧
      Kexec.kexecRetcode exec''.toKexec = some 0 := by
    rw [reapChildren, hexec']
    refine ⟨_, rfl, ?_⟩
    dsimp only
    rw [hkexec, hworld, hretcode]
  obtain ⟨exec'', hreap, hretcode⟩ := hreap
  obtain ⟨hidle, hiff⟩ := waitForActionsEv_ends hwired' hreap hretcode
  refine ⟨_, ?_, hidle, fun hears => hdeaf (hiff.mp hears),
    fun hlaw => hdeaf (hiff.mp (hlaw.idle hidle))⟩
  rw [deafEvents, hdata]
  exact Runs.run_append.mpr ⟨s, hs, Runs.run_cons.mpr ⟨t, hstep, Runs.run_cons.mpr ⟨_, rfl, rfl⟩⟩⟩

end Klish.Ktpd
