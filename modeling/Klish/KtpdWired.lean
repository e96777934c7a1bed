import Klish.KtpdStep

/-!
# The session stays in the event loop

Every step keeps `Wired`: the client's socket is open and watched, and no stream of a command
is that socket.
-/

namespace Klish

namespace Ktpd

variable {env : KtpdEnv} {ktpd ktpd' : Ktpd env} {sys : KtpdSys}

theorem Apart.of_subset {exec : Kexec} {w w' : World} (h : Apart env exec w)
    (hsub : w'.fds ⊆ w.fds) : Apart env exec w' :=
  ⟨h.stdin, h.stdout, h.stderr, h.client, fun fd hfd => h.own fd (hsub hfd)⟩

/-- No context can close the client's socket. -/
theorem Wired.held {exec : KtpdExec} (h : Wired ktpd) (hexec : ktpd.exec = some exec) :
    Kexec.Held env.clientFd exec.contexts ktpd.world := ⟨h.isOpen, (h.apart exec hexec).client⟩

@[simp] theorem callbackOf_pushEloop (eloop : env.L.State) (fd fd' : Fd) (bufin : Bytes) :
    env.L.callbackOf (pushEloop eloop fd bufin) fd' = env.L.callbackOf eloop fd' := by
  unfold pushEloop
  split <;> split <;> simp

@[simp] theorem callbackOf_stdinEloop (eloop : env.L.State) (fd fd' : Fd) (bufin : Bytes) :
    env.L.callbackOf (stdinEloop eloop fd bufin) fd' = env.L.callbackOf eloop fd' := by
  unfold stdinEloop
  split
  · rfl
  · dsimp only
    split <;> simp

theorem Wired.pushStdin (h : Wired ktpd) (sys : KtpdSys) : Wired (ktpd.pushStdin sys) := by
  cases hfd : ktpd.stdinFd with
  | none =>
    rw [pushStdin_of_none hfd]
    exact h
  | some fd =>
    obtain ⟨exec, hexec, hstdin⟩ := stdinFd_eq_some.mp hfd
    have hapart := h.apart exec hexec
    rw [pushStdin_eq hexec hstdin]
    have hsub : ∀ drained : Bool, (if drained = true then ktpd.world.close (some fd)
        else ktpd.world).fds ⊆ ktpd.world.fds := by
      intro drained
      split
      · exact Kexec.close_subset
      · exact fun _ hfd => hfd
    refine ⟨⟨fun _ => h.live.mp (by rw [hexec]; rfl), fun _ => rfl⟩, by simp [h.callback], ?_, ?_⟩
    · dsimp only
      split
      · exact Kexec.mem_close h.isOpen fun heq => hapart.stdin (heq ▸ hstdin)
      · exact h.isOpen
    · rintro _ ⟨⟩
      exact hapart.of_subset (hsub _)

/-- The flag alone is not looked at. -/
theorem Wired.withFlag (h : Wired ktpd) (stdinMustBeClosed : Bool) :
    Wired { ktpd with stdinMustBeClosed } := ⟨h.live, h.callback, h.isOpen, h.apart⟩

theorem Wired.pushed {fd : Fd} {revents : Revents} (h : Wired ktpd) :
    Wired (ktpd.pushed sys fd revents) := by
  unfold Ktpd.pushed
  split
  · exact h.pushStdin sys
  · exact h

theorem pushed_stdinFd (ktpd : Ktpd env) (sys : KtpdSys) (fd : Fd) (revents : Revents) :
    (ktpd.pushed sys fd revents).stdinFd = ktpd.stdinFd := by
  unfold pushed
  split
  · exact pushStdin_stdinFd sys ktpd
  · rfl

theorem Scheduled.wired {exec : KtpdExec} (h : Scheduled ktpd ktpd' exec) (hwired : Wired ktpd) :
    Wired ktpd' := by
  obtain ⟨hold, i, o, e, hi, ho, he, hi', ho', he', hheld⟩ := h.streams
  have hclient := hold env.clientFd hwired.isOpen
  have hne : ∀ fd, fd ∉ ktpd.world.fds → some fd ≠ some env.clientFd := by
    rintro fd hfd ⟨⟩
    exact hfd hwired.isOpen
  refine ⟨⟨fun _ => h.state, fun _ => by rw [h.running]; rfl⟩,
    (h.keeps hwired.isOpen).callback.trans hwired.callback, hclient.isOpen, fun exec' hexec' => ?_⟩
  obtain rfl : exec = exec' := Option.some.inj (h.running.symm.trans hexec')
  refine ⟨hi ▸ hne i hi', ho ▸ hne o ho', he ▸ hne e he', hclient.avoids, fun fd _ hfd => ?_⟩
  obtain rfl : i = fd := Option.some.inj (hi.symm.trans hfd)
  exact hheld.avoids

/-- Every step leaves the session in the event loop. -/
theorem StepSpec.wired {event : Event × KtpdSys} (hspec : StepSpec ktpd event ktpd')
    (hwired : Wired ktpd) : Wired ktpd' := by
  cases hspec with
  | kept hquiet h => exact h.wired hwired
  | scheduled hkind hidle h => exact h.wired hwired
  | @stdin msg sys exec fd data hkind hstdin =>
    obtain ⟨hexec, -⟩ := stdinOf_eq_some.mp hstdin
    unfold processStdin
    rw [hstdin]
    refine ⟨⟨fun _ => hwired.live.mp (by rw [hexec]; rfl), fun _ => rfl⟩, by simp [hwired.callback],
      hwired.isOpen, ?_⟩
    rintro _ ⟨⟩
    exact hwired.apart exec hexec
  | stdinClose hkind hexec hstdin =>
    exact (hwired.withFlag true).pushStdin _
  | @streamClose msg sys exec exec' fd hclose hexec hinput =>
    have hapart := hwired.apart exec hexec
    have hkexec : exec'.toKexec = exec.toKexec := congrArg Prod.fst hinput
    refine ⟨⟨fun _ => hwired.live.mp (by rw [hexec]; rfl), fun _ => rfl⟩, hwired.callback, ?_, ?_⟩
    · apply Kexec.mem_close hwired.isOpen
      intro heq
      rcases hclose with ⟨-, hfd⟩ | ⟨-, hfd⟩
      · exact hapart.stdout (hfd.trans heq)
      · exact hapart.stderr (hfd.trans heq)
    · rintro _ ⟨⟩
      rw [hkexec]
      exact hapart.of_subset Kexec.close_subset
  | @polled fd revents sys mid hfd h =>
    have hmid := h.wired hwired.pushed
    split
    · exact ⟨hmid.live, (EventLoop.callbackOf_delFd hfd.symm).trans hmid.callback, hmid.isOpen,
        hmid.apart⟩
    · exact hmid
  | @reaped reports sys exec exec' hexec hreap h hretcode =>
    obtain ⟨heloop, -, hstate, -⟩ := reapChildren_spec sys ktpd reports
    have hapart := hwired.apart exec hexec
    have hclient := h.held _ (hwired.held hexec)
    refine ⟨⟨fun _ => ?_, fun _ => by rw [hreap]; rfl⟩, by rw [heloop, hwired.callback],
      hclient.isOpen, fun exec'' hexec'' => ?_⟩
    · exact hstate.trans (hwired.live.mp (by rw [hexec]; rfl))
    · obtain rfl : exec' = exec'' := Option.some.inj (hreap.symm.trans hexec'')
      refine ⟨h.stdin ▸ hapart.stdin, h.stdout ▸ hapart.stdout, h.stderr ▸ hapart.stderr,
        hclient.avoids, fun fd hfd hstdin => ?_⟩
      have hopen := h.fewer hfd
      exact (h.held fd ⟨hopen, hapart.own fd hopen (h.stdin ▸ hstdin)⟩).avoids
  | @finished reports sys exec exec' retcode hexec hreap h hretcode =>
    obtain ⟨heloop, -⟩ := reapChildren_spec sys ktpd reports
    have hapart := hwired.apart exec hexec
    have hclient := h.held _ (hwired.held hexec)
    have hin : exec'.stdin ≠ some env.clientFd := h.stdin ▸ hapart.stdin
    have hout : exec'.stdout ≠ some env.clientFd := h.stdout ▸ hapart.stdout
    have herr : exec'.stderr ≠ some env.clientFd := h.stderr ▸ hapart.stderr
    have hfinish := finishCommand_spec sys (ktpd.reapChildren sys reports) exec' retcode
    refine ⟨?_, ?_, hfinish.fds _ hclient hin hout herr, fun exec'' hexec'' => ?_⟩
    · unfold Live
      rw [hfinish.idle, hfinish.state]
      decide
    · rw [(hfinish.pollin hin hout herr).1, heloop, hwired.callback]
    · rw [hfinish.idle] at hexec''
      cases hexec''

/-- Input for a running command. -/
theorem dispatch_stdin {msg : KtpMsg} {p : KtpdExec × Fd × Bytes} (hwired : Wired ktpd)
    (hkind : msg.cmd = .stdin) (hstdinOf : ktpd.stdinOf sys msg = some p) :
    ktpd.dispatch sys msg = some (ktpd.processStdin sys msg) := by
  obtain ⟨exec, fd, data⟩ := p
  obtain ⟨hexec, -⟩ := stdinOf_eq_some.mp hstdinOf
  have hstate : ktpd.state = .waitForProcess := hwired.live.mp (by rw [hexec]; rfl)
  simp only [dispatch, hkind, hstate, if_true]

theorem step_wired {event : Event × KtpdSys} (hwired : Wired ktpd)
    (h : ktpd.step event = some ktpd') : Wired ktpd' := (step_spec hwired h).wired hwired

/-- A new session. -/
theorem new_wired {eloop : env.L.State} {world : World}
    (hnew : env.L.watched eloop env.clientFd = false) (hopen : env.clientFd ∈ world.fds) :
    Wired (new eloop world : Ktpd env) where
  live := by
    constructor <;> intro hlive <;> cases hlive
  callback := by simp [new, EventLoop.callbackOf_addFd_self hnew]
  isOpen := hopen
  apart := by simp [new]

end Ktpd

end Klish
