import Klish.KtpdWired
import Klish.Lib.Runs

/-!
# The stdin of a command

The bytes of the STDIN messages go through the buffer of the command in their order. The stdin
is closed by `push_stdin` if the flag is set, which a STDIN_CLOSE sets and nothing resets.
-/

namespace Klish.Ktpd

variable {env : KtpdEnv}

/-- What the client has sent to the running command. -/
structure StdinHistory where
  /-- The bytes of its STDIN messages. -/
  raw : Bytes
  /-- Those of them that are meant for the command. -/
  received : Bytes
  /-- What had been received at the first STDIN_CLOSE. -/
  closed : Option Bytes

namespace StdinHistory

def empty : StdinHistory := ⟨[], [], none⟩

/-- Nothing has been received for a command that has not been started. -/
def note (ktpd : Ktpd env) (event : Event × KtpdSys) (_ : Ktpd env) (h : StdinHistory) :
    StdinHistory :=
  if ktpd.stdinFd.isNone then empty
  else
    match event with
    | (.dispatch msg, sys) =>
      match msg.cmd with
      | .stdin =>
        match ktpd.stdinOf sys msg with
        | none => h
        | some (_, _, data) =>
          { h with raw := h.raw ++ (msg.param .line).getD [], received := h.received ++ data }
      | .stdinClose => { h with closed := h.closed.or (some h.received) }
      | _ => h
    | (.poll .., _) | (.sigchld _, _) => h

/-- Nothing but ^C is left out. -/
def OnlyInterrupts (raw received : Bytes) : Prop :=
  received.Sublist raw ∧ received.filter (· ≠ 3) = raw.filter (· ≠ 3)

end StdinHistory

/-- A stdin that is fed in order and closed on request. -/
structure Fed (w : World) (exec : KtpdExec) (fd : Fd) (h : StdinHistory) : Prop where
  /-- What has been written and what is still in the buffer is what has been received. -/
  order : exec.written ++ exec.bufin = h.received
  filtered : StdinHistory.OnlyInterrupts h.raw h.received
  /-- It is closed only after a STDIN_CLOSE, when all that came before that has been written. -/
  onRequest : fd ∉ w.fds → ∃ before, h.closed = some before ∧ before <+: exec.written
  /-- It is closed once there has been a STDIN_CLOSE and all has been written. -/
  closes : h.closed.isSome = true → exec.bufin = [] → fd ∉ w.fds

/-- The stdin of the running command is fed so. -/
def StdinLaw (ktpd : Ktpd env) (h : StdinHistory) : Prop :=
  ∀ exec fd, ktpd.exec = some exec → exec.stdin = some fd → Fed ktpd.world exec fd h

/-- The step does not close the stdin too early, and does not forget to close it. -/
def StdinSafe (ktpd : Ktpd env) (h : StdinHistory) : Event × KtpdSys → Prop
  -- A write that empties the buffer does not meet a flag that is left from an earlier command.
  | (.poll fd revents, sys) => env.L.callbackOf ktpd.eloop fd = some .actionStdout →
      revents.pollout = true → ktpd.stdinMustBeClosed = true →
      ∀ exec stdin, ktpd.exec = some exec → exec.stdin = some stdin →
        (ktpd.stdinOut sys exec stdin).bufin = [] → h.closed.isSome = true
  | (.dispatch msg, sys) =>
    -- No message is written out at once after a STDIN_CLOSE.
    (msg.cmd = .stdin → ∀ exec fd data, ktpd.stdinOf sys msg = some (exec, fd, data) →
      h.closed.isSome = true → fd ∈ ktpd.world.fds →
        (ktpd.stdinOut sys { exec with bufin := exec.bufin ++ data } fd).bufin ≠ []) ∧
    -- No stream is closed that is the stdin as well.
    (∀ exec fd, ktpd.exec = some exec → exec.stdin = some fd → fd ∈ ktpd.world.fds →
      ((msg.cmd = .stdoutClose ∧ exec.stdout = some fd) ∨
        (msg.cmd = .stderrClose ∧ exec.stderr = some fd)) →
          ∃ before, h.closed = some before ∧ before <+: exec.written)
  | (.sigchld _, _) => True

/-- All of the law but that the stdin is closed at last, and what it rests on. -/
structure Feeding (ktpd : Ktpd env) (exec : KtpdExec) (fd : Fd) (h : StdinHistory) : Prop where
  order : exec.written ++ exec.bufin = h.received
  filtered : StdinHistory.OnlyInterrupts h.raw h.received
  onRequest : fd ∉ ktpd.world.fds → ∃ before, h.closed = some before ∧ before <+: exec.written
  flag : h.closed.isSome = true → ktpd.stdinMustBeClosed = true
  earlier : ∀ before, h.closed = some before → before <+: h.received

structure StdinInv (ktpd : Ktpd env) (h : StdinHistory) : Prop where
  wired : Wired ktpd
  feeding : ∀ exec fd, ktpd.exec = some exec → exec.stdin = some fd → Feeding ktpd exec fd h
  law : StdinLaw ktpd h

variable {ktpd ktpd' : Ktpd env} {sys : KtpdSys} {exec : KtpdExec} {fd : Fd} {h : StdinHistory}

theorem dropInterrupts_spec (env : KtpdEnv) (n : ℕ) (data : Bytes) :
    StdinHistory.OnlyInterrupts data (dropInterrupts env n data) := by
  induction n generalizing data with
  | zero => exact ⟨List.Sublist.refl data, rfl⟩
  | succ n ih =>
    rw [dropInterrupts]
    split
    · exact ⟨List.Sublist.refl data, rfl⟩
    · rename_i pos hpos
      have hsplit : data = data.take pos ++ 3 :: data.drop (pos + 1) := by
        obtain ⟨hlt, hget⟩ := List.getElem?_eq_some_iff.mp (env.charsn_spec data pos hpos)
        have hdrop := List.drop_eq_getElem_cons hlt
        rw [hget] at hdrop
        rw [← hdrop, List.take_append_drop]
      obtain ⟨hsublist, hfilter⟩ := ih (data.drop (pos + 1))
      constructor
      · conv => rhs; rw [hsplit]
        exact List.Sublist.append (List.Sublist.refl _) (hsublist.cons 3)
      · conv => rhs; rw [hsplit]
        rw [List.filter_append, List.filter_append, hfilter]
        simp

theorem stdinData_spec (sys : KtpdSys) (exec : Kexec) (fd : Fd) (line : Bytes) :
    StdinHistory.OnlyInterrupts line (stdinData env sys exec fd line) := by
  unfold stdinData
  dsimp only
  split
  · exact dropInterrupts_spec env line.length line
  · exact ⟨List.Sublist.refl line, rfl⟩

theorem StdinHistory.OnlyInterrupts.append {raw received raw' received' : Bytes}
    (h : OnlyInterrupts raw received) (h' : OnlyInterrupts raw' received') :
    OnlyInterrupts (raw ++ raw') (received ++ received') :=
  ⟨h.1.append h'.1, by rw [List.filter_append, List.filter_append, h.2, h'.2]⟩

/-- A write takes the first bytes of the buffer, and none when the stdin is closed. -/
theorem stdinOut_spec (sys : KtpdSys) (ktpd : Ktpd env) (exec : KtpdExec) (fd : Fd) :
    (ktpd.stdinOut sys exec fd).toKexec = exec.toKexec ∧
      (ktpd.stdinOut sys exec fd).written ++ (ktpd.stdinOut sys exec fd).bufin =
        exec.written ++ exec.bufin ∧
      exec.written <+: (ktpd.stdinOut sys exec fd).written ∧
      (fd ∉ ktpd.world.fds → (ktpd.stdinOut sys exec fd).written = exec.written ∧
        (ktpd.stdinOut sys exec fd).bufin = exec.bufin) := by
  refine ⟨rfl, ?_, List.prefix_append _ _, fun hclosed => ?_⟩
  · simp [stdinOut]
  · simp [stdinOut, hclosed]

theorem StdinInv.of_feeding (hwired : Wired ktpd) (hexec : ktpd.exec = some exec)
    (hstdin : exec.stdin = some fd) (hfeed : Feeding ktpd exec fd h)
    (hcloses : h.closed.isSome = true → exec.bufin = [] → fd ∉ ktpd.world.fds) :
    StdinInv ktpd h := by
  refine ⟨hwired, fun exec' fd' hexec' hstdin' => ?_, fun exec' fd' hexec' hstdin' => ?_⟩
  all_goals
    obtain rfl : exec = exec' := Option.some.inj (hexec.symm.trans hexec')
    obtain rfl : fd = fd' := Option.some.inj (hstdin.symm.trans hstdin')
  · exact hfeed
  · exact ⟨hfeed.order, hfeed.filtered, hfeed.onRequest, hcloses⟩

/-- There is no command with a stdin. -/
theorem StdinInv.of_none (hwired : Wired ktpd) (hnone : ktpd.stdinFd = none) :
    StdinInv ktpd h := by
  have habsurd : ∀ exec fd, ktpd.exec = some exec → exec.stdin = some fd → False := by
    intro exec fd hexec hstdin
    unfold stdinFd at hnone
    rw [hexec, Option.bind_some, hstdin] at hnone
    cases hnone
  exact ⟨hwired, fun exec fd hexec hstdin => (habsurd exec fd hexec hstdin).elim,
    fun exec fd hexec hstdin => (habsurd exec fd hexec hstdin).elim⟩

/-- The buffer of the stdin stays as it is, and so does the descriptor. -/
theorem StdinInv.of_same (hinv : StdinInv ktpd h) (hwired : Wired ktpd')
    (hsame : ∀ exec', ktpd'.exec = some exec' → ∃ exec, ktpd.exec = some exec ∧
      exec'.stdin = exec.stdin ∧ exec'.bufin = exec.bufin ∧ exec'.written = exec.written)
    (hflag : ktpd'.stdinMustBeClosed = ktpd.stdinMustBeClosed)
    (hfds : ∀ exec fd, ktpd.exec = some exec → exec.stdin = some fd →
      (fd ∈ ktpd'.world.fds ↔ fd ∈ ktpd.world.fds)) : StdinInv ktpd' h := by
  refine ⟨hwired, fun exec' fd hexec' hstdin' => ?_, fun exec' fd hexec' hstdin' => ?_⟩
  all_goals
    obtain ⟨exec, hexec, hstdin, hbufin, hwritten⟩ := hsame exec' hexec'
    rw [hstdin] at hstdin'
    have hfd := hfds exec fd hexec hstdin'
  · obtain ⟨horder, hfiltered, honRequest, hclose, hearlier⟩ := hinv.feeding exec fd hexec hstdin'
    refine ⟨by rw [hwritten, hbufin, horder], hfiltered, fun hclosed => ?_, ?_, hearlier⟩
    · rw [hwritten]
      exact honRequest fun hmem => hclosed (hfd.mpr hmem)
    · rw [hflag]
      exact hclose
  · obtain ⟨horder, hfiltered, honRequest, hcloses⟩ := hinv.law exec fd hexec hstdin'
    refine ⟨by rw [hwritten, hbufin, horder], hfiltered, fun hclosed => ?_, ?_⟩
    · rw [hwritten]
      exact honRequest fun hmem => hclosed (hfd.mpr hmem)
    · rw [hbufin]
      exact fun hsome hnil hmem => hcloses hsome hnil (hfd.mp hmem)

/-- One write of what is in the buffer, after which the stdin may be closed. -/
theorem Feeding.pushStdin (hwired : Wired ktpd) (hexec : ktpd.exec = some exec)
    (hstdin : exec.stdin = some fd) (hfeed : Feeding ktpd exec fd h)
    (hsafe : ktpd.stdinMustBeClosed = true → (ktpd.stdinOut sys exec fd).bufin = [] →
      h.closed.isSome = true) : StdinInv (ktpd.pushStdin sys) h := by
  have hwired' := hwired.pushStdin sys
  obtain ⟨-, horder, hstarts, hclosed⟩ := stdinOut_spec sys ktpd exec fd
  rw [pushStdin_eq hexec hstdin] at hwired' ⊢
  have hsum := horder.trans hfeed.order
  refine .of_feeding hwired' rfl hstdin ⟨hsum, hfeed.filtered, fun hfd => ?_, hfeed.flag,
    hfeed.earlier⟩ fun hsome hnil => ?_
  · dsimp only at hfd
    by_cases hdrained : (ktpd.stdinOut sys exec fd).bufin = [] ∧ ktpd.stdinMustBeClosed = true
    · obtain ⟨before, hbefore⟩ := Option.isSome_iff_exists.mp (hsafe hdrained.2 hdrained.1)
      refine ⟨before, hbefore, ?_⟩
      rw [hdrained.1, List.append_nil] at hsum
      rw [hsum]
      exact hfeed.earlier before hbefore
    · rw [if_neg (by simpa using hdrained)] at hfd
      obtain ⟨before, hbefore, hwritten⟩ := hfeed.onRequest hfd
      exact ⟨before, hbefore, hwritten.trans hstarts⟩
  · dsimp only at hnil ⊢
    rw [if_pos (by simp [hnil, hfeed.flag hsome])]
    exact Kexec.not_mem_close

theorem note_none {event : Event × KtpdSys} (hnone : ktpd.stdinFd = none) :
    StdinHistory.note ktpd event ktpd' h = .empty := by
  unfold StdinHistory.note
  rw [hnone]
  rfl

/-- An event that has nothing for the stdin of the command. -/
theorem note_quiet {event : Event × KtpdSys} (hfd : ktpd.stdinFd = some fd)
    (hquiet : Quiet ktpd event) : StdinHistory.note ktpd event ktpd' h = h := by
  unfold StdinHistory.note
  rw [hfd, if_neg (by simp)]
  obtain ⟨event, sys⟩ := event
  cases event with
  | poll => rfl
  | sigchld => rfl
  | dispatch msg =>
    dsimp only
    split
    · rename_i hkind
      rw [hquiet.1 hkind]
    · rename_i hkind
      rw [hquiet.2 hkind] at hfd
      cases hfd
    · rfl

theorem note_stdin {msg : KtpMsg} {line data : Bytes} (hkind : msg.cmd = .stdin)
    (hstdinOf : ktpd.stdinOf sys msg = some (exec, fd, data)) (hline : msg.param .line = some line) :
    StdinHistory.note ktpd (.dispatch msg, sys) ktpd' h =
      { h with raw := h.raw ++ line, received := h.received ++ data } := by
  obtain ⟨hexec, hstdin, -⟩ := stdinOf_eq_some.mp hstdinOf
  rw [StdinHistory.note, stdinFd_eq hexec, hstdin, if_neg (by simp)]
  simp only [hkind, hstdinOf, hline, Option.getD_some]

theorem note_stdinClose {msg : KtpMsg} (hkind : msg.cmd = .stdinClose)
    (hfd : ktpd.stdinFd = some fd) : StdinHistory.note ktpd (.dispatch msg, sys) ktpd' h =
      { h with closed := h.closed.or (some h.received) } := by
  rw [StdinHistory.note, hfd, if_neg (by simp)]
  simp only [hkind]

theorem Kept.stdinInv (hkept : Kept ktpd ktpd') (hinv : StdinInv ktpd h) : StdinInv ktpd' h := by
  have hsame : ∀ exec', ktpd'.exec = some exec' → ∃ exec, ktpd.exec = some exec ∧
      exec.input = exec'.input := by
    intro exec' hexec'
    have hinput := hkept.input
    rw [hexec'] at hinput
    exact Option.map_eq_some_iff.mp hinput.symm
  refine hinv.of_same (hkept.wired hinv.wired) (fun exec' hexec' => ?_) hkept.stdinMustBeClosed
    fun exec fd hexec _ => ?_
  · obtain ⟨exec, hexec, heq⟩ := hsame exec' hexec'
    exact ⟨exec, hexec, congrArg (fun input => input.1.stdin) heq.symm,
      congrArg (fun input => input.2.1) heq.symm, congrArg (fun input => input.2.2) heq.symm⟩
  · rw [hkept.sameFds (by rw [hexec]; rfl)]

theorem processStdin_inv {msg : KtpMsg} {data : Bytes} (hinv : StdinInv ktpd h)
    (hkind : msg.cmd = .stdin) (hstdinOf : ktpd.stdinOf sys msg = some (exec, fd, data))
    (hwired' : Wired (ktpd.processStdin sys msg))
    (hsafe : h.closed.isSome = true → fd ∈ ktpd.world.fds →
      (ktpd.stdinOut sys { exec with bufin := exec.bufin ++ data } fd).bufin ≠ []) :
    StdinInv (ktpd.processStdin sys msg)
      (StdinHistory.note ktpd (.dispatch msg, sys) ktpd' h) := by
  obtain ⟨hexec, hstdin, line, hline, -, hdata⟩ := stdinOf_eq_some.mp hstdinOf
  rw [note_stdin hkind hstdinOf hline]
  have hfeed := hinv.feeding exec fd hexec hstdin
  obtain ⟨-, horder, hstarts, -⟩ :=
    stdinOut_spec sys ktpd { exec with bufin := exec.bufin ++ data } fd
  unfold processStdin at hwired' ⊢
  rw [hstdinOf] at hwired' ⊢
  refine .of_feeding hwired' rfl hstdin ⟨?_, ?_, fun hfd => ?_, hfeed.flag, fun before hbefore => ?_⟩
    fun hsome hnil hfd => hsafe hsome hfd hnil
  · rw [horder, ← List.append_assoc, hfeed.order]
  · rw [hdata]
    exact hfeed.filtered.append (stdinData_spec sys exec.toKexec fd line)
  · obtain ⟨before, hbefore, hwritten⟩ := hfeed.onRequest hfd
    exact ⟨before, hbefore, hwritten.trans hstarts⟩
  · exact (hfeed.earlier before hbefore).trans (List.prefix_append _ _)

/-- A safe step keeps the law. -/
theorem StepSpec.stdinInv {event : Event × KtpdSys} (hspec : StepSpec ktpd event ktpd')
    (hinv : StdinInv ktpd h) (hsafe : StdinSafe ktpd h event) :
    StdinInv ktpd' (StdinHistory.note ktpd event ktpd' h) := by
  have hwired' := hspec.wired hinv.wired
  cases hspec with
  | kept hquiet hkept =>
    cases hfd : ktpd.stdinFd with
    | none => exact .of_none hwired' (hkept.stdinFd_eq.trans hfd)
    | some fd =>
      rw [note_quiet hfd hquiet]
      exact hkept.stdinInv hinv
  | @scheduled msg sys ktpd' exec hkind hidle hscheduled =>
    obtain ⟨-, i, o, e, hi, -, -, -, -, -, hheld⟩ := hscheduled.streams
    rw [note_none (by rw [stdinFd, hidle, Option.bind_none])]
    refine .of_feeding hwired' hscheduled.running hi ⟨?_, ⟨List.Sublist.refl _, rfl⟩,
      fun hclosed => absurd hheld.isOpen hclosed, fun hsome => ?_, fun before hbefore => ?_⟩
      fun hsome => ?_
    · rw [hscheduled.written, hscheduled.bufin]
      rfl
    · cases hsome
    · cases hbefore
    · cases hsome
  | stdin hkind hstdinOf =>
    exact processStdin_inv hinv hkind hstdinOf hwired' (hsafe.1 hkind _ _ _ hstdinOf)
  | @stdinClose msg sys exec fd hkind hexec hstdin =>
    have hfeed := hinv.feeding exec fd hexec hstdin
    rw [note_stdinClose hkind ((stdinFd_eq hexec).trans hstdin)]
    refine Feeding.pushStdin (hinv.wired.withFlag true) hexec hstdin ⟨hfeed.order, hfeed.filtered, fun hfd => ?_,
      fun _ => rfl, fun before hbefore => ?_⟩ fun _ _ => by cases h.closed <;> rfl
    · obtain ⟨before, hbefore, hwritten⟩ := hfeed.onRequest hfd
      exact ⟨before, by simp [hbefore], hwritten⟩
    · cases hclosed : h.closed with
      | none =>
        simp only [hclosed, Option.none_or, Option.some.injEq] at hbefore
        exact hbefore ▸ List.prefix_rfl
      | some first =>
        simp only [hclosed, Option.some_or, Option.some.injEq] at hbefore
        exact hfeed.earlier before (hclosed.trans (congrArg some hbefore))
  | @streamClose msg sys exec exec' fd hclose hexec hinput =>
    have hquiet : Quiet ktpd (.dispatch msg, sys) := by
      rcases hclose with ⟨hkind, -⟩ | ⟨hkind, -⟩
      · exact quiet_of_cmd hkind (by decide)
      · exact quiet_of_cmd hkind (by decide)
    have hstdin' : exec'.stdin = exec.stdin := congrArg (fun input => input.1.stdin) hinput
    have hbufin : exec'.bufin = exec.bufin := congrArg (fun input => input.2.1) hinput
    have hwritten : exec'.written = exec.written := congrArg (fun input => input.2.2) hinput
    cases hstdin : exec.stdin with
    | none => exact .of_none hwired' (hstdin'.trans hstdin)
    | some stdin =>
      rw [note_quiet ((stdinFd_eq hexec).trans hstdin) hquiet]
      by_cases hfd : stdin = fd
      · subst hfd
        have hfeed := hinv.feeding exec stdin hexec hstdin
        refine .of_feeding hwired' rfl (hstdin'.trans hstdin) ⟨?_, hfeed.filtered, fun _ => ?_,
          hfeed.flag, hfeed.earlier⟩ fun _ _ => Kexec.not_mem_close
        · rw [hbufin, hwritten, hfeed.order]
        · rw [hwritten]
          by_cases hopen : stdin ∈ ktpd.world.fds
          · exact hsafe.2 exec stdin hexec hstdin hopen hclose
          · exact hfeed.onRequest hopen
      · refine hinv.of_same hwired' (fun exec₁ hexec₁ => ?_) rfl fun exec₁ fd₁ hexec₁ hstdin₁ => ?_
        · cases hexec₁
          exact ⟨exec, hexec, hstdin', hbufin, hwritten⟩
        · obtain rfl : exec = exec₁ := Option.some.inj (hexec.symm.trans hexec₁)
          obtain rfl : stdin = fd₁ := Option.some.inj (hstdin.symm.trans hstdin₁)
          exact ⟨fun hmem => Kexec.close_subset hmem, fun hmem => Kexec.mem_close hmem fun heq =>
            hfd (Option.some.inj heq).symm⟩
  | @polled fd revents sys mid hfd hkept =>
    cases hstdinFd : ktpd.stdinFd with
    | none =>
      refine .of_none hwired' ?_
      have hmid : mid.stdinFd = none := by rw [hkept.stdinFd_eq, pushed_stdinFd, hstdinFd]
      split <;> exact hmid
    | some stdin =>
      have hquiet : Quiet ktpd (.poll fd revents, sys) := trivial
      rw [note_quiet hstdinFd hquiet]
      have hpushed : StdinInv (ktpd.pushed sys fd revents) h := by
        unfold pushed
        split
        · rename_i hpush
          obtain ⟨exec, hexec, hstdin⟩ := stdinFd_eq_some.mp hstdinFd
          exact (hinv.feeding exec stdin hexec hstdin).pushStdin hinv.wired hexec hstdin
            fun hflag hnil => hsafe hpush.1 hpush.2 hflag exec stdin hexec hstdin hnil
        · exact hinv
      have hmid := hkept.stdinInv hpushed
      split
      · rename_i hfailed
        rw [if_pos hfailed] at hwired'
        exact hmid.of_same hwired' (fun exec hexec => ⟨exec, hexec, rfl, rfl, rfl⟩) rfl
          fun _ _ _ _ => Iff.rfl
      · exact hmid
  | @reaped reports sys exec exec' hexec hreap hreaped hretcode =>
    obtain ⟨-, -, -, hflag, -⟩ := reapChildren_spec sys ktpd reports
    have hapart := hinv.wired.apart exec hexec
    cases hstdin : exec.stdin with
    | none => exact .of_none hwired' (by rw [stdinFd_eq hreap, hreaped.stdin, hstdin])
    | some fd =>
      have hquiet : Quiet ktpd (.sigchld reports, sys) := trivial
      rw [note_quiet ((stdinFd_eq hexec).trans hstdin) hquiet]
      refine hinv.of_same hwired' (fun exec₁ hexec₁ => ?_) hflag fun exec₁ fd₁ hexec₁ hstdin₁ => ?_
      · obtain rfl : exec' = exec₁ := Option.some.inj (hreap.symm.trans hexec₁)
        exact ⟨exec, hexec, hreaped.stdin, hreaped.bufin, hreaped.written⟩
      · obtain rfl : exec = exec₁ := Option.some.inj (hexec.symm.trans hexec₁)
        exact ⟨fun hmem => hreaped.fewer hmem, fun hmem =>
          (hreaped.held fd₁ ⟨hmem, hapart.own fd₁ hmem hstdin₁⟩).isOpen⟩
  | @finished reports sys exec exec' retcode hexec hreap hreaped hretcode =>
    refine .of_none hwired' ?_
    rw [stdinFd, (finishCommand_spec sys (ktpd.reapChildren sys reports) exec' retcode).idle,
      Option.bind_none]

theorem poll_stdinSafe {revents : Revents} (hwired : Wired ktpd)
    (hstep : ktpd.step (.poll fd revents, sys) = some ktpd')
    (hlaw : StdinLaw ktpd' (StdinHistory.note ktpd (.poll fd revents, sys) ktpd' h)) :
    StdinSafe ktpd h (.poll fd revents, sys) := by
  intro hcallback hpollout hflag exec stdin hexec hstdin hnil
  have hstdinFd : ktpd.stdinFd = some stdin := (stdinFd_eq hexec).trans hstdin
  have hquiet : Quiet ktpd (.poll fd revents, sys) := trivial
  rw [note_quiet hstdinFd hquiet] at hlaw
  rcases poll_spec hwired hstep with ⟨-, mid, hkept, heq⟩ | ⟨hclient, -⟩
  · have hpushed : ktpd.pushed sys fd revents = ktpd.pushStdin sys := if_pos ⟨hcallback, hpollout⟩
    rw [hpushed] at hkept
    have hclosed : stdin ∉ mid.world.fds := by
      rw [hkept.sameFds (by rw [pushStdin_eq hexec hstdin]; rfl), pushStdin_eq hexec hstdin]
      simp only [hnil, hflag, List.isEmpty_nil, Bool.and_self, if_true]
      exact Kexec.not_mem_close
    have hmid : mid.stdinFd = some stdin := by
      rw [hkept.stdinFd_eq, pushStdin_stdinFd, hstdinFd]
    obtain ⟨exec', hexec', hstdin'⟩ := stdinFd_eq_some.mp hmid
    have hfed : Fed mid.world exec' stdin h := by
      rw [heq] at hlaw
      split at hlaw
      · exact hlaw exec' stdin hexec' hstdin'
      · exact hlaw exec' stdin hexec' hstdin'
    obtain ⟨before, hbefore, -⟩ := hfed.onRequest hclosed
    rw [hbefore]
    rfl
  · rw [hclient] at hcallback
    cases hcallback

theorem dispatch_stdinSafe {msg : KtpMsg} (hwired : Wired ktpd)
    (hstep : ktpd.dispatch sys msg = some ktpd')
    (hlaw : StdinLaw ktpd' (StdinHistory.note ktpd (.dispatch msg, sys) ktpd' h)) :
    StdinSafe ktpd h (.dispatch msg, sys) := by
  constructor
  · intro hkind exec fd data hstdinOf hsome hopen hnil
    obtain ⟨hexec, hstdin, line, hline, -⟩ := stdinOf_eq_some.mp hstdinOf
    obtain rfl := Option.some.inj ((dispatch_stdin hwired hkind hstdinOf).symm.trans hstep)
    rw [note_stdin hkind hstdinOf hline, processStdin, hstdinOf] at hlaw
    exact (hlaw _ fd rfl hstdin).closes hsome hnil hopen
  · intro exec fd hexec hstdin hopen hclose
    have hstate : ktpd.state = .waitForProcess := hwired.live.mp (by rw [hexec]; rfl)
    have hstdinFd : ktpd.stdinFd = some fd := (stdinFd_eq hexec).trans hstdin
    rcases hclose with ⟨hkind, hfd⟩ | ⟨hkind, hfd⟩
    · have hquiet : Quiet ktpd (.dispatch msg, sys) := quiet_of_cmd hkind (by decide)
      rw [note_quiet hstdinFd hquiet] at hlaw
      simp only [dispatch, hkind, hstate, if_true, processStdoutClose, hexec, hfd] at hstep
      cases hstep
      exact (hlaw _ fd rfl hstdin).onRequest Kexec.not_mem_close
    · have hquiet : Quiet ktpd (.dispatch msg, sys) := quiet_of_cmd hkind (by decide)
      rw [note_quiet hstdinFd hquiet] at hlaw
      simp only [dispatch, hkind, hstate, if_true, processStderrClose, hexec, hfd] at hstep
      cases hstep
      exact (hlaw _ fd rfl hstdin).onRequest Kexec.not_mem_close

/-- A step to a state that meets the law is safe. -/
theorem step_stdinSafe {event : Event × KtpdSys} (hwired : Wired ktpd)
    (hstep : ktpd.step event = some ktpd')
    (hlaw : StdinLaw ktpd' (StdinHistory.note ktpd event ktpd' h)) : StdinSafe ktpd h event := by
  obtain ⟨event, sys⟩ := event
  cases event with
  | dispatch msg => exact dispatch_stdinSafe hwired hstep hlaw
  | poll fd revents => exact poll_stdinSafe hwired hstep hlaw
  | sigchld reports => trivial

/-- The law holds in all states of a run exactly if no step of it breaks the rules of closing. -/
theorem stdin_law_iff (eloop : env.L.State) (world : World)
    (hnew : env.L.watched eloop env.clientFd = false) (hopen : env.clientFd ∈ world.fds)
    (events : List (Event × KtpdSys)) (s : Ktpd env)
    (hrun : Runs.run step (new eloop world) events = some s) :
    (∀ n t k, Runs.run (Runs.observed step StdinHistory.note) (new eloop world, .empty)
        (events.take n) = some (t, k) → StdinLaw t k) ↔
      Runs.Along (Runs.observed step StdinHistory.note) (fun p => StdinSafe p.1 p.2)
        (new eloop world, .empty) events := by
  obtain ⟨h, hobserved⟩ := Runs.exists_run_observed StdinHistory.note .empty hrun
  have hstart : StdinInv (new eloop world : Ktpd env) .empty :=
    .of_none (new_wired hnew hopen) rfl
  have hiff : (∀ n p, Runs.run (Runs.observed step StdinHistory.note) (new eloop world, .empty)
      (events.take n) = some p → StdinLaw p.1 p.2) ↔
        Runs.Along (Runs.observed step StdinHistory.note) (fun p => StdinSafe p.1 p.2)
          (new eloop world, .empty) events := by
    refine Runs.forall_states_iff_along (I := fun p => StdinInv p.1 p.2)
      (fun _ hinv => hinv.law) ?_ ?_ hstart hobserved
    · rintro ⟨s, h⟩ event p hinv hsafe hstep
      obtain ⟨t, ht, rfl⟩ := Runs.observed_eq_some.mp hstep
      exact (step_spec hinv.wired ht).stdinInv hinv hsafe
    · rintro ⟨s, h⟩ event p hinv hstep hlaw
      obtain ⟨t, ht, rfl⟩ := Runs.observed_eq_some.mp hstep
      exact step_stdinSafe hinv.wired ht hlaw
  rw [← hiff]
  exact ⟨fun hlaw n p => hlaw n p.1 p.2, fun hlaw n t k => hlaw n (t, k)⟩

/-- Input of which a part is still in the buffer when it ends. -/
def fedEvents : List (Event × KtpdSys) :=
  sampleStart ++ [(.dispatch (sampleStdin [97, 98, 99]), sampleSys 2),
    (.dispatch (.preform .stdinClose {}), sampleSys 0),
    (.poll 5 ⟨false, true, false⟩, sampleSys 2), (.sigchld [(1, .zero)], sampleSys 0)]

theorem stdin_law_iff_sample : ∃ s : Ktpd sampleEnv,
    Runs.run step (new (fun _ => none) sampleWorld) fedEvents = some s ∧
    ((∀ n t k, Runs.run (Runs.observed step StdinHistory.note)
        ((new (fun _ => none) sampleWorld : Ktpd sampleEnv), .empty) (fedEvents.take n) =
          some (t, k) → StdinLaw t k) ↔
      Runs.Along (Runs.observed step StdinHistory.note) (fun p => StdinSafe p.1 p.2)
        ((new (fun _ => none) sampleWorld : Ktpd sampleEnv), .empty) fedEvents) := by
  have hrun : (Runs.run step (new (fun _ => none) sampleWorld : Ktpd sampleEnv)
      fedEvents).isSome = true := by decide
  obtain ⟨s, hs⟩ := Option.isSome_iff_exists.mp hrun
  exact ⟨s, hs, @stdin_law_iff sampleEnv _ _ rfl (by decide) _ _ hs⟩

/-- The stdin of a command is closed, and the next command has input that is written in two
parts. -/
def closedEvents : List (Event × KtpdSys) :=
  sampleStart ++ [(.dispatch (.preform .stdinClose {}), sampleSys 0),
    (.sigchld [(1, .zero)], sampleSys 0), (.dispatch sampleCmd, sampleSys 0),
    (.dispatch (sampleStdin [97, 98]), sampleSys 1), (.poll 5 ⟨false, true, false⟩, sampleSys 1)]

theorem stdin_closed_for_next_command : ∃ (s : Ktpd sampleEnv) (h : StdinHistory),
    Runs.run (Runs.observed step StdinHistory.note) (new (fun _ => none) sampleWorld, .empty)
      closedEvents = some (s, h) ∧ ¬ StdinLaw s h := by
  have hrun : ((Runs.run (Runs.observed step StdinHistory.note)
      ((new (fun _ => none) sampleWorld : Ktpd sampleEnv), .empty) closedEvents).map fun p =>
        (p.1.exec.map fun exec => exec.stdin, p.1.world.fds.contains 5, p.2.closed)) =
      some (some (some 5), false, none) := by decide
  obtain ⟨⟨s, h⟩, hs, heq⟩ := Option.map_eq_some_iff.mp hrun
  obtain ⟨hexec, hfds, hclosed⟩ : (s.exec.map fun exec => exec.stdin) = some (some 5) ∧
      s.world.fds.contains 5 = false ∧ h.closed = none := by simpa using heq
  obtain ⟨exec, hexec, hstdin⟩ := Option.map_eq_some_iff.mp hexec
  refine ⟨s, h, hs, fun hlaw => ?_⟩
  obtain ⟨before, hbefore, -⟩ := (hlaw exec 5 hexec hstdin).onRequest (by simpa using hfds)
  rw [hclosed] at hbefore
  cases hbefore

end Klish.Ktpd
