import Klish.KtpdPollin

/-!
# The output of a command

What a callback of the server makes of the streams of a command: which of them are polled, and which
bytes are sent.
-/

namespace Klish

namespace KtpdExec

/-- `kexec_stdout` or `kexec_stderr` -/
def stream (exec : KtpdExec) (isStderr : Bool) : Option Fd :=
  if isStderr then exec.stderr else exec.stdout

/-- `kexec_bufout` or `kexec_buferr` -/
def buf (exec : KtpdExec) (isStderr : Bool) : Bytes :=
  if isStderr then exec.buferr else exec.bufout

end KtpdExec

/-- What silent symbols have put into the buffer of a stream. -/
def KtpdSys.printed (sys : KtpdSys) (isStderr : Bool) : Bytes :=
  if isStderr then sys.printedErr else sys.printedOut

namespace Ktpd

variable {env : KtpdEnv}

/-- The descriptor of a stream of the running command. -/
def streamFd (ktpd : Ktpd env) (isStderr : Bool) : Option Fd :=
  ktpd.exec.bind fun exec => exec.stream isStderr

/-- The bytes that wait in the buffer of a stream. -/
def streamBuf (ktpd : Ktpd env) (isStderr : Bool) : Bytes :=
  (ktpd.exec.map fun exec => exec.buf isStderr).getD []

/-- What the messages of a stream carry. -/
def streamData (isStderr : Bool) (msgs : List KtpMsg) : Bytes :=
  msgs.flatMap fun msg =>
    if msg.cmd = (if isStderr then .stderr else .stdout) then (msg.param .line).getD [] else []

/-- What a descriptor gives when it is read. -/
def readFd (ktpd : Ktpd env) (sys : KtpdSys) (fd : Option Fd) (isStderr : Bool) : Bytes :=
  if fd.any (· ∈ ktpd.world.fds) then if isStderr then sys.readErr else sys.readOut else []

/-- What a callback reads from the streams. -/
def reads (ktpd : Ktpd env) (event : Event × KtpdSys) (isStderr : Bool) : Bytes :=
  match event with
  | (.dispatch _, _) => []
  | (.poll fd revents, sys) =>
    if revents.pollin = true ∧ ktpd.exec.isSome = true ∧
        env.L.callbackOf ktpd.eloop fd = some (streamCallback isStderr) then
      (ktpd.pushed sys fd revents).readFd sys (some fd) isStderr
    else []
  | (.sigchld reports, sys) =>
    let ktpd := ktpd.reapChildren sys reports
    match ktpd.exec with
    | none => []
    | some exec =>
      if (Kexec.kexecRetcode exec.toKexec).isSome then
        ktpd.readFd sys (exec.stream isStderr) isStderr
      else []

/-- What silent symbols print during a callback. -/
def prints (event : Event × KtpdSys) (isStderr : Bool) : Bytes :=
  match event with
  | (.dispatch _, sys) | (.sigchld _, sys) => sys.printed isStderr
  | (.poll .., _) => []

/-- The callback writes to the client because the socket can be written. -/
def writes (ktpd : Ktpd env) : Event → Bool
  | .poll fd revents =>
    revents.pollout && decide (env.L.callbackOf ktpd.eloop fd = some .client)
  | .dispatch _ | .sigchld _ => false

/-- A stream of the command is in the loop, and POLLIN is disabled. -/
structure Paused (ktpd : Ktpd env) (fd : Fd) : Prop where
  isStream : ∃ isStderr, ktpd.streamFd isStderr = some fd
  watched : env.L.watched ktpd.eloop fd = true
  pollin : env.L.polls ktpd.eloop fd .pollin = false

/-- POLLOUT is armed on the client's socket. -/
def Armed (ktpd : Ktpd env) : Prop := env.L.polls ktpd.eloop env.clientFd .pollout = true

variable {ktpd ktpd' ktpd'' : Ktpd env} {sys : KtpdSys} {isStderr : Bool} {fd : Fd}

/-- Streams that stay in the loop are read as before, and the client is still to be written. -/
structure Spares (env : KtpdEnv) (e e' : env.L.State) : Prop where
  watched : ∀ fd, env.L.watched e' fd = true → env.L.watched e fd = true
  pollin : ∀ fd, fd ≠ env.clientFd → env.L.watched e' fd = true →
    env.L.polls e fd .pollin = true → env.L.polls e' fd .pollin = true
  pollout : env.L.polls e env.clientFd .pollout = true →
    env.L.polls e' env.clientFd .pollout = true

namespace Spares

variable {a b c : env.L.State} {ev : PollEvent}

theorem refl (a : env.L.State) : Spares env a a :=
  ⟨fun _ h => h, fun _ _ _ h => h, fun h => h⟩

theorem trans (h : Spares env a b) (h' : Spares env b c) : Spares env a c where
  watched fd hfd := h.watched fd (h'.watched fd hfd)
  pollin fd hne hfd hpoll := h'.pollin fd hne hfd (h.pollin fd hne (h'.watched fd hfd) hpoll)
  pollout hpoll := h'.pollout (h.pollout hpoll)

theorem includeEvent : Spares env a (env.L.includeFdEvent a fd ev) := by
  refine ⟨fun fd' h => by simpa using h, fun fd' _ _ h => ?_, fun h => ?_⟩ <;>
    simp [EventLoop.polls_includeFdEvent, h]

/-- Neither POLLIN of a stream nor POLLOUT of the client is excluded. -/
theorem excludeEvent (hin : ev = .pollin → fd = env.clientFd)
    (hout : ev = .pollout → fd ≠ env.clientFd) :
    Spares env a (env.L.excludeFdEvent a fd ev) := by
  refine ⟨fun fd' h => by simpa using h, fun fd' hne _ h => ?_, fun h => ?_⟩
  · rw [EventLoop.polls_excludeFdEvent, h, Bool.true_and, Bool.not_eq_true',
      decide_eq_false_iff_not]
    rintro ⟨rfl, hev⟩
    exact hne (hin hev.symm)
  · rw [EventLoop.polls_excludeFdEvent, h, Bool.true_and, Bool.not_eq_true',
      decide_eq_false_iff_not]
    rintro ⟨hfd, hev⟩
    exact hout hev.symm hfd.symm

theorem sent {stalls : Bool} : Spares env a
    (if stalls then env.L.includeFdEvent a env.clientFd .pollout else a) := by
  split
  · exact includeEvent
  · exact refl a

theorem pollStream {stream : Option Fd} : Spares env a (pollStream a stream) := by
  cases stream with
  | none => exact refl a
  | some fd => exact includeEvent

theorem delFd (hfd : fd ≠ env.clientFd) : Spares env a (env.L.delFd a fd) := by
  refine ⟨fun fd' h => ?_, fun fd' _ hwatched h => ?_, fun h => ?_⟩
  · rw [EventLoop.watched_delFd, Bool.and_eq_true] at h
    exact h.2
  · rw [EventLoop.watched_delFd, Bool.and_eq_true] at hwatched
    rw [EventLoop.polls_delFd, h, hwatched.1]
    rfl
  · simp [h, hfd.symm]

theorem pushEloop {bufin : Bytes} (hfd : fd ≠ env.clientFd) :
    Spares env a (pushEloop a fd bufin) := by
  have hread : Spares env a (if bufin.length < bufLimit then
      env.L.includeFdEvent a env.clientFd .pollin else a) := by
    split
    · exact includeEvent
    · exact refl a
  unfold Ktpd.pushEloop
  dsimp only
  split
  · exact hread.trans (excludeEvent (fun h => by cases h) fun _ => hfd)
  · exact hread

theorem stdinEloop {bufin : Bytes} : Spares env a (stdinEloop a fd bufin) := by
  unfold Ktpd.stdinEloop
  split
  · exact refl a
  · dsimp only
    split
    · exact Spares.trans includeEvent (excludeEvent (fun _ => rfl) fun h => by cases h)
    · exact includeEvent

end Spares

theorem streamFd_eq {exec : KtpdExec} (hexec : ktpd.exec = some exec) :
    ktpd.streamFd isStderr = exec.stream isStderr := by
  rw [streamFd, hexec, Option.bind_some]

theorem streamBuf_eq {exec : KtpdExec} (hexec : ktpd.exec = some exec) :
    ktpd.streamBuf isStderr = exec.buf isStderr := by
  rw [streamBuf, hexec, Option.map_some, Option.getD_some]

theorem streamFd_of_none (hexec : ktpd.exec = none) : ktpd.streamFd isStderr = none := by
  rw [streamFd, hexec, Option.bind_none]

theorem streamBuf_of_none (hexec : ktpd.exec = none) : ktpd.streamBuf isStderr = [] := by
  rw [streamBuf, hexec, Option.map_none, Option.getD_none]

theorem not_paused_of_none (hexec : ktpd.exec = none) : ¬ ktpd.Paused fd := by
  rintro ⟨⟨isStderr, hfd⟩, -⟩
  rw [streamFd_of_none hexec] at hfd
  cases hfd

/-- The streams of a command are not the client's socket. -/
theorem Wired.streamFd_ne (hwired : Wired ktpd) (hfd : ktpd.streamFd isStderr = some fd) :
    fd ≠ env.clientFd := by
  obtain ⟨exec, hexec, hstream⟩ := Option.bind_eq_some_iff.mp hfd
  have hapart := hwired.apart exec hexec
  rintro rfl
  cases isStderr
  · exact hapart.stdout hstream
  · exact hapart.stderr hstream

@[simp] theorem streamData_append (msgs msgs' : List KtpMsg) :
    streamData isStderr (msgs ++ msgs') = streamData isStderr msgs ++ streamData isStderr msgs' :=
  List.flatMap_append

theorem streamData_of_ne {msgs : List KtpMsg} (h : ∀ msg ∈ msgs, ¬ IsStream msg) :
    streamData isStderr msgs = [] := by
  refine List.flatMap_eq_nil_iff.mpr fun msg hmsg => if_neg fun hcmd => h msg hmsg ?_
  cases isStderr
  · exact .inl hcmd
  · exact .inr hcmd

theorem streamData_singleton {msg : KtpMsg} (h : ¬ IsStream msg) :
    streamData isStderr [msg] = [] := streamData_of_ne (by simpa using h)

theorem streamData_streamMsg (data : Bytes) (isStderr' : Bool) :
    streamData isStderr [streamMsg data isStderr'] = if isStderr = isStderr' then data else [] := by
  cases isStderr <;> cases isStderr' <;>
    simp [streamData, streamMsg, KtpMsg.param, KtpMsg.addParam, KtpMsg.preform]

theorem readStream_eq (exec : KtpdExec) (fd : Option Fd) :
    ktpd.readStream sys exec fd isStderr = exec.buf isStderr ++ ktpd.readFd sys fd isStderr := by
  unfold readStream readFd KtpdExec.buf
  dsimp only
  split
  · rfl
  · rw [List.append_nil]

/-- `get_stream` sends all that it has read with all that was in the buffer. -/
theorem getStream_data (ktpd : Ktpd env) (sys : KtpdSys) (exec : KtpdExec) (fd : Option Fd)
    (isStderr isStderr' : Bool) :
    streamData isStderr' (ktpd.getStream sys exec fd isStderr).2.toClient =
        streamData isStderr' ktpd.toClient ++
          (if isStderr' = isStderr then exec.buf isStderr ++ ktpd.readFd sys fd isStderr else []) ∧
      (ktpd.getStream sys exec fd isStderr).1.buf isStderr' =
        if isStderr' = isStderr then [] else exec.buf isStderr' := by
  unfold getStream
  dsimp only
  rw [readStream_eq]
  split
  · rename_i hempty
    have hnil := List.isEmpty_iff.mp hempty
    rw [hnil]
    refine ⟨by simp, ?_⟩
    split
    · rename_i heq
      rw [heq]
      exact (List.append_eq_nil_iff.mp hnil).1
    · rfl
  · constructor
    · show streamData isStderr' (ktpd.toClient ++ [streamMsg _ isStderr]) = _
      rw [streamData_append, streamData_streamMsg]
    · cases isStderr <;> cases isStderr' <;> rfl

/-- No stream is paused, and those that are paused still wait for the client's socket. -/
structure Calm (ktpd ktpd' : Ktpd env) : Prop where
  paused : ∀ fd, ktpd'.Paused fd → ktpd.Paused fd
  armed : ∀ fd, ktpd'.Paused fd → Armed ktpd → Armed ktpd'

namespace Calm

theorem refl (ktpd : Ktpd env) : Calm ktpd ktpd := ⟨fun _ h => h, fun _ _ h => h⟩

theorem trans (h : Calm ktpd ktpd') (h' : Calm ktpd' ktpd'') : Calm ktpd ktpd'' where
  paused fd hfd := h.paused fd (h'.paused fd hfd)
  armed fd hfd harmed := h'.armed fd hfd (h.armed fd (h'.paused fd hfd) harmed)

/-- The command goes on with its streams. -/
theorem of_spares (hwired : Wired ktpd) (hspares : Spares env ktpd.eloop ktpd'.eloop)
    (hfd : ∀ isStderr, ktpd'.streamFd isStderr = ktpd.streamFd isStderr) : Calm ktpd ktpd' where
  paused fd h := by
    obtain ⟨isStderr, hstream⟩ := h.isStream
    rw [hfd] at hstream
    refine ⟨⟨isStderr, hstream⟩, hspares.watched fd h.watched, ?_⟩
    by_contra hpoll
    have hpoll' := hspares.pollin fd (hwired.streamFd_ne hstream) h.watched
      ((Bool.not_eq_false _).mp hpoll)
    rw [h.pollin] at hpoll'
    cases hpoll'
  armed _ _ := hspares.pollout

theorem of_not_paused (h : ∀ fd, ¬ ktpd'.Paused fd) : Calm ktpd ktpd' :=
  ⟨fun fd hfd => absurd hfd (h fd), fun fd hfd => absurd hfd (h fd)⟩

theorem of_none (hexec : ktpd'.exec = none) : Calm ktpd ktpd' :=
  .of_not_paused fun _ => not_paused_of_none hexec

end Calm

/-- The step has nothing to do with the output of a command, which may be dropped. -/
structure Aside (ktpd ktpd' : Ktpd env) : Prop extends Calm ktpd ktpd' where
  buf : ∀ isStderr, (ktpd'.streamBuf isStderr).Sublist (ktpd.streamBuf isStderr)
  data : ∀ isStderr, streamData isStderr ktpd'.toClient = streamData isStderr ktpd.toClient

namespace Aside

theorem refl (ktpd : Ktpd env) : Aside ktpd ktpd := ⟨.refl ktpd, fun _ => .refl _, fun _ => rfl⟩

theorem trans (h : Aside ktpd ktpd') (h' : Aside ktpd' ktpd'') : Aside ktpd ktpd'' where
  toCalm := h.toCalm.trans h'.toCalm
  buf isStderr := (h'.buf isStderr).trans (h.buf isStderr)
  data isStderr := (h'.data isStderr).trans (h.data isStderr)

/-- There is no command, and no message of a stream is sent. -/
theorem of_none {out : List KtpMsg} (hexec : ktpd'.exec = none)
    (htoClient : ktpd'.toClient = ktpd.toClient ++ out) (hout : ∀ msg ∈ out, ¬ IsStream msg) :
    Aside ktpd ktpd' where
  toCalm := .of_none hexec
  buf isStderr := by
    rw [streamBuf_of_none hexec]
    exact List.nil_sublist _
  data isStderr := by rw [htoClient, streamData_append, streamData_of_ne hout, List.append_nil]

theorem send (hwired : Wired ktpd) {msg : KtpMsg} (hmsg : ¬ IsStream msg) :
    Aside ktpd (ktpd.send sys msg) := by
  refine ⟨.of_spares hwired .sent fun _ => rfl, fun _ => .refl _, fun isStderr => ?_⟩
  show streamData isStderr (ktpd.toClient ++ [msg]) = _
  rw [streamData_append, streamData_singleton hmsg, List.append_nil]

/-- What is sent, the command and the loop are as before. -/
theorem of_eq (heloop : ktpd'.eloop = ktpd.eloop) (hexec : ktpd'.exec = ktpd.exec)
    (htoClient : ktpd'.toClient = ktpd.toClient) : Aside ktpd ktpd' where
  paused fd h := by
    refine ⟨?_, heloop ▸ h.watched, heloop ▸ h.pollin⟩
    have hstream := h.isStream
    unfold streamFd at hstream ⊢
    rwa [hexec] at hstream
  armed _ _ harmed := by
    unfold Armed
    rw [heloop]
    exact harmed
  buf isStderr := by
    rw [streamBuf, hexec]
    exact .refl _
  data isStderr := by rw [htoClient]

theorem pushStdin (hwired : Wired ktpd) (sys : KtpdSys) : Aside ktpd (ktpd.pushStdin sys) := by
  cases hfd : ktpd.stdinFd with
  | none =>
    rw [pushStdin_of_none hfd]
    exact refl ktpd
  | some fd =>
    obtain ⟨exec, hexec, hstdin⟩ := stdinFd_eq_some.mp hfd
    rw [pushStdin_eq hexec hstdin]
    refine ⟨.of_spares hwired (.pushEloop (hwired.stdin_ne hexec hstdin)) fun isStderr => ?_,
      fun isStderr => ?_, fun _ => rfl⟩
    · rw [streamFd_eq rfl, streamFd_eq hexec]
      rfl
    · rw [streamBuf_eq rfl, streamBuf_eq hexec]
      exact .refl _

theorem processStdin (hwired : Wired ktpd) (sys : KtpdSys) (msg : KtpMsg) :
    Aside ktpd (ktpd.processStdin sys msg) := by
  unfold Ktpd.processStdin
  split
  · exact refl ktpd
  · rename_i exec fd data hstdinOf
    obtain ⟨hexec, -⟩ := stdinOf_eq_some.mp hstdinOf
    refine ⟨.of_spares hwired .stdinEloop fun isStderr => ?_, fun isStderr => ?_, fun _ => rfl⟩
    · rw [streamFd_eq rfl, streamFd_eq hexec]
      rfl
    · rw [streamBuf_eq rfl, streamBuf_eq hexec]
      exact .refl _

theorem processStdinClose (hwired : Wired ktpd) (sys : KtpdSys) :
    Aside ktpd (ktpd.processStdinClose sys) := by
  unfold Ktpd.processStdinClose
  split
  · exact refl ktpd
  · have hflag : Aside ktpd { ktpd with stdinMustBeClosed := true } := of_eq rfl rfl rfl
    exact hflag.trans (pushStdin (hwired.withFlag true) sys)

/-- The buffer of a stream that the client has closed is emptied. -/
theorem of_closes (hwired : Wired ktpd) (h : Closes ktpd ktpd') : Aside ktpd ktpd' := by
  cases h with
  | none => exact refl ktpd
  | @closed exec fd isStderr' hexec hfd =>
    refine ⟨.of_spares hwired (.refl _) fun isStderr => ?_, fun isStderr => ?_, fun _ => rfl⟩
    · rw [streamFd_eq rfl, streamFd_eq hexec, KtpdExec.stream, KtpdExec.stream,
        (emptyStream_same exec isStderr').toKexec]
    · rw [streamBuf_eq rfl, streamBuf_eq hexec]
      cases isStderr <;> cases isStderr' <;> first | exact .refl _ | exact List.nil_sublist _

theorem unwatched (hwired : Wired ktpd) (hfd : fd ≠ env.clientFd) (failed : Bool) :
    Aside ktpd (ktpd.unwatched fd failed) := by
  unfold Ktpd.unwatched
  split
  · exact ⟨.of_spares hwired (.delFd hfd) fun _ => rfl, fun _ => .refl _, fun _ => rfl⟩
  · exact refl ktpd

end Aside

theorem pushed_aside (hwired : Wired ktpd) (sys : KtpdSys) (fd : Fd) (revents : Revents) :
    Aside ktpd (ktpd.pushed sys fd revents) := by
  unfold pushed
  split
  · exact .pushStdin hwired sys
  · exact .refl ktpd

/-- What a callback makes of the bytes of a stream, while silent symbols print some. -/
inductive Moves (ktpd ktpd' : Ktpd env) (isStderr : Bool) (printed : Bytes) : Bytes → Prop
  | waits (hdata : streamData isStderr ktpd'.toClient = streamData isStderr ktpd.toClient)
      (hbuf : (ktpd'.streamBuf isStderr).Sublist (ktpd.streamBuf isStderr ++ printed)) :
      Moves ktpd ktpd' isStderr printed []
  | sends (waited : Bytes) {read : Bytes}
      (hwaited : waited.Sublist (ktpd.streamBuf isStderr ++ printed))
      (hdata : streamData isStderr ktpd'.toClient =
        streamData isStderr ktpd.toClient ++ (waited ++ read))
      (hbuf : ktpd'.streamBuf isStderr = []) : Moves ktpd ktpd' isStderr printed read

namespace Moves

variable {printed read : Bytes}

theorem of_aside (h : Aside ktpd ktpd') : Moves ktpd ktpd' isStderr printed [] :=
  .waits (h.data isStderr) ((h.buf isStderr).trans (List.sublist_append_left _ _))

theorem after (h : Aside ktpd ktpd') (h' : Moves ktpd' ktpd'' isStderr printed read) :
    Moves ktpd ktpd'' isStderr printed read := by
  have hbuf := (h.buf isStderr).append (List.Sublist.refl printed)
  cases h' with
  | waits hdata hbuf' => exact .waits (hdata.trans (h.data isStderr)) (hbuf'.trans hbuf)
  | sends _ hwaited hdata hbuf' =>
    exact .sends _ (hwaited.trans hbuf) (by rw [hdata, h.data]) hbuf'

theorem before (h : Moves ktpd ktpd' isStderr printed read) (h' : Aside ktpd' ktpd'') :
    Moves ktpd ktpd'' isStderr printed read := by
  cases h with
  | waits hdata hbuf =>
    exact .waits ((h'.data isStderr).trans hdata) ((h'.buf isStderr).trans hbuf)
  | sends _ hwaited hdata hbuf =>
    refine .sends _ hwaited (by rw [h'.data, hdata]) (List.sublist_nil.mp ?_)
    rw [← hbuf]
    exact h'.buf isStderr

end Moves

theorem receive_moves (ktpd : Ktpd env) (sys : KtpdSys) (fd : Fd) (isStderr isStderr' : Bool)
    (printed : Bytes) : Moves ktpd (ktpd.receive sys fd isStderr) isStderr' printed
      (if ktpd.exec.isSome = true ∧ isStderr' = isStderr then
        ktpd.readFd sys (some fd) isStderr' else []) := by
  unfold receive
  split
  · rename_i hexec
    rw [hexec, if_neg (by simp)]
    exact .of_aside (.refl ktpd)
  · rename_i exec hexec
    obtain ⟨hdata, hbuf⟩ := getStream_data ktpd sys exec (some fd) isStderr isStderr'
    rw [hexec]
    by_cases heq : isStderr' = isStderr
    · subst heq
      rw [if_pos rfl] at hdata hbuf
      rw [if_pos ⟨rfl, rfl⟩]
      refine .sends _ ?_ hdata ?_
      · rw [streamBuf_eq hexec]
        exact List.sublist_append_left _ _
      · rw [streamBuf_eq rfl, hbuf]
    · rw [if_neg heq] at hdata hbuf
      rw [if_neg fun h => heq h.2]
      refine .waits (by rw [hdata, List.append_nil]) ?_
      rw [streamBuf_eq rfl, streamBuf_eq hexec, hbuf]
      exact List.sublist_append_left _ _

theorem received_moves {revents : Revents} {isStderr' : Bool} (hwired : Wired ktpd)
    (hcallback : env.L.callbackOf ktpd.eloop fd = some (streamCallback isStderr)) :
    Moves ktpd (ktpd.received sys fd revents isStderr) isStderr' []
      (ktpd.reads (.poll fd revents, sys) isStderr') := by
  have hiff : streamCallback isStderr = streamCallback isStderr' ↔ isStderr' = isStderr := by
    cases isStderr <;> cases isStderr' <;> decide
  have hpushed := pushed_aside hwired sys fd revents
  unfold received reads
  dsimp only
  simp only [hcallback, Option.some.injEq, hiff]
  cases hpollin : revents.pollin with
  | true =>
    have h := receive_moves (ktpd.pushed sys fd revents) sys fd isStderr isStderr' []
    rw [(pushed_silent ktpd sys fd revents).exec] at h
    simpa using h.after hpushed
  | false => simpa using Moves.of_aside hpushed

/-- `get_stream` does not pause the stream, or it does while the queue is full. -/
theorem receive_calm (hwired : Wired ktpd) (sys : KtpdSys) (fd : Fd) (isStderr : Bool) :
    Calm ktpd (ktpd.receive sys fd isStderr) ∨
      bufLimit < sys.obufLen ∧ (sys.stalls = true → Armed (ktpd.receive sys fd isStderr)) ∧
        ∃ msg, (ktpd.receive sys fd isStderr).toClient = ktpd.toClient ++ [msg] := by
  unfold receive
  split
  · exact .inl (.refl ktpd)
  · rename_i exec hexec
    have hfd : ∀ (e : env.L.State) (toClient : List KtpMsg) (exec' : KtpdExec),
        exec'.toKexec = exec.toKexec → ∀ isStderr',
          ({ ktpd with eloop := e, toClient, exec := some exec' } : Ktpd env).streamFd isStderr' =
            ktpd.streamFd isStderr' := by
      intro e toClient exec' hkexec isStderr'
      rw [streamFd_eq rfl, streamFd_eq hexec, KtpdExec.stream, KtpdExec.stream, hkexec]
    obtain ⟨hsame, -⟩ := getStream_spec ktpd sys exec (some fd) isStderr
    have hkexec := hsame.toKexec
    unfold getStream at hkexec ⊢
    dsimp only at hkexec ⊢
    split
    · exact .inl (.of_spares hwired (.refl _) (hfd _ _ exec rfl))
    · rename_i hdata
      rw [if_neg hdata] at hkexec
      split
      · rename_i hlen
        refine .inr ⟨hlen, fun hstalls => ?_, _, rfl⟩
        unfold Armed Ktpd.send
        dsimp only
        rw [hstalls, if_pos rfl, EventLoop.polls_excludeFdEvent, EventLoop.polls_includeFdEvent,
          hwired.watched]
        simp
      · exact .inl (.of_spares hwired .sent (hfd _ _ _ hkexec))

theorem finishCommand_data (sys : KtpdSys) (ktpd : Ktpd env) (exec : KtpdExec) (retcode : ℤ)
    (isStderr : Bool) : streamData isStderr (ktpd.finishCommand sys exec retcode).toClient =
      streamData isStderr ktpd.toClient ++
        (exec.buf isStderr ++ ktpd.readFd sys (exec.stream isStderr) isStderr) := by
  unfold finishCommand
  dsimp only
  obtain ⟨hsame₁, -, out₁, hsends₁, -⟩ := getStream_spec ktpd sys exec exec.stdout false
  obtain ⟨hdata₁, hbuf₁⟩ := getStream_data ktpd sys exec exec.stdout false isStderr
  generalize ktpd.getStream sys exec exec.stdout false = out at *
  obtain ⟨hdata₂, -⟩ := getStream_data out.2 sys out.1 exec.stderr true isStderr
  generalize out.2.getStream sys out.1 exec.stderr true = err at *
  generalize hktpd₃ : ({ err.2 with
    eloop := delStream (delStream (delStream err.2.eloop exec.stdin) exec.stdout) exec.stderr } :
    Ktpd env) = ktpd₃
  obtain ⟨-, hsends₃⟩ := sessionLog_spec ktpd₃ sys err.1
  generalize ktpd₃.sessionLog sys err.1 = logged at *
  generalize hidle : ({ logged.kexecFree err.1 with exec := none, state := .idle } : Ktpd env) =
    idle
  obtain ⟨exit, exit', hdone⟩ := noteDone_spec idle {}
  rw [hdone]
  obtain ⟨-, ack, hsends₄, hcmd, -⟩ := sendAck_spec { idle with exit } sys
    (addRetcode (.preform .cmdAck { exit := exit' }) retcode) (logged.viewWasChanged err.1)
  have hack : ¬ IsStream ack := by
    rw [IsStream, hcmd]
    simp [addRetcode]
  have hlogged : idle.toClient = err.2.toClient := by
    rw [← hidle]
    show logged.toClient = _
    rw [hsends₃.toClient, List.append_nil, ← hktpd₃]
  rw [hsends₄.toClient, streamData_append, streamData_singleton hack, List.append_nil]
  show streamData isStderr idle.toClient = _
  rw [hlogged, hdata₂, hdata₁]
  cases isStderr
  · simp [KtpdExec.stream]
  · have hread : out.2.readFd sys exec.stderr true = ktpd.readFd sys exec.stderr true := by
      rw [readFd, hsends₁.sameFds, readFd]
    have hbuf : out.1.buf true = exec.buf true := hbuf₁
    simp [KtpdExec.stream, hread, hbuf]

section Streams

variable {e : env.L.State} {stream : Option Fd}

theorem watched_addStream {callback : KtpdCallback} :
    env.L.watched (addStream e stream callback) fd =
      (decide (stream = some fd) || env.L.watched e fd) := by
  cases stream with
  | none => rfl
  | some fd' => simp [addStream, eq_comm]

@[simp] theorem watched_pollStream :
    env.L.watched (pollStream e stream) fd = env.L.watched e fd := by
  cases stream with
  | none => rfl
  | some fd' => simp [pollStream]

theorem polls_pollStream :
    env.L.polls (pollStream e stream) fd .pollin =
      (env.L.polls e fd .pollin || (decide (stream = some fd) && env.L.watched e fd)) := by
  cases stream with
  | none => simp [pollStream]
  | some fd' =>
    by_cases h : fd' = fd
    · simp [pollStream, EventLoop.polls_includeFdEvent, h]
    · simp [pollStream, EventLoop.polls_includeFdEvent, h, Ne.symm h]

/-- `faux_eloop_include_fd_event` for both streams of a command. -/
theorem polls_streams {exec : KtpdExec} (hstream : exec.stream isStderr = some fd)
    (hwatched : env.L.watched e fd = true) :
    env.L.polls (pollStream (pollStream e exec.stdout) exec.stderr) fd .pollin = true := by
  rw [polls_pollStream, polls_pollStream, watched_pollStream, hwatched]
  cases isStderr
  · simp [show exec.stdout = some fd from hstream]
  · simp [show exec.stderr = some fd from hstream]

theorem addStreams_not_paused {exec : KtpdExec} (hexec : ktpd.exec = some exec) :
    ¬ (ktpd.addStreams exec).Paused fd := by
  rintro ⟨⟨isStderr, hfd⟩, -, hpollin⟩
  have hstream : exec.stream isStderr = some fd := by
    rw [← streamFd_eq hexec]
    exact hfd
  have hpolls : env.L.polls (ktpd.addStreams exec).eloop fd .pollin = true := by
    refine polls_streams hstream ?_
    rw [watched_addStream, watched_addStream]
    cases isStderr
    · simp [show exec.stdout = some fd from hstream]
    · simp [show exec.stderr = some fd from hstream]
  rw [hpolls] at hpollin
  cases hpollin

end Streams

theorem sendAck_aside (sys : KtpdSys) {ack : KtpMsg} (hack : ¬ IsStream ack) (hotkeys : Bool)
    (hexec : ktpd.exec = none) : Aside ktpd (ktpd.sendAck sys ack hotkeys) := by
  obtain ⟨-, msg, hsends, hcmd, -⟩ := sendAck_spec ktpd sys ack hotkeys
  refine .of_none (hsends.exec.trans hexec) hsends.toClient fun msg' hmsg' => ?_
  obtain rfl := List.mem_singleton.mp hmsg'
  rwa [IsStream, hcmd]

/-- A command that is over when it has been started has sent all that silent symbols printed. One
that goes on is read. -/
theorem sessionExec_moves {line : String} {dryRun : Bool} {r : ExecEnd env}
    (h : ktpd.sessionExec sys line dryRun = some r) (hexec : ktpd.exec = none)
    (isStderr : Bool) : Moves ktpd r.ktpd isStderr (sys.printed isStderr) [] ∧
      (r.ktpd.exec = none ∨ ∀ fd, ¬ r.ktpd.Paused fd) := by
  obtain ⟨forExec, -, rfl⟩ := Option.map_eq_some_iff.mp h
  dsimp only
  have hsession : Aside ktpd (ktpd.withSession forExec.session) := .of_eq rfl rfl rfl
  split
  · exact ⟨.of_aside hsession, .inl hexec⟩
  rename_i exec _
  split
  · exact ⟨.of_aside hsession, .inl hexec⟩
  rename_i kexec world hkexec
  split
  · generalize hstart : KtpdExec.mk kexec [] sys.printedOut sys.printedErr [] = exec
    generalize hworld : ({ ktpd.withSession forExec.session with world } : Ktpd env) = ktpd₁
    have hprinted : ∀ isStderr, exec.buf isStderr = sys.printed isStderr := by
      rw [← hstart]
      exact fun _ => rfl
    obtain ⟨-, -, out₁, hsends₁, -⟩ := getStream_spec ktpd₁ sys exec none false
    obtain ⟨hdata₁, hbuf₁⟩ := getStream_data ktpd₁ sys exec none false isStderr
    generalize ktpd₁.getStream sys exec none false = out at *
    obtain ⟨-, -, out₂, hsends₂, -⟩ := getStream_spec out.2 sys out.1 none true
    obtain ⟨hdata₂, -⟩ := getStream_data out.2 sys out.1 none true isStderr
    generalize out.2.getStream sys out.1 none true = err at *
    obtain ⟨-, hsends₃⟩ := sessionLog_spec err.2 sys err.1
    have hnone : ((err.2.sessionLog sys err.1).kexecFree err.1).exec = none := by
      show (err.2.sessionLog sys err.1).exec = none
      rw [hsends₃.exec, hsends₂.exec, hsends₁.exec, ← hworld]
      exact hexec
    refine ⟨.sends (sys.printed isStderr) (List.sublist_append_right _ _) ?_
      (streamBuf_of_none hnone), .inl hnone⟩
    show streamData isStderr (err.2.sessionLog sys err.1).toClient = _
    rw [hsends₃.toClient, List.append_nil, hdata₂, hdata₁, ← hworld]
    cases isStderr
    · simp [readFd, hprinted, withSession]
    · have hbuf : out.1.buf true = exec.buf true := hbuf₁
      simp [readFd, hbuf, hprinted, withSession]
  · refine ⟨.waits rfl ?_, .inr fun fd => addStreams_not_paused rfl⟩
    rw [addStreams, streamBuf_eq rfl]
    cases isStderr <;> exact List.sublist_append_right _ _

/-- Sending alone pauses no stream. -/
theorem send_not_paused (h : ∀ fd, ¬ ktpd.Paused fd) (sys : KtpdSys) (msg : KtpMsg) :
    ∀ fd, ¬ (ktpd.send sys msg).Paused fd := by
  rintro fd ⟨hstream, hwatched, hpollin⟩
  unfold Ktpd.send at hwatched hpollin
  dsimp only at hwatched hpollin
  refine h fd ⟨hstream, ?_, ?_⟩
  · split at hwatched
    · simpa using hwatched
    · exact hwatched
  · split at hpollin
    · rw [EventLoop.polls_includeFdEvent, Bool.or_eq_false_iff] at hpollin
      exact hpollin.1
    · exact hpollin

theorem processCmd_moves {msg : KtpMsg} (h : ktpd.processCmd sys msg = some ktpd')
    (hexec : ktpd.exec = none) (isStderr : Bool) :
    Moves ktpd ktpd' isStderr (sys.printed isStderr) [] ∧ ∀ fd, ¬ ktpd'.Paused fd := by
  have hself : { ktpd with exec := none } = ktpd := by
    rw [← hexec]
  unfold processCmd at h
  split at h
  · cases h
    have haside : Aside ktpd (ktpd.sendAck sys (.preform .cmdAck {}) false) :=
      sendAck_aside sys (by simp [IsStream]) false hexec
    exact ⟨.of_aside haside, fun fd hfd => not_paused_of_none hexec (haside.paused fd hfd)⟩
  · obtain ⟨r, hr, rfl⟩ := Option.map_eq_some_iff.mp h
    rw [hself] at hr
    obtain ⟨hmoves, hrest⟩ := sessionExec_moves hr hexec isStderr
    dsimp only
    split
    · rename_i exec hrunning
      have hpaused : ∀ fd, ¬ r.ktpd.Paused fd := hrest.resolve_left (by simp [hrunning])
      refine ⟨?_, send_not_paused hpaused sys _⟩
      refine hmoves.before ⟨.of_not_paused (send_not_paused hpaused sys _), fun _ => .refl _,
        fun isStderr => ?_⟩
      have hack : ¬ IsStream (incompletedAck env.scheme exec) := by
        simp [IsStream, incompletedAck]
      show streamData isStderr (r.ktpd.toClient ++ [incompletedAck env.scheme exec]) = _
      rw [streamData_append, streamData_singleton hack, List.append_nil]
    · rename_i hnone
      obtain ⟨exit, exit', hdone⟩ := noteDone_spec r.ktpd {}
      rw [hdone]
      have hexit : Aside r.ktpd { r.ktpd with exit } := .of_eq rfl rfl rfl
      suffices haside : Aside r.ktpd _ from ⟨hmoves.before haside, fun fd hfd =>
        not_paused_of_none hnone (haside.paused fd hfd)⟩
      refine hexit.trans (sendAck_aside sys ?_ _ hnone)
      split <;> simp [IsStream, addRetcode]

theorem Aside.of_answered {kind : KtpCmd} (h : Answered ktpd ktpd' kind) (hexec : ktpd.exec = none)
    (hkind : kind ≠ .cmdAck ∧ kind ≠ .stdout ∧ kind ≠ .stderr) : Aside ktpd ktpd' := by
  obtain ⟨out, ack, htoClient, -, hout, hcmd, -⟩ := h.toClient
  refine .of_none (h.exec.trans hexec) htoClient fun msg hmsg => ?_
  rw [hout hkind.1, List.nil_append, List.mem_singleton] at hmsg
  rw [hmsg, IsStream, hcmd]
  exact fun hstream => hstream.elim hkind.2.1 hkind.2.2

theorem dispatch_moves {msg : KtpMsg} (hwired : Wired ktpd)
    (h : ktpd.dispatch sys msg = some ktpd') :
    Calm ktpd ktpd' ∧ ∀ isStderr, Moves ktpd ktpd' isStderr (sys.printed isStderr) [] := by
  have hidle : ktpd.state = .idle → ktpd.exec = none := by
    intro hstate
    apply hwired.exec_none
    rw [hstate]
    decide
  have haside : ∀ {ktpd' : Ktpd env}, Aside ktpd ktpd' → Calm ktpd ktpd' ∧
      ∀ isStderr, Moves ktpd ktpd' isStderr (sys.printed isStderr) [] :=
    fun h => ⟨h.toCalm, fun _ => .of_aside h⟩
  cases dispatch_handler h with
  | auth hkind hstate =>
    have hne : ktpd.state ≠ .waitForProcess := by
      rcases hstate with hstate | hstate <;> rw [hstate] <;> decide
    exact haside (.of_answered (processAuth_answered hne) (hwired.exec_none hne) (by decide))
  | cmd hkind hstate h =>
    have hmoves := processCmd_moves h (hidle hstate)
    exact ⟨.of_not_paused (hmoves false).2, fun isStderr => (hmoves isStderr).1⟩
  | completion hkind hstate h =>
    exact haside (.of_answered (processCompletion_answered h) (hidle hstate) (by decide))
  | help hkind hstate h =>
    exact haside (.of_answered (processHelp_answered h) (hidle hstate) (by decide))
  | illegal r err => exact haside (.send hwired (by cases r <;> simp [IsStream, KtpRequest.ack]))
  | stdin => exact haside (.processStdin hwired sys msg)
  | stdinClose => exact haside (.processStdinClose hwired sys)
  | stdoutClose => exact haside (.of_closes hwired (processStdoutClose_closes ktpd))
  | stderrClose => exact haside (.of_closes hwired (processStderrClose_closes ktpd))
  | notification =>
    obtain ⟨session, hsession⟩ := processNotification_spec ktpd msg
    rw [hsession]
    exact haside (.of_eq rfl rfl rfl)
  | unsupported err => exact haside (.send hwired (by simp [IsStream]))
  | ignored => exact haside (.refl ktpd)

theorem reapChildren_moves (sys : KtpdSys) (ktpd : Ktpd env) (reports : List (Pid × WaitStatus)) :
    (∀ isStderr, (ktpd.reapChildren sys reports).streamFd isStderr = ktpd.streamFd isStderr) ∧
      ∀ isStderr, ((ktpd.reapChildren sys reports).streamBuf isStderr).Sublist
        (ktpd.streamBuf isStderr ++ sys.printed isStderr) := by
  cases hexec : ktpd.exec with
  | none =>
    obtain ⟨-, -, -, -, hnone, -⟩ := reapChildren_spec sys ktpd reports
    refine ⟨fun _ => ?_, fun _ => ?_⟩
    · rw [streamFd_of_none (hnone hexec).1, streamFd_of_none hexec]
    · rw [streamBuf_of_none (hnone hexec).1]
      exact List.nil_sublist _
  | some exec =>
    obtain ⟨-, hout, herr, -⟩ := reapLoop_spec env reports exec.toKexec ktpd.world
    unfold reapChildren
    rw [hexec]
    refine ⟨fun isStderr => ?_, fun isStderr => ?_⟩
    · rw [streamFd_eq rfl, streamFd_eq hexec]
      cases isStderr
      · exact hout
      · exact herr
    · rw [streamBuf_eq rfl, streamBuf_eq hexec]
      cases isStderr <;> exact .refl _

theorem waitForActionsEv_moves (hwired : Wired ktpd) (sys : KtpdSys)
    (reports : List (Pid × WaitStatus)) :
    Calm ktpd (ktpd.waitForActionsEv sys reports) ∧
      ∀ isStderr, Moves ktpd (ktpd.waitForActionsEv sys reports) isStderr (sys.printed isStderr)
        (ktpd.reads (.sigchld reports, sys) isStderr) := by
  obtain ⟨hfd, hbuf⟩ := reapChildren_moves sys ktpd reports
  obtain ⟨heloop, htoClient, -⟩ := reapChildren_spec sys ktpd reports
  unfold waitForActionsEv reads
  dsimp only
  generalize ktpd.reapChildren sys reports = reaped at *
  have hcalm : Calm ktpd reaped := .of_spares hwired (heloop ▸ .refl _) hfd
  cases hexec : reaped.exec with
  | none => exact ⟨hcalm, fun isStderr => .waits (by rw [htoClient]) (hbuf isStderr)⟩
  | some exec =>
    dsimp only
    cases hretcode : Kexec.kexecRetcode exec.toKexec with
    | none => exact ⟨hcalm, fun isStderr => .waits (by rw [htoClient]) (hbuf isStderr)⟩
    | some retcode =>
      have hidle := (finishCommand_spec sys reaped exec retcode).idle
      refine ⟨.of_none hidle, fun isStderr => .sends (exec.buf isStderr) ?_ ?_
        (streamBuf_of_none hidle)⟩
      · rw [← streamBuf_eq hexec]
        exact hbuf isStderr
      · rw [finishCommand_data, htoClient]
        rfl

/-- What a callback makes of the output, when it does not write to the client's socket itself. -/
inductive Backs (sys : KtpdSys) (ktpd : Ktpd env) : Event → Ktpd env → Prop
  | calm {event : Event} {ktpd' : Ktpd env} (h : Calm ktpd ktpd') : Backs sys ktpd event ktpd'
  | full {fd : Fd} {revents : Revents} {ktpd' : Ktpd env} {msg : KtpMsg}
      (hlen : bufLimit < sys.obufLen) (harmed : sys.stalls = true → Armed ktpd')
      (htoClient : ktpd'.toClient = ktpd.toClient ++ [msg]) :
      Backs sys ktpd (.poll fd revents) ktpd'

theorem Backs.unwatched {event : Event} (h : Backs sys ktpd event ktpd') (hwired : Wired ktpd')
    (hfd : fd ≠ env.clientFd) (failed : Bool) :
    Backs sys ktpd event (ktpd'.unwatched fd failed) := by
  cases h with
  | calm h => exact .calm (h.trans (Aside.unwatched hwired hfd failed).toCalm)
  | full hlen harmed htoClient =>
    unfold Ktpd.unwatched
    split
    · exact .full hlen (fun hstalls => (Spares.delFd hfd).pollout (harmed hstalls)) htoClient
    · exact .full hlen harmed htoClient

theorem received_backs {revents : Revents} {isStderr : Bool} (hwired : Wired ktpd) :
    Backs sys ktpd (.poll fd revents) (ktpd.received sys fd revents isStderr) := by
  have hpushed := pushed_aside hwired sys fd revents
  have hpushedWired : Wired (ktpd.pushed sys fd revents) := hwired.pushed
  unfold received
  split
  · rcases receive_calm hpushedWired sys fd isStderr with
      h | ⟨hlen, harmed, msg, htoClient⟩
    · exact .calm (hpushed.toCalm.trans h)
    · rw [(pushed_silent ktpd sys fd revents).toClient] at htoClient
      exact .full hlen harmed htoClient
  · exact .calm hpushed.toCalm

/-- The client's socket has been written. Streams are read again when the queue is short, and
POLLOUT stays armed while it is not empty. -/
theorem clientOut_written (hwired : Wired ktpd) (sys : KtpdSys) :
    (sys.obufLen < bufLimit → ∀ fd, ¬ (ktpd.clientOut sys).Paused fd) ∧
      (0 < sys.obufLen → Armed (ktpd.clientOut sys)) := by
  have hout : ∀ off on : env.L.State, env.L.polls on env.clientFd .pollout = true → ∃ e,
      (if 0 < sys.obufLen then ({ ktpd with eloop := on } : Ktpd env)
        else { ktpd with eloop := off }) = { ktpd with eloop := e } ∧
      (0 < sys.obufLen → env.L.polls e env.clientFd .pollout = true) := by
    intro off on hon
    split
    · exact ⟨on, rfl, fun _ => hon⟩
    · rename_i hlen
      exact ⟨off, rfl, fun h => absurd h hlen⟩
  obtain ⟨e, heq, harmed⟩ := hout
    (env.L.excludeFdEvent ktpd.eloop env.clientFd .pollout)
    (env.L.includeFdEvent (env.L.excludeFdEvent ktpd.eloop env.clientFd .pollout)
      env.clientFd .pollout) (by
        rw [EventLoop.polls_includeFdEvent, EventLoop.watched_excludeFdEvent, hwired.watched]
        simp)
  unfold clientOut
  dsimp only
  rw [heq]
  dsimp only
  cases hexec : ktpd.exec with
  | none => exact ⟨fun _ fd => not_paused_of_none rfl, harmed⟩
  | some exec =>
    dsimp only
    split
    · refine ⟨fun _ fd => ?_, fun hlen =>
        (Spares.trans .pollStream .pollStream).pollout (harmed hlen)⟩
      rintro ⟨⟨isStderr, hfd⟩, hwatched, hpollin⟩
      rw [streamFd_eq rfl] at hfd
      dsimp only at hwatched hpollin
      rw [watched_pollStream, watched_pollStream] at hwatched
      rw [polls_streams hfd hwatched] at hpollin
      cases hpollin
    · rename_i hlen
      exact ⟨fun hshort => absurd hshort hlen, harmed⟩

theorem step_backs {event : Event} (hwired : Wired ktpd)
    (h : ktpd.step (event, sys) = some ktpd') (hwrites : ktpd.writes event = false) :
    Backs sys ktpd event ktpd' := by
  cases event with
  | dispatch msg => exact .calm (dispatch_moves hwired h).1
  | sigchld reports =>
    cases h
    exact .calm (waitForActionsEv_moves hwired sys reports).1
  | poll fd revents =>
    rcases poll_cases h with ⟨isStderr, hcallback, rfl⟩ | ⟨hcallback, -, rfl⟩
    · have hfd := hwired.stream_ne hcallback
      exact (received_backs hwired).unwatched ((Kept.received hfd).wired hwired.pushed) hfd _
    · have hpollout : revents.pollout = false := by simpa [writes, hcallback] using hwrites
      rw [hpollout]
      exact .calm (.refl ktpd)

theorem step_writes {event : Event} (h : ktpd.step (event, sys) = some ktpd')
    (hwrites : ktpd.writes event = true) :
    (∃ fd revents, event = .poll fd revents) ∧ ktpd' = ktpd.clientOut sys := by
  cases event with
  | dispatch | sigchld => cases hwrites
  | poll fd revents =>
    refine ⟨⟨fd, revents, rfl⟩, ?_⟩
    simp only [writes, Bool.and_eq_true, decide_eq_true_eq] at hwrites
    rcases poll_cases h with ⟨isStderr, hcallback, -⟩ | ⟨-, -, rfl⟩
    · have heq := Option.some.inj (hwrites.2.symm.trans hcallback)
      cases isStderr <;> cases heq
    · rw [hwrites.1, if_pos rfl]

/-- The bytes of a stream that is read are sent in the same callback. -/
theorem step_moves {event : Event × KtpdSys} (hwired : Wired ktpd)
    (h : ktpd.step event = some ktpd') (isStderr : Bool) :
    Moves ktpd ktpd' isStderr (prints event isStderr) (ktpd.reads event isStderr) := by
  obtain ⟨event, sys⟩ := event
  cases event with
  | dispatch msg => exact (dispatch_moves hwired h).2 isStderr
  | sigchld reports =>
    cases h
    exact (waitForActionsEv_moves hwired sys reports).2 isStderr
  | poll fd revents =>
    rcases poll_cases h with ⟨isStderr', hcallback, rfl⟩ | ⟨hcallback, -, rfl⟩
    · have hfd := hwired.stream_ne hcallback
      exact (received_moves hwired hcallback).before
        (.unwatched ((Kept.received hfd).wired hwired.pushed) hfd _)
    · have hnone : ktpd.reads (.poll fd revents, sys) isStderr = [] := by
        unfold reads
        cases isStderr <;> simp [hcallback, streamCallback]
      rw [hnone]
      split
      · obtain ⟨eloop, heq, -⟩ := clientOut_spec sys ktpd
        rw [heq]
        exact .waits rfl (List.sublist_append_left _ _)
      · exact .of_aside (.refl ktpd)

end Ktpd

end Klish
