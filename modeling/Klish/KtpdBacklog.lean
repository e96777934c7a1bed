import Klish.KtpdOutput

/-!
# Output that waits for the client

A stream of a command is not read while too many bytes wait for the client, and is read again when
the client has taken enough of them. A message that is sent is added to the bytes that wait, and as
many as the socket takes are written at once.
-/

namespace Klish

/-- The session and its output queue, with what went into the buffers of the streams. -/
structure Backlog (env : KtpdEnv) where
  ktpd : Ktpd env
  /-- The number of bytes in the queue. -/
  queue : ℕ
  /-- The last write was the one for a message that was sent, and left nothing in the queue. -/
  emptied : Bool
  read : Bool → Bytes
  printed : Bool → Bytes

namespace Backlog

open Ktpd

variable {env : KtpdEnv} (size : KtpMsg → ℕ)

structure Event where
  event : Ktpd.Event
  sys : KtpdSys
  /-- The number of bytes that each write to the client takes. -/
  taken : List ℕ

/-- The queue after each of the messages sent, with the bytes that are taken for each. -/
def sendAll : ℕ → List KtpMsg → List ℕ → List ℕ
  | _, [], _ => []
  | queue, msg :: msgs, taken =>
    let left := queue + size msg - taken.headD 0
    left :: sendAll left msgs taken.tail

/-- What the callback is told of the queue. -/
def Told (e : Event) (queues : List ℕ) (queue : ℕ) : Prop :=
  (queues ≠ [] → e.sys.stalls = queues.any (0 < ·)) ∧
    match e.event with
    | .poll .. => e.sys.obufLen = queue
    | .dispatch _ | .sigchld _ => True

instance (e : Event) (queues : List ℕ) (queue : ℕ) : Decidable (Told e queues queue) := by
  unfold Told
  cases e.event <;> infer_instance

/-- The queue after each message of a callback. -/
def queues (s : Backlog env) (e : Event) (ktpd : Ktpd env) : List ℕ :=
  sendAll size s.queue (ktpd.toClient.drop s.ktpd.toClient.length) e.taken

/-- The queue after a callback. It is written when a message is sent and when the socket can be
written. -/
def left (s : Backlog env) (e : Event) (ktpd : Ktpd env) : ℕ :=
  if s.ktpd.writes e.event then s.queue - e.taken.headD 0
  else (s.queues size e ktpd).getLastD s.queue

def after (s : Backlog env) (e : Event) (ktpd : Ktpd env) : Backlog env where
  ktpd := ktpd
  queue := s.left size e ktpd
  emptied := !s.ktpd.writes e.event &&
    if (s.queues size e ktpd).isEmpty then s.emptied else s.left size e ktpd == 0
  read isStderr := s.read isStderr ++ s.ktpd.reads (e.event, e.sys) isStderr
  printed isStderr := s.printed isStderr ++ prints (e.event, e.sys) isStderr

/-- One callback. -/
def step (s : Backlog env) (e : Event) : Option (Backlog env) :=
  (s.ktpd.step (e.event, e.sys)).bind fun ktpd =>
    if Told e (s.queues size e ktpd) (s.left size e ktpd) then some (s.after size e ktpd) else none

/-- A new session, whose queue is empty. -/
def new (eloop : env.L.State) (world : World) : Backlog env where
  ktpd := .new eloop world
  queue := 0
  emptied := false
  read _ := []
  printed _ := []

/-- The messages of a stream carry what was read from it in order, and each byte once. What else
they carry, and what waits in the buffer, was printed. -/
def Carries (read printed sent waiting : Bytes) : Prop :=
  ∃ marked : List (Bool × UInt8), marked.map Prod.snd = sent ∧
    (marked.filter fun p => p.1).map Prod.snd = read ∧
    ((marked.filter fun p => !p.1).map Prod.snd ++ waiting).Sublist printed

/-- A stream that is paused waits for the client, and what was read has been sent. -/
structure Law (s : Backlog env) : Prop where
  paused : ∀ fd, s.ktpd.Paused fd → Armed s.ktpd ∧ (0 < s.queue ∨ s.emptied = true)
  carries : ∀ isStderr, Carries (s.read isStderr) (s.printed isStderr)
    (streamData isStderr s.ktpd.toClient) (s.ktpd.streamBuf isStderr)

theorem Carries.nil : Carries [] [] [] [] := ⟨[], rfl, rfl, .refl _⟩

theorem Carries.wait {read printed sent waiting waiting' more : Bytes}
    (h : Carries read printed sent waiting) (hwaiting : waiting'.Sublist (waiting ++ more)) :
    Carries read (printed ++ more) sent waiting' := by
  obtain ⟨marked, hsent, hread, hprinted⟩ := h
  refine ⟨marked, hsent, hread, ?_⟩
  have hmore := ((List.Sublist.refl _).append hwaiting).trans
    (List.append_assoc _ waiting more ▸ hprinted.append (.refl more))
  exact hmore

theorem Carries.send {read printed sent waiting waited bytes more : Bytes}
    (h : Carries read printed sent waiting) (hwaited : waited.Sublist (waiting ++ more)) :
    Carries (read ++ bytes) (printed ++ more) (sent ++ (waited ++ bytes)) [] := by
  obtain ⟨marked, hsent, hread, hprinted⟩ := h.wait hwaited
  refine ⟨marked ++ (waited.map (Prod.mk false) ++ bytes.map (Prod.mk true)), ?_, ?_, ?_⟩
  · simp [hsent, Function.comp_def]
  · simp [hread, List.filter_map, Function.comp_def]
  · simpa [List.filter_map, Function.comp_def] using hprinted

variable {size} {s t : Backlog env} {e : Event}

theorem step_eq_some : step size s e = some t ↔ ∃ ktpd, s.ktpd.step (e.event, e.sys) = some ktpd ∧
    Told e (s.queues size e ktpd) (s.left size e ktpd) ∧ t = s.after size e ktpd := by
  unfold step
  rw [Option.bind_eq_some_iff]
  constructor
  · rintro ⟨ktpd, hktpd, h⟩
    obtain ⟨htold, ht⟩ := Option.ite_none_right_eq_some.mp h
    exact ⟨ktpd, hktpd, htold, (Option.some.inj ht).symm⟩
  · rintro ⟨ktpd, hktpd, htold, rfl⟩
    exact ⟨ktpd, hktpd, if_pos htold⟩

theorem step_carries (hwired : Wired s.ktpd) (hlaw : s.Law) (h : step size s e = some t)
    (isStderr : Bool) : Carries (t.read isStderr) (t.printed isStderr)
      (streamData isStderr t.ktpd.toClient) (t.ktpd.streamBuf isStderr) := by
  obtain ⟨ktpd, hktpd, -, rfl⟩ := step_eq_some.mp h
  have hcarries := hlaw.carries isStderr
  have hmoves := step_moves hwired hktpd isStderr
  unfold after
  dsimp only
  generalize s.ktpd.reads (e.event, e.sys) isStderr = bytes at hmoves
  cases hmoves with
  | waits hdata hbuf =>
    rw [hdata, List.append_nil]
    exact hcarries.wait hbuf
  | sends _ hwaited hdata hbuf =>
    rw [hdata, hbuf]
    exact hcarries.send hwaited

/-- After the socket has been written, a stream is paused only if the queue is still long. -/
theorem step_written (hwired : Wired s.ktpd) (h : step size s e = some t)
    (hwrites : s.ktpd.writes e.event = true) :
    (t.queue < bufLimit → ∀ fd, ¬ t.ktpd.Paused fd) ∧ (0 < t.queue → Armed t.ktpd) := by
  obtain ⟨ktpd, hktpd, htold, rfl⟩ := step_eq_some.mp h
  obtain ⟨⟨fd, revents, hevent⟩, hclient⟩ := step_writes hktpd hwrites
  have hobufLen := htold.2
  rw [hevent] at hobufLen
  have hwritten := clientOut_written hwired e.sys
  rw [← hclient, show e.sys.obufLen = s.left size e ktpd from hobufLen] at hwritten
  exact hwritten

/-- After a message has been sent, the queue is not empty or has just been emptied. -/
theorem after_queue {ktpd : Ktpd env} (hwrites : s.ktpd.writes e.event = false)
    (h : 0 < s.queue ∨ s.emptied = true) :
    0 < (s.after size e ktpd).queue ∨ (s.after size e ktpd).emptied = true := by
  unfold after left
  dsimp only
  rw [hwrites]
  cases hqueues : s.queues size e ktpd with
  | nil => simpa using h
  | cons first rest => simpa using Nat.eq_zero_or_pos _ |>.symm

theorem queues_one (size : KtpMsg → ℕ) (e : Event) {ktpd : Ktpd env} {msg : KtpMsg}
    (htoClient : ktpd.toClient = s.ktpd.toClient ++ [msg]) :
    s.queues size e ktpd = [s.queue + size msg - e.taken.headD 0] := by
  rw [queues, htoClient, List.drop_left]
  rfl

theorem left_one {ktpd : Ktpd env} {msg : KtpMsg} (hwrites : s.ktpd.writes e.event = false)
    (htoClient : ktpd.toClient = s.ktpd.toClient ++ [msg]) :
    s.left size e ktpd = s.queue + size msg - e.taken.headD 0 := by
  rw [left, hwrites, queues_one size e htoClient]
  rfl

theorem step_paused (hwired : Wired s.ktpd) (hlaw : s.Law) (h : step size s e = some t) {fd : Fd}
    (hpaused : t.ktpd.Paused fd) : Armed t.ktpd ∧ (0 < t.queue ∨ t.emptied = true) := by
  cases hwrites : s.ktpd.writes e.event with
  | true =>
    obtain ⟨hshort, harmed⟩ := step_written hwired h hwrites
    have hlen : bufLimit ≤ t.queue := Nat.le_of_not_lt fun hlen => hshort hlen fd hpaused
    have hpos : 0 < t.queue := Nat.lt_of_lt_of_le (by decide) hlen
    exact ⟨harmed hpos, .inl hpos⟩
  | false =>
    obtain ⟨ktpd, hktpd, htold, rfl⟩ := step_eq_some.mp h
    have hbacks := step_backs hwired hktpd hwrites
    generalize hevent : e.event = event at hbacks
    cases hbacks with
    | calm hcalm =>
      obtain ⟨harmed, hqueue⟩ := hlaw.paused fd (hcalm.paused fd hpaused)
      exact ⟨hcalm.armed fd hpaused harmed, after_queue hwrites hqueue⟩
    | full hlen harmed htoClient =>
      have hobufLen := htold.2
      rw [hevent] at hobufLen
      rw [show e.sys.obufLen = s.left size e ktpd from hobufLen] at hlen
      have hpos : 0 < s.left size e ktpd := Nat.zero_lt_of_lt hlen
      have hqueues := queues_one size e htoClient
      have hstalls := htold.1 (by simp [hqueues])
      rw [hqueues, ← left_one hwrites htoClient] at hstalls
      exact ⟨harmed (by simpa [hpos] using hstalls), .inl hpos⟩

theorem step_law (hwired : Wired s.ktpd) (hlaw : s.Law) (h : step size s e = some t) : t.Law :=
  ⟨fun _ => step_paused hwired hlaw h, step_carries hwired hlaw h⟩

theorem new_law (eloop : env.L.State) (world : World) : (new eloop world : Backlog env).Law :=
  ⟨fun _ h => absurd h (not_paused_of_none rfl), fun _ => .nil⟩

/-- A paused stream waits for a socket that is polled, and is read again when that has been written
and the queue is short. Bytes that are read are sent in order, and once. -/
theorem backpressure_law (size : KtpMsg → ℕ) (eloop : env.L.State) (world : World)
    (hnew : env.L.watched eloop env.clientFd = false) (hopen : env.clientFd ∈ world.fds)
    (events : List Event) (s : Backlog env)
    (hrun : Runs.run (step size) (new eloop world) events = some s) :
    s.Law ∧ ∀ e t, step size s e = some t → s.ktpd.writes e.event = true →
      t.queue < bufLimit → ∀ fd, ¬ t.ktpd.Paused fd := by
  have hinv : Wired s.ktpd ∧ s.Law := by
    refine Runs.run_invariant (I := fun s => Wired s.ktpd ∧ s.Law) ?_
      ⟨new_wired hnew hopen, new_law eloop world⟩ hrun
    rintro s e t ⟨hwired, hlaw⟩ h
    obtain ⟨ktpd, hktpd, -, ht⟩ := step_eq_some.mp h
    refine ⟨?_, step_law hwired hlaw h⟩
    rw [ht]
    exact step_wired hwired hktpd
  exact ⟨hinv.2, fun e t h hwrites => (step_written hinv.1 h hwrites).1⟩

/-- A header, and the parameters with their own headers. -/
def sampleSize (msg : KtpMsg) : ℕ :=
  msg.params.foldl (fun len param => len + (6 + param.2.length)) 16

/-- A system that tells that so many bytes are left. -/
def sampleTold (left : ℕ) : KtpdSys :=
  { sampleSys 0 with obufLen := left, stalls := decide (0 < left) }

/-- A command is started, and all that is sent is written at once. -/
def sampleStart : List Event :=
  Ktpd.sampleStart.map fun event => ⟨event.1, sampleTold 0, [100]⟩

/-- One read of the standard output, with nothing written to the client. -/
def sampleRead (data : Bytes) (queue : ℕ) : Event :=
  ⟨.poll 6 ⟨true, false, false⟩, { sampleTold (queue + (22 + data.length)) with readOut := data },
    []⟩

/-- The socket takes so many bytes of the queue. -/
def sampleWrite (queue taken : ℕ) : Event :=
  ⟨.poll 3 ⟨false, true, false⟩, sampleTold (queue - taken), [taken]⟩

/-- A message that is sent, and what it leaves in the queue. -/
theorem step_sent (size : KtpMsg → ℕ) (e : Event) {ktpd : Ktpd env} {msg : KtpMsg}
    (h : s.ktpd.step (e.event, e.sys) = some ktpd)
    (htoClient : ktpd.toClient = s.ktpd.toClient ++ [msg])
    (hwrites : s.ktpd.writes e.event = false)
    (hstalls : e.sys.stalls = decide (0 < s.queue + size msg - e.taken.headD 0))
    (hobufLen : e.sys.obufLen = s.queue + size msg - e.taken.headD 0) :
    ∃ t, step size s e = some t ∧ t.ktpd = ktpd ∧
      t.queue = s.queue + size msg - e.taken.headD 0 := by
  refine ⟨s.after size e ktpd, step_eq_some.mpr ⟨ktpd, h, ⟨fun _ => ?_, ?_⟩, rfl⟩, rfl,
    left_one hwrites htoClient⟩
  · rw [queues_one size e htoClient, hstalls]
    simp
  · cases e.event with
    | poll fd revents => exact hobufLen.trans (left_one hwrites htoClient).symm
    | dispatch msg => trivial
    | sigchld reports => trivial

/-- What a read of the standard output does. -/
theorem receive_data {ktpd : Ktpd env} {exec : KtpdExec} {fd : Fd} (sys : KtpdSys)
    (hexec : ktpd.exec = some exec) (hopen : fd ∈ ktpd.world.fds) (hbuf : exec.bufout = [])
    (hread : sys.readOut ≠ []) : ktpd.receive sys fd false =
      { ktpd.send sys (streamMsg sys.readOut false) with
        eloop :=
          if bufLimit < sys.obufLen then
            env.L.excludeFdEvent (ktpd.send sys (streamMsg sys.readOut false)).eloop fd .pollin
          else (ktpd.send sys (streamMsg sys.readOut false)).eloop
        exec := some (emptyStream exec false) } := by
  have hdata : ktpd.readStream sys exec (some fd) false = sys.readOut := by
    simp [readStream, hopen, hbuf]
  unfold receive
  rw [hexec]
  dsimp only
  unfold getStream
  dsimp only
  rw [hdata, if_neg (by simpa using hread)]

/-- The command is running, and its standard output is in the loop. -/
structure Flows (s : Backlog sampleEnv) : Prop where
  busy : s.ktpd.state = .waitForProcess
  exec : ∃ exec, s.ktpd.exec = some exec ∧ exec.stdout = some 6 ∧ exec.bufout = []
  isOpen : 6 ∈ s.ktpd.world.fds
  stream : sampleEnv.L.callbackOf s.ktpd.eloop 6 = some .actionStdout
  client : sampleEnv.L.callbackOf s.ktpd.eloop 3 = some .client

/-- A stream that is not read any more is paused. -/
theorem Flows.paused {s : Backlog sampleEnv} (h : Flows s)
    (hpolls : sampleEnv.L.polls s.ktpd.eloop 6 .pollin = false) : s.ktpd.Paused 6 := by
  obtain ⟨exec, hexec, hstdout, -⟩ := h.exec
  refine ⟨⟨false, ?_⟩, EventLoop.watched_of_callbackOf h.stream, hpolls⟩
  rw [streamFd, hexec]
  exact hstdout

/-- The bytes of a read are queued, and the stream is paused when there are too many. -/
theorem Flows.read {s : Backlog sampleEnv} (h : Flows s)
    (hpolls : sampleEnv.L.polls s.ktpd.eloop 6 .pollin = true) {data : Bytes} (hne : data ≠ []) :
    ∃ t, step sampleSize s (sampleRead data s.queue) = some t ∧ Flows t ∧
      t.queue = s.queue + (22 + data.length) ∧
      sampleEnv.L.polls t.ktpd.eloop 6 .pollin = decide (t.queue ≤ bufLimit) := by
  obtain ⟨exec, hexec, hstdout, hbufout⟩ := h.exec
  have hsize : sampleSize (streamMsg data false) = 22 + data.length := by
    simp [sampleSize, streamMsg, KtpMsg.addParam, KtpMsg.preform]
    omega
  generalize hsys : (sampleRead data s.queue).sys = sys
  have hreadOut : sys.readOut = data := by rw [← hsys]; rfl
  have hobufLen : sys.obufLen = s.queue + (22 + data.length) := by rw [← hsys]; rfl
  have hstalls : sys.stalls = true := by
    rw [← hsys]
    exact decide_eq_true (Nat.lt_add_left _ (Nat.lt_add_right _ (by decide)))
  have hpos : 0 < s.queue + (22 + data.length) - 0 := by omega
  have hreceive := receive_data sys hexec h.isOpen hbufout (hreadOut ▸ hne)
  rw [hreadOut] at hreceive
  obtain ⟨w, hw, hcallback⟩ := Option.map_eq_some_iff.mp h.stream
  have hpoll : s.ktpd.step (.poll 6 ⟨true, false, false⟩, sys) =
      some (s.ktpd.receive sys 6 false) := by
    simp only [Ktpd.step, hpolls, hw, hcallback]
    rfl
  obtain ⟨t, ht, htktpd, htqueue⟩ := step_sent sampleSize (sampleRead data s.queue)
    (by rw [hsys]; exact hpoll) (by rw [hreceive]; rfl) (by simp [sampleRead, writes])
    (by rw [hsys, hstalls, hsize]; exact (decide_eq_true hpos).symm)
    (by rw [hsys, hobufLen, hsize]; exact (Nat.sub_zero _).symm)
  have hqueue : t.queue = s.queue + (22 + data.length) := by
    rw [htqueue, hsize]
    rfl
  have heloop : t.ktpd.eloop = if bufLimit < sys.obufLen then
      sampleEnv.L.excludeFdEvent (s.ktpd.send sys (streamMsg data false)).eloop 6 .pollin
      else (s.ktpd.send sys (streamMsg data false)).eloop := by rw [htktpd, hreceive]
  refine ⟨t, ht, ⟨?_, ⟨emptyStream exec false, ?_, hstdout, rfl⟩, ?_, ?_, ?_⟩, hqueue, ?_⟩
  · rw [htktpd, hreceive]
    exact h.busy
  · rw [htktpd, hreceive]
  · rw [htktpd, hreceive]
    exact h.isOpen
  · rw [heloop]
    split <;> simp [Ktpd.send, hstalls, h.stream]
  · rw [heloop]
    split <;> simp [Ktpd.send, hstalls, h.client]
  · rw [heloop, hqueue, ← hobufLen]
    split
    · rename_i hfull
      rw [EventLoop.polls_excludeFdEvent]
      simpa using hfull
    · rename_i hfull
      simp only [Ktpd.send, hstalls, if_true, EventLoop.polls_includeFdEvent, hpolls, Bool.true_or]
      simpa using hfull

/-- The socket takes a part of the queue. -/
theorem Flows.write {s : Backlog sampleEnv} (h : Flows s) (harmed : Armed s.ktpd) (taken : ℕ) :
    ∃ t, step sampleSize s (sampleWrite s.queue taken) = some t ∧
      s.ktpd.writes (sampleWrite s.queue taken).event = true ∧ t.queue = s.queue - taken := by
  obtain ⟨w, hw, hcallback⟩ := Option.map_eq_some_iff.mp h.client
  have hwrites : s.ktpd.writes (sampleWrite s.queue taken).event = true := by
    simp [sampleWrite, writes, h.client]
  generalize hsys : sampleTold (s.queue - taken) = sys
  have hpoll : s.ktpd.step (.poll 3 ⟨false, true, false⟩, sys) = some (s.ktpd.clientOut sys) := by
    have harmed : sampleEnv.L.polls s.ktpd.eloop 3 .pollout = true := harmed
    simp only [Ktpd.step, harmed, hw, hcallback]
    rfl
  obtain ⟨eloop, heq, -⟩ := clientOut_spec sys s.ktpd
  have hqueues : s.queues sampleSize (sampleWrite s.queue taken) (s.ktpd.clientOut sys) = [] := by
    rw [queues, heq]
    simp [sendAll]
  have hleft : s.left sampleSize (sampleWrite s.queue taken) (s.ktpd.clientOut sys) =
      s.queue - taken := by
    rw [left, if_pos hwrites]
    rfl
  refine ⟨s.after sampleSize (sampleWrite s.queue taken) (s.ktpd.clientOut sys),
    step_eq_some.mpr ⟨_, ?_, ⟨fun hne => absurd hqueues hne, ?_⟩, rfl⟩, hwrites, hleft⟩
  · rw [show (sampleWrite s.queue taken).sys = sys from hsys]
    exact hpoll
  · exact hleft.symm

/-- Three reads of the standard output. -/
def sampleReads (data : Bytes) : List Event :=
  sampleStart ++ [sampleRead data 0, sampleRead data (22 + data.length),
    sampleRead data (22 + data.length + (22 + data.length))]

/-- The first two reads leave room in the queue, and the third one pauses the stream. -/
theorem reads_pause {data : Bytes} (hfits : 22 + data.length + (22 + data.length) ≤ bufLimit)
    (hfull : bufLimit < 3 * (22 + data.length)) : ∃ s : Backlog sampleEnv,
    Runs.run (step sampleSize) (new (fun _ => none) sampleWorld) (sampleReads data) = some s ∧
      Flows s ∧ s.queue = 3 * (22 + data.length) ∧ s.ktpd.Paused 6 := by
  have hne : data ≠ [] := by
    rintro rfl
    exact absurd hfull (by decide)
  have hstart : (Runs.run (step sampleSize) (new (fun _ => none) sampleWorld : Backlog sampleEnv)
      sampleStart).map (fun s => (s.queue, s.ktpd.state, s.ktpd.exec.map fun exec => (exec.stdout,
        exec.bufout), decide (6 ∈ s.ktpd.world.fds), sampleEnv.L.callbackOf s.ktpd.eloop 6,
        sampleEnv.L.callbackOf s.ktpd.eloop 3, sampleEnv.L.polls s.ktpd.eloop 6 .pollin)) =
      some (0, .waitForProcess, some (some 6, []), true, some .actionStdout, some .client, true) :=
    rfl
  obtain ⟨s₀, hs₀, hstart⟩ := Option.map_eq_some_iff.mp hstart
  simp only [Prod.mk.injEq, decide_eq_true_eq, Option.map_eq_some_iff] at hstart
  obtain ⟨hqueue₀, hstate, ⟨exec, hexec, hstdout, hbufout⟩, hopen, hstream, hclient, hpolls₀⟩ :=
    hstart
  have hflows₀ : Flows s₀ := ⟨hstate, ⟨exec, hexec, hstdout, hbufout⟩, hopen, hstream, hclient⟩
  obtain ⟨s₁, hs₁, hflows₁, hqueue₁, hpolls₁⟩ := hflows₀.read hpolls₀ hne
  rw [hqueue₀, Nat.zero_add] at hqueue₁
  obtain ⟨s₂, hs₂, hflows₂, hqueue₂, hpolls₂⟩ := hflows₁.read
    (by rw [hpolls₁, hqueue₁]; exact decide_eq_true (by omega)) hne
  rw [hqueue₁] at hqueue₂
  obtain ⟨s₃, hs₃, hflows₃, hqueue₃, hpolls₃⟩ := hflows₂.read
    (by rw [hpolls₂, hqueue₂]; exact decide_eq_true hfits) hne
  rw [hqueue₂] at hqueue₃
  rw [hqueue₀] at hs₁
  rw [hqueue₁] at hs₂
  rw [hqueue₂] at hs₃
  refine ⟨s₃, Runs.run_append.mpr ⟨s₀, hs₀, Runs.run_cons.mpr ⟨s₁, hs₁, Runs.run_cons.mpr
    ⟨s₂, hs₂, Runs.run_cons.mpr ⟨s₃, hs₃, Runs.run_nil⟩⟩⟩⟩, hflows₃, by omega, ?_⟩
  apply hflows₃.paused
  rw [hpolls₃, hqueue₃]
  exact decide_eq_false (by omega)

/-- The stream is paused by the third read, and is read again when the socket has taken a part. -/
theorem backpressure_law_sample : ∃ (data : Bytes) (s : Backlog sampleEnv),
    Runs.run (step sampleSize) (new (fun _ => none) sampleWorld) (sampleReads data) = some s ∧
    s.ktpd.Paused 6 ∧ s.Law ∧
    ∃ e t, step sampleSize s e = some t ∧ 0 < t.queue ∧ ∀ fd, ¬ t.ktpd.Paused fd := by
  generalize hdata : List.replicate 30000 (97 : UInt8) = data
  have hlen : data.length = 30000 := by rw [← hdata, List.length_replicate]
  obtain ⟨s, hs, hflows, hqueue, hpaused⟩ := @reads_pause data
    (by rw [hlen]; decide) (by rw [hlen]; decide)
  obtain ⟨hlaw, hresumes⟩ := @backpressure_law sampleEnv sampleSize _ _ rfl (by decide) _ _ hs
  obtain ⟨t, ht, hwrites, htqueue⟩ := hflows.write (hlaw.paused 6 hpaused).1 40000
  rw [hqueue, hlen] at htqueue
  refine ⟨data, s, hs, hpaused, hlaw, _, t, ht, by omega, ?_⟩
  exact hresumes _ t ht hwrites (by rw [htqueue]; decide)

/-- A stream may be paused while the queue is empty. More output than the queue should hold is
queued in a few reads, and then the answer to another message is written with all that waits. -/
theorem paused_with_empty_queue : ¬ ∀ (events : List Event) (s : Backlog sampleEnv),
    Runs.run (step sampleSize) (new (fun _ => none) sampleWorld) events = some s →
    ∀ fd, s.ktpd.Paused fd → Armed s.ktpd ∧ 0 < s.queue := by
  intro hall
  generalize hdata : List.replicate 30000 (97 : UInt8) = data
  have hlen : data.length = 30000 := by rw [← hdata, List.length_replicate]
  obtain ⟨t, hrun, hflows, hqueue, hpaused⟩ := @reads_pause data
    (by rw [hlen]; decide) (by rw [hlen]; decide)
  -- The answer to the next message is written at once, and the queue with it.
  generalize hanswer : KtpMsg.ofError .completionAck
    (some "Server illegal state for completion") = answer
  have hdispatch : t.ktpd.step (.dispatch (.preform .completion {}), sampleTold 0) =
      some (t.ktpd.send (sampleTold 0) answer) := by
    rw [← hanswer, Ktpd.step, dispatch]
    simp [hflows.busy]
  obtain ⟨u, hu, huktpd, huqueue⟩ := step_sent sampleSize
    ⟨.dispatch (.preform .completion {}), sampleTold 0, [t.queue + sampleSize answer]⟩
    hdispatch rfl rfl (by simp [sampleTold]) (by simp [sampleTold])
  have hpaused' : u.ktpd.Paused 6 := by
    rw [huktpd]
    exact ⟨hpaused.isStream, hpaused.watched, hpaused.pollin⟩
  have hpos := (hall _ u (Runs.run_append.mpr ⟨t, hrun, Runs.run_cons.mpr ⟨u, hu, Runs.run_nil⟩⟩)
    6 hpaused').2
  rw [huqueue, List.headD_cons, Nat.sub_self] at hpos
  cases hpos

end Backlog

end Klish
