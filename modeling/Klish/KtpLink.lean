import Klish.KtpdLoop
import Klish.Lib.Framing

/-!
# The connection of a server and a client

A message of the server is a number of bytes in its queue, then in the socket, and then in the
buffer of the client. How many bytes the socket takes and how many a read gives is up to the system.
-/

namespace Klish

/-- What `server_ev` finds. -/
structure ServerEvent where
  pollout : Bool
  pollin : Bool
  pollhup : Bool
  outFailed : Bool
  inFailed : Bool
  /-- The number of bytes that are read, if there are as many. -/
  size : ℕ
  /-- The external callbacks. -/
  callback : Ktp → KtpMsg → Ktp

/-- A server and its client. The connection is closed when the loop of the server has stopped. -/
structure KtpLink (env : KtpdEnv) where
  server : KtpdLoop env
  /-- The loop of the server was stopped because of the exit flag. -/
  exited : Bool
  /-- The number of bytes that the server's socket has taken. -/
  sent : ℕ
  ktp : Ktp
  stopOnAnswer : Bool
  /-- The socket is in the loop of the client. -/
  watched : Bool
  /-- `server_ev` has returned `BOOL_FALSE`. -/
  stopped : Bool
  /-- The loop of the client was stopped after the connection had been closed. -/
  hungUp : Bool
  reader : Reader UInt8
  /-- The number of bytes that the client has read. -/
  taken : ℕ
  /-- The messages that the client has dispatched. -/
  processed : List KtpMsg

namespace LoopEvent

/-- `client_ev` ends with an error or with the end of the connection. -/
def failed : LoopEvent → Bool
  | client event => (event.revents.pollout && event.outFailed) ||
      (event.revents.pollin && event.inFailed) || event.revents.failed
  | stream .. | sigchld .. => false

end LoopEvent

namespace ServerEvent

/-- The number of bytes that the event reads. Nothing is read after an error of the write. -/
def read (event : ServerEvent) : ℕ :=
  if event.pollout && event.outFailed then 0 else if event.pollin then event.size else 0

end ServerEvent

namespace KtpLink

variable {env : KtpdEnv} (F : Framing UInt8 KtpMsg) (link : KtpLink env)

inductive Event where
  /-- A callback of the server, and the room that the socket has for bytes meanwhile. -/
  | server (event : LoopEvent) (room : ℕ)
  | client (event : ServerEvent)
  /-- The program uses its session. -/
  | call (f : Ktp → Ktp)

/-- The messages that the server has sent. -/
def msgs : List KtpMsg := link.server.ktpd.toClient

/-- All bytes that the server has put into its queue. -/
def queued : List UInt8 := F.stream link.msgs

/-- The messages that a callback of the server sends. -/
def sends (event : LoopEvent) : List KtpMsg :=
  (link.server.step event).elim [] fun server => server.ktpd.toClient.drop link.msgs.length

/-- The bytes that wait in the queue of the server. -/
def waiting : ℕ := (link.queued F).length - link.sent

/-- The queue is written when a message is sent and when the socket can be written. -/
def room (event : LoopEvent) (room : ℕ) : ℕ :=
  let writes : Bool :=
    match event with
    | .client event => event.revents.pollout && !event.outFailed
    | _ => false
  if writes || !(link.sends event).isEmpty then room else 0

/-- A callback of the server. -/
def serve (event : LoopEvent) (room : ℕ) : Option (KtpLink env) :=
  (link.server.step event).map fun server =>
    { link with
      server
      exited := server.stopped && !event.failed
      sent := min (link.sent + link.room event room) (F.stream server.ktpd.toClient).length }

/-- The bytes of a read. -/
def readBytes (event : ServerEvent) : List UInt8 :=
  (((link.queued F).take link.sent).drop link.taken).take event.read

/-- The loop of the client is stopped. -/
def stop (watched : Bool) : KtpLink env :=
  { link with watched, stopped := true, hungUp := link.hungUp || link.server.stopped }

/-- The messages of a read are dispatched. -/
def dispatched (event : ServerEvent) (r : Reader UInt8 × List KtpMsg) : KtpLink env :=
  { link with
    ktp := r.2.foldl (fun ktp msg => event.callback (ktp.dispatch msg) msg) link.ktp
    reader := r.1
    taken := link.taken + (link.readBytes F event).length
    processed := link.processed ++ r.2 }

/-- `server_ev` -/
def serverEv (event : ServerEvent) : KtpLink env :=
  if event.pollout && event.outFailed then link.stop false
  else
    match F.feed link.reader (link.readBytes F event) with
    -- The header is broken.
    | none => link.stop false
    | some r =>
      let link := link.dispatched F event r
      if (event.pollin && event.inFailed) || event.pollhup then link.stop false
      else if (link.ktp.requestDone && link.stopOnAnswer) || link.ktp.done then link.stop true
      else link

/-- What happens to the connection. A hang-up is reported after the server has closed its socket. -/
def step (link : KtpLink env) (event : Event) : Option (KtpLink env) :=
  match event with
  | .server event room => link.serve F event room
  | .client event =>
    if link.stopped || !link.watched || (event.pollhup && !link.server.stopped) then none
    else some (link.serverEv F event)
  | .call f => some { link with ktp := f link.ktp }

/-- A new connection. -/
def new (eloop : env.L.State) (world : World) (ktp : Ktp) (stopOnAnswer : Bool) : KtpLink env where
  server := .new eloop world
  exited := false
  sent := 0
  ktp := ktp
  stopOnAnswer := stopOnAnswer
  watched := true
  stopped := false
  hungUp := false
  reader := ⟨none, []⟩
  taken := 0
  processed := []

/-- The server has an empty queue when it exits, and the client has processed all that was
delivered when it stops after the end of the connection. -/
structure NothingLost (link : KtpLink env) : Prop where
  server : link.exited = true → link.sent = (link.queued F).length
  client : link.hungUp = true → ∀ msgs, msgs <+: link.msgs →
    (F.stream msgs).length ≤ link.sent → msgs <+: link.processed

/-- The callback stops the loop of the server because of the exit flag. -/
def Exits (link : KtpLink env) (event : LoopEvent) : Prop :=
  event.failed = false ∧ ∃ server, link.server.step event = some server ∧ server.stopped = true

/-- In the callback that stops the server the socket takes the bytes that wait and those that are
sent, and the client reads all whole messages in the one that stops it after the connection is
closed. -/
def Drains (link : KtpLink env) : Event → Prop
  | .server event room => link.Exits event →
    link.waiting F + (F.stream (link.sends event)).length ≤ link.room event room
  | .client event => (link.serverEv F event).stopped = true → link.server.stopped = true →
    ∀ msgs, msgs <+: link.msgs → (F.stream msgs).length ≤ link.sent →
      (F.stream msgs).length ≤ link.taken + event.read
  | .call _ => True

variable {F} {link link' : KtpLink env}

theorem dispatchAll_toClient {ktpd ktpd' : Ktpd env} {handled handled' : List (Handled env)}
    {msgs : List (KtpMsg × KtpdSys)} (hwired : Ktpd.Wired ktpd)
    (h : KtpdLoop.dispatchAll (ktpd, handled) msgs = some (ktpd', handled')) :
    ktpd.toClient <+: ktpd'.toClient := by
  induction msgs generalizing ktpd handled with
  | nil =>
    cases h
    exact List.prefix_rfl
  | cons m msgs ih =>
    obtain ⟨mid, hmid, hrest⟩ := KtpdLoop.dispatchAll_cons.mp h
    obtain ⟨out, hout⟩ := Channel.dispatch_serves hwired.live hmid
    have hfirst : ktpd.toClient <+: mid.toClient := ⟨out, hout.toClient.symm⟩
    exact hfirst.trans (ih (KtpdLoop.dispatch_wired hwired hmid) hrest)

/-- Messages are only added. -/
theorem server_toClient {loop loop' : KtpdLoop env} {event : LoopEvent}
    (hrunning : KtpdLoop.Running loop) (h : loop.step event = some loop') :
    loop.ktpd.toClient <+: loop'.ktpd.toClient := by
  obtain ⟨hstopped, -, hread⟩ := KtpdLoop.goes_on hrunning h
  unfold KtpdLoop.step at h
  rw [hstopped, if_neg Bool.false_ne_true] at h
  split at h
  · rename_i event
    split at h
    · unfold KtpdLoop.clientEv at h
      split at h
      · cases h
        exact List.prefix_rfl
      · obtain ⟨r, hdispatch, rfl⟩ := Option.map_eq_some_iff.mp h
        have hwritten : (KtpdLoop.written loop.ktpd event).toClient = loop.ktpd.toClient := by
          unfold KtpdLoop.written
          split
          · exact (Channel.clientOut_silent event.sys loop.ktpd).toClient
          · rfl
        have hgrows := dispatchAll_toClient (KtpdLoop.written_readInv event hread).wired hdispatch
        rw [hwritten] at hgrows
        dsimp only
        split <;> exact hgrows
    · cases h
  · split at h
    · cases h
    · obtain ⟨ktpd, hktpd, rfl⟩ := Option.map_eq_some_iff.mp h
      obtain ⟨out, hout⟩ := Channel.step_serves hread.wired.live (by simp) hktpd
      exact ⟨out, hout.toClient.symm⟩
  · rename_i reports sys
    cases h
    obtain ⟨out, hout⟩ := Channel.waitForActionsEv_serves sys loop.ktpd reports hread.wired.live
    exact ⟨out, hout.toClient.symm⟩

/-- The bytes of the server after a callback. -/
theorem sends_spec {server : KtpdLoop env} {event : LoopEvent}
    (hrunning : KtpdLoop.Running link.server) (h : link.server.step event = some server) :
    server.ktpd.toClient = link.msgs ++ link.sends event := by
  obtain ⟨out, hout⟩ := server_toClient hrunning h
  have hsends : link.sends event = server.ktpd.toClient.drop link.msgs.length := by
    rw [sends, h, Option.elim_some]
  rw [hsends, ← hout]
  show link.msgs ++ out = link.msgs ++ (link.msgs ++ out).drop link.msgs.length
  rw [List.drop_left]

/-- All that is queued is written if the socket takes what waits and what is sent. -/
theorem drained_iff {server : KtpdLoop env} {event : LoopEvent}
    (hrunning : KtpdLoop.Running link.server) (hsent : link.sent ≤ (link.queued F).length)
    (h : link.server.step event = some server) (room : ℕ) :
    link.waiting F + (F.stream (link.sends event)).length ≤ room ↔
      (F.stream server.ktpd.toClient).length ≤ link.sent + room := by
  have hstream : (F.stream server.ktpd.toClient).length =
      (link.queued F).length + (F.stream (link.sends event)).length := by
    rw [sends_spec hrunning h, Framing.stream_append, List.length_append, queued]
  rw [hstream, waiting]
  omega

theorem stream_starts {msgs msgs' : List KtpMsg} (h : msgs <+: msgs') :
    F.stream msgs <+: F.stream msgs' := by
  obtain ⟨out, rfl⟩ := h
  exact ⟨F.stream out, Framing.stream_append.symm⟩

/-- The reader of the client has what was read and not processed. -/
structure Reads (F : Framing UInt8 KtpMsg) (link : KtpLink env) : Prop where
  awaits : ∃ rest, link.msgs = link.processed ++ rest ∧
    F.Awaits link.reader ((link.queued F).drop link.taken) rest
  idle : link.reader.buf.length < F.limit link.reader
  taken_le : link.taken ≤ link.sent
  sent_le : link.sent ≤ (link.queued F).length

/-- The bytes that were read are those of the processed messages and those in the reader. -/
theorem Reads.taken_eq (h : Reads F link) : link.taken =
    (F.stream link.processed).length + (link.reader.hdr.getD [] ++ link.reader.buf).length := by
  obtain ⟨rest, hmsgs, hawaits⟩ := h.awaits
  have hstream : (link.queued F).length =
      (F.stream link.processed).length + (F.stream rest).length := by
    rw [queued, hmsgs, Framing.stream_append, List.length_append]
  have htaken := h.taken_le
  have hsent := h.sent_le
  rw [← hawaits.stream] at hstream
  simp only [List.length_append, List.length_drop] at hstream ⊢
  omega

/-- The messages whose bytes have been read have been processed, and no others. -/
theorem Reads.processed_iff (h : Reads F link) {msgs : List KtpMsg} (hmsgs : msgs <+: link.msgs) :
    msgs <+: link.processed ↔ (F.stream msgs).length ≤ link.taken := by
  rw [h.taken_eq]
  constructor
  · intro hstarts
    exact Nat.le_add_right_of_le (stream_starts hstarts).length_le
  · intro hle
    obtain ⟨rest, heq, hawaits⟩ := h.awaits
    exact hawaits.prefix_of_le h.idle (heq ▸ hmsgs) hle

/-- What holds of the connection in every run. -/
structure LinkInv (F : Framing UInt8 KtpMsg) (link : KtpLink env) : Prop where
  running : KtpdLoop.Running link.server
  reads : Reads F link
  hungUp : link.hungUp = true → link.server.stopped = true
  law : NothingLost F link

/-- Sending and writing change nothing for the reader. -/
theorem Reads.serve (h : Reads F link) {event : LoopEvent} {room : ℕ} {server : KtpdLoop env}
    (hgrows : link.msgs <+: server.ktpd.toClient)
    (hfits : ∀ msg ∈ server.ktpd.toClient, F.Fits msg) (exited : Bool) :
    Reads F { link with
      server
      exited
      sent := min (link.sent + link.room event room) (F.stream server.ktpd.toClient).length } where
  awaits := by
    obtain ⟨out, hout⟩ := hgrows
    obtain ⟨rest, hmsgs, hawaits⟩ := h.awaits
    have htaken : link.taken ≤ (link.queued F).length := Nat.le_trans h.taken_le h.sent_le
    have hnew : ∀ msg ∈ out, F.Fits msg := fun msg hmsg =>
      hfits msg (hout ▸ List.mem_append_right _ hmsg)
    refine ⟨rest ++ out, ?_, ?_⟩
    · show server.ktpd.toClient = _
      rw [← hout, hmsgs, List.append_assoc]
    · show F.Awaits link.reader ((F.stream server.ktpd.toClient).drop link.taken) (rest ++ out)
      rw [← hout, Framing.stream_append]
      show F.Awaits link.reader ((link.queued F ++ F.stream out).drop link.taken) (rest ++ out)
      rw [List.drop_append_of_le_length htaken]
      exact hawaits.append hnew
  idle := h.idle
  taken_le := by
    have htaken := h.taken_le
    have hle : link.taken ≤ (F.stream server.ktpd.toClient).length :=
      Nat.le_trans htaken (Nat.le_trans h.sent_le (stream_starts hgrows).length_le)
    apply Nat.le_min.mpr
    exact ⟨Nat.le_trans htaken (Nat.le_add_right _ _), hle⟩
  sent_le := Nat.min_le_right _ _

/-- The number of bytes that a read gives. -/
theorem readBytes_spec (h : Reads F link) (event : ServerEvent) :
    (link.readBytes F event).length = min event.read (link.sent - link.taken) ∧
    (link.queued F).drop link.taken = link.readBytes F event ++
      (link.queued F).drop (link.taken + (link.readBytes F event).length) := by
  have hsent := h.sent_le
  have heq : link.readBytes F event =
      ((link.queued F).drop link.taken).take (min event.read (link.sent - link.taken)) := by
    unfold readBytes
    rw [List.drop_take, List.take_take]
  have hlength : (link.readBytes F event).length = min event.read (link.sent - link.taken) := by
    rw [heq, List.length_take, List.length_drop]
    omega
  refine ⟨hlength, ?_⟩
  rw [hlength, heq, ← List.drop_drop, List.take_append_drop]

/-- What one event of the client does to its reader. -/
structure Received (F : Framing UInt8 KtpMsg) (link : KtpLink env) (event : ServerEvent)
    (link' : KtpLink env) : Prop where
  reads : Reads F link'
  server : link'.server = link.server
  exited : link'.exited = link.exited
  sent : link'.sent = link.sent
  taken : link'.taken = link.taken + min event.read (link.sent - link.taken)
  hungUp : link'.hungUp = (link.hungUp || (link'.stopped && link.server.stopped))

theorem Reads.stop (h : Reads F link) (watched : Bool) : Reads F (link.stop watched) :=
  ⟨h.awaits, h.idle, h.taken_le, h.sent_le⟩

theorem serverEv_received (h : Reads F link) (event : ServerEvent) (hgoes : link.stopped = false) :
    Received F link event (link.serverEv F event) := by
  unfold serverEv
  by_cases hfailed : (event.pollout && event.outFailed) = true
  · rw [if_pos hfailed]
    refine ⟨h.stop false, rfl, rfl, rfl, ?_, ?_⟩
    · show link.taken = _
      rw [ServerEvent.read, if_pos hfailed]
      simp
    · simp [KtpLink.stop]
  · rw [if_neg hfailed]
    obtain ⟨rest, hmsgs, hawaits⟩ := h.awaits
    obtain ⟨hlength, hsplit⟩ := readBytes_spec h event
    rw [hsplit] at hawaits
    obtain ⟨reader, out, rest', hfeed, rfl, hawaits', hidle⟩ := Framing.feed_spec hawaits
    rw [hfeed]
    dsimp only
    generalize hread : link.dispatched F event (reader, out) = read
    have hreads : Reads F read := by
      subst hread
      refine ⟨⟨rest', ?_, hawaits'⟩, hidle, ?_, h.sent_le⟩
      · exact hmsgs.trans (List.append_assoc _ _ _).symm
      · have htaken := h.taken_le
        show link.taken + (link.readBytes F event).length ≤ link.sent
        omega
    have htaken : read.taken = link.taken + min event.read (link.sent - link.taken) := by
      rw [← hread, ← hlength]
      rfl
    have hstopped : read.stopped = false := by
      rw [← hread]
      exact hgoes
    have hsame : read.server = link.server ∧ read.exited = link.exited ∧ read.sent = link.sent ∧
        read.hungUp = link.hungUp := by
      rw [← hread]
      exact ⟨rfl, rfl, rfl, rfl⟩
    obtain ⟨hserver, hexited, hsent, hhungUp⟩ := hsame
    have hstop : ∀ watched, Received F link event (read.stop watched) := fun watched =>
      ⟨hreads.stop watched, hserver, hexited, hsent, htaken, by
        simp [KtpLink.stop, hserver, hhungUp]⟩
    split
    · exact hstop false
    · split
      · exact hstop true
      · exact ⟨hreads, hserver, hexited, hsent, htaken, by rw [hhungUp, hstopped]; simp⟩

/-- The messages of the server can all be sent, as far as its loop is in order. -/
def AllFit (F : Framing UInt8 KtpMsg) (link : KtpLink env) : Prop :=
  KtpdLoop.Running link.server → ∀ msg ∈ link.msgs, F.Fits msg

theorem serve_linkInv {event : LoopEvent} {room : ℕ} (hinv : LinkInv F link)
    (hfits : AllFit F link') (hdrains : Drains F link (.server event room))
    (h : link.serve F event room = some link') : LinkInv F link' := by
  obtain ⟨server, hstep, rfl⟩ := Option.map_eq_some_iff.mp h
  have hrunning := KtpdLoop.step_running event hinv.running hstep
  have hgoes := (KtpdLoop.goes_on hinv.running hstep).1
  have hgrows : link.msgs <+: server.ktpd.toClient := server_toClient hinv.running hstep
  have hhungUp : link.hungUp = false := by
    by_contra hhungUp
    rw [hinv.hungUp (by simpa using hhungUp)] at hgoes
    cases hgoes
  refine ⟨hrunning, hinv.reads.serve hgrows (hfits hrunning) _, fun h => ?_, fun h => ?_,
    fun h => ?_⟩
  · rw [hhungUp] at h
    cases h
  · obtain ⟨hstopped, hnot⟩ := Bool.and_eq_true_iff.mp h
    have hroom := hdrains ⟨by simpa using hnot, server, hstep, hstopped⟩
    exact Nat.min_eq_right ((drained_iff hinv.running hinv.reads.sent_le hstep _).mp hroom)
  · rw [hhungUp] at h
    cases h

theorem serverEv_linkInv {event : ServerEvent} (hinv : LinkInv F link)
    (hdrains : Drains F link (.client event)) (hgoes : link.stopped = false) :
    LinkInv F (link.serverEv F event) := by
  have hreceived := serverEv_received hinv.reads event hgoes
  generalize hlink : link.serverEv F event = after at *
  have hmsgs : after.msgs = link.msgs := congrArg (fun server => server.ktpd.toClient) hreceived.server
  have hqueued : after.queued F = link.queued F := by rw [queued, queued, hmsgs]
  refine ⟨hreceived.server ▸ hinv.running, hreceived.reads, fun hhungUp => ?_, fun hexited => ?_,
    fun hhungUp msgs hstarts hle => ?_⟩
  · rw [hreceived.hungUp, Bool.or_eq_true, Bool.and_eq_true] at hhungUp
    rw [hreceived.server]
    exact hhungUp.elim hinv.hungUp And.right
  · rw [hreceived.sent, hqueued]
    exact hinv.law.server (hreceived.exited ▸ hexited)
  · rw [hmsgs] at hstarts
    rw [hreceived.sent] at hle
    rw [hreceived.reads.processed_iff (hmsgs ▸ hstarts), hreceived.taken]
    rw [hreceived.hungUp, Bool.or_eq_true, Bool.and_eq_true] at hhungUp
    rcases hhungUp with hbefore | ⟨hstopped, hclosed⟩
    · have hprocessed := hinv.law.client hbefore msgs hstarts hle
      have htaken := (hinv.reads.processed_iff hstarts).mp hprocessed
      omega
    · have hread := hdrains (by rw [hlink]; exact hstopped) hclosed msgs hstarts hle
      omega

theorem step_linkInv (event : Event) (hinv : LinkInv F link) (hfits : AllFit F link')
    (hdrains : Drains F link event) (h : link.step F event = some link') : LinkInv F link' := by
  unfold step at h
  split at h
  · exact serve_linkInv hinv hfits hdrains h
  · split at h
    · cases h
    · rename_i hnot
      cases h
      have hgoes : link.stopped = false := by
        by_contra hstopped
        simp [hstopped] at hnot
      exact serverEv_linkInv hinv hdrains hgoes
  · cases h
    exact ⟨hinv.running, ⟨hinv.reads.awaits, hinv.reads.idle, hinv.reads.taken_le,
      hinv.reads.sent_le⟩, hinv.hungUp, ⟨hinv.law.server, hinv.law.client⟩⟩

theorem step_drains (event : Event) (hinv : LinkInv F link) (h : link.step F event = some link')
    (hlaw : NothingLost F link') : Drains F link event := by
  cases event with
  | server event room =>
    rintro ⟨hnot, server, hstep, hstopped⟩
    obtain ⟨server', hstep', rfl⟩ := Option.map_eq_some_iff.mp h
    obtain rfl : server = server' := Option.some.inj (hstep.symm.trans hstep')
    have hall : min (link.sent + link.room event room) _ =
        (F.stream server.ktpd.toClient).length := hlaw.server (by simp [hstopped, hnot])
    apply (drained_iff hinv.running hinv.reads.sent_le hstep _).mpr
    omega
  | client event =>
    intro hstopped hclosed msgs hstarts hle
    simp only [step] at h
    split at h
    · cases h
    · rename_i hnot
      cases h
      have hgoes : link.stopped = false := by
        by_contra hstopped
        simp [hstopped] at hnot
      have hreceived := serverEv_received hinv.reads event hgoes
      have hmsgs : (link.serverEv F event).msgs = link.msgs :=
        congrArg (fun server => server.ktpd.toClient) hreceived.server
      have hhungUp : (link.serverEv F event).hungUp = true := by
        rw [hreceived.hungUp, hstopped, hclosed]
        simp
      have hprocessed := hlaw.client hhungUp msgs (hmsgs ▸ hstarts) (hreceived.sent ▸ hle)
      have htaken := (hreceived.reads.processed_iff (hmsgs ▸ hstarts)).mp hprocessed
      rw [hreceived.taken] at htaken
      omega
  | call f => trivial

theorem step_allFit (event : Event) (h : link.step F event = some link')
    (hfits : AllFit F link') : AllFit F link := by
  intro hrunning msg hmsg
  cases event with
  | server event room =>
    obtain ⟨server, hstep, rfl⟩ := Option.map_eq_some_iff.mp h
    exact hfits (KtpdLoop.step_running event hrunning hstep) msg
      ((server_toClient hrunning hstep).subset hmsg)
  | client event =>
    simp only [step] at h
    split at h
    · cases h
    · cases h
      have hserver : (link.serverEv F event).server = link.server := by
        unfold serverEv
        split
        · rfl
        · split
          · rfl
          · dsimp only
            split
            · rfl
            · split <;> rfl
      have hfits := hfits (hserver ▸ hrunning) msg
      rw [msgs, hserver] at hfits
      exact hfits hmsg
  | call f =>
    cases h
    exact hfits hrunning msg hmsg

theorem new_linkInv {eloop : env.L.State} {world : World}
    (hnew : env.L.watched eloop env.clientFd = false) (hopen : env.clientFd ∈ world.fds) (ktp : Ktp)
    (stopOnAnswer : Bool) : LinkInv F (new eloop world ktp stopOnAnswer : KtpLink env) where
  running := (KtpdLoop.new_loopInv hnew hopen).running
  reads := ⟨⟨[], rfl, .new F⟩, F.hdrLen_pos, Nat.le_refl _, Nat.le_refl _⟩
  hungUp h := by cases h
  law := by
    constructor <;> intro h <;> cases h

/-- In a run of the connection nothing is lost at its end, exactly if the socket of the server and
the last read of the client take all there is. The messages are such that they can be sent. -/
theorem nothing_lost_iff {eloop : env.L.State} {world : World}
    (hnew : env.L.watched eloop env.clientFd = false) (hopen : env.clientFd ∈ world.fds)
    {ktp : Ktp} {stopOnAnswer : Bool} {events : List Event}
    (hrun : Runs.run (step F) (new eloop world ktp stopOnAnswer) events = some link)
    (hfits : ∀ msg ∈ link.msgs, F.Fits msg) :
    (∀ n t, Runs.run (step F) (new eloop world ktp stopOnAnswer) (events.take n) = some t →
        NothingLost F t) ↔
      Runs.Along (step F) (Drains F) (new eloop world ktp stopOnAnswer : KtpLink env) events :=
  Runs.forall_states_iff_along_of (I := LinkInv F) (G := AllFit F)
    (fun _ event _ h hfits => step_allFit event h hfits) (fun _ h => h.law)
    (fun _ event _ hinv hfits hdrains h => step_linkInv event hinv hfits hdrains h)
    (fun _ event _ hinv _ h hlaw => step_drains event hinv h hlaw)
    (new_linkInv hnew hopen ktp stopOnAnswer) hrun fun _ => hfits

def sampleCmds : List KtpCmd :=
  [.null, .stdin, .stdout, .stderr, .cmd, .cmdAck, .completion, .completionAck, .help, .helpAck,
    .notification, .auth, .authAck, .keepalive, .stdinClose, .stdoutClose, .stderrClose]

def sampleParams : List KtpParam :=
  [.null, .line, .prefx, .prompt, .hotkey, .winch, .error, .retcode]

def statusBits (status : KtpStatus) : List Bool :=
  [status.error, status.incompleted, status.ttyStdin, status.ttyStdout, status.ttyStderr,
    status.needStdin, status.interactive, status.dryRun, status.exit]

/-- Eleven bytes of header: the command, the bits of the status and the length. -/
def sampleEncode (msg : KtpMsg) : List UInt8 :=
  let body := msg.params.flatMap fun p =>
    UInt8.ofNat (sampleParams.idxOf p.1) :: UInt8.ofNat p.2.length :: p.2
  UInt8.ofNat (sampleCmds.idxOf msg.cmd) :: (statusBits msg.status).map (fun b => if b then 1 else 0) ++
    UInt8.ofNat (11 + body.length) :: body

/-- The parameters of a body. The counter is the number of its bytes. -/
def sampleBody : ℕ → List UInt8 → List (KtpParam × Bytes)
  | n + 1, type :: len :: bytes =>
    (sampleParams.getD type.toNat .null, bytes.take len.toNat) :: sampleBody n (bytes.drop len.toNat)
  | _, _ => []

def sampleDecode (hdr body : List UInt8) : KtpMsg :=
  let bit (i : ℕ) : Bool := hdr.getD i 0 != 0
  { cmd := sampleCmds.getD (hdr.getD 0 0).toNat .null
    status := ⟨bit 1, bit 2, bit 3, bit 4, bit 5, bit 6, bit 7, bit 8, bit 9⟩
    params := sampleBody body.length body }

def sampleWholeLen (hdr : List UInt8) : Option ℕ := hdr[10]?.map UInt8.toNat

/-- The length is one byte of the header. -/
def sampleFraming : Framing UInt8 KtpMsg where
  hdrLen := 11
  wholeLen := sampleWholeLen
  encode := sampleEncode
  decode := sampleDecode
  Fits msg := 11 ≤ (sampleEncode msg).length ∧
    sampleWholeLen ((sampleEncode msg).take 11) = some (sampleEncode msg).length ∧
    sampleDecode ((sampleEncode msg).take 11) ((sampleEncode msg).drop 11) = msg
  hdrLen_pos := Nat.succ_pos 10
  hdrLen_le _ h := h.1
  wholeLen_encode _ h := h.2.1
  decode_encode _ h := h.2.2

instance (msg : KtpMsg) : Decidable (sampleFraming.Fits msg) :=
  inferInstanceAs (Decidable (_ ∧ _ ∧ _))

/-- The command that ends the session. -/
def sampleExit : LoopEvent := KtpdLoop.sampleRead [(Ktpd.sampleCmd, Ktpd.stoppingSys)]

/-- The end of the session, while the socket takes so many bytes. -/
def sampleEnd (room : ℕ) : List Event :=
  [.server (KtpdLoop.sampleRead [(.preform .auth {}, Ktpd.sampleSys 0)]) room,
    .server sampleExit room,
    .client ⟨false, true, true, false, false, room, fun ktp _ => ktp⟩]

def sampleLink : KtpLink Ktpd.sampleEnv :=
  new (fun _ => none) Ktpd.sampleWorld (.new true true) false

/-- The socket takes the answer with the exit as well, and the client reads all of it. -/
theorem nothing_lost_iff_sample : ∃ link : KtpLink Ktpd.sampleEnv,
    Runs.run (step sampleFraming) sampleLink (sampleEnd 200) = some link ∧
    ((∀ n t, Runs.run (step sampleFraming) sampleLink ((sampleEnd 200).take n) = some t →
        NothingLost sampleFraming t) ↔
      Runs.Along (step sampleFraming) (Drains sampleFraming) sampleLink (sampleEnd 200)) ∧
    link.exited = true ∧ link.hungUp = true ∧ NothingLost sampleFraming link := by
  have hrun : (Runs.run (step sampleFraming) sampleLink (sampleEnd 200)).map (fun link =>
      (link.msgs.all fun msg => decide (sampleFraming.Fits msg), link.exited, link.hungUp)) =
      some (true, true, true) := by decide
  obtain ⟨link, hlink, heq⟩ := Option.map_eq_some_iff.mp hrun
  simp only [Prod.mk.injEq] at heq
  obtain ⟨hall, hexited, hhungUp⟩ := heq
  have hfits : ∀ msg ∈ link.msgs, sampleFraming.Fits msg := fun msg hmsg =>
    of_decide_eq_true (List.all_eq_true.mp hall msg hmsg)
  have hiff := @nothing_lost_iff Ktpd.sampleEnv sampleFraming _ _ _ rfl (by decide) _ _ _ hlink
    hfits
  have hdrains : Runs.Along (step sampleFraming) (Drains sampleFraming) sampleLink
      (sampleEnd 200) := by
    have hsecond : ((Runs.run (step sampleFraming) sampleLink ((sampleEnd 200).take 1)).all
        fun link => decide (link.waiting sampleFraming +
          (sampleFraming.stream (link.sends sampleExit)).length ≤ link.room sampleExit 200)) =
        true := by decide
    have hlast : ((Runs.run (step sampleFraming) sampleLink ((sampleEnd 200).take 2)).all
        fun link => decide (link.sent ≤ link.taken + 200)) = true := by decide
    refine ⟨fun _ => by decide, fun t ht => ⟨fun _ => ?_, fun t' ht' => ⟨fun _ _ msgs _ hle => ?_,
      fun _ _ => trivial⟩⟩⟩
    · have hrun : Runs.run (step sampleFraming) sampleLink ((sampleEnd 200).take 1) = some t :=
        Runs.run_cons.mpr ⟨t, ht, rfl⟩
      exact of_decide_eq_true ((Option.all_eq_true _ _).mp hsecond t hrun)
    · have hrun : Runs.run (step sampleFraming) sampleLink ((sampleEnd 200).take 2) = some t' :=
        Runs.run_cons.mpr ⟨t, ht, Runs.run_cons.mpr ⟨t', ht', rfl⟩⟩
      exact Nat.le_trans hle (of_decide_eq_true ((Option.all_eq_true _ _).mp hlast t' hrun))
  exact ⟨link, hlink, hiff, hexited, hhungUp, hiff.mpr hdrains 3 link hlink⟩

/-- The socket takes a few bytes at a time, and the answer with the exit stays in the queue. -/
theorem queue_lost_at_exit : ∃ link : KtpLink Ktpd.sampleEnv,
    Runs.run (step sampleFraming) sampleLink (sampleEnd 8) = some link ∧
      ¬ NothingLost sampleFraming link := by
  have hrun : (Runs.run (step sampleFraming) sampleLink (sampleEnd 8)).map (fun link =>
      (link.exited, decide (link.sent < (link.queued sampleFraming).length))) =
      some (true, true) := by decide
  obtain ⟨link, hlink, heq⟩ := Option.map_eq_some_iff.mp hrun
  obtain ⟨hexited, hless⟩ : link.exited = true ∧
      link.sent < (link.queued sampleFraming).length := by simpa using heq
  refine ⟨link, hlink, fun hlaw => ?_⟩
  have hall := hlaw.server hexited
  omega

end KtpLink

end Klish
