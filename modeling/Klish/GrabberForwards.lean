import Mathlib.Data.List.Nodup
import Klish.Grabber
import Klish.Lib.Runs

/-!
# What the grabber forwards

Each stream keeps its bytes in order. That a stream with unsent bytes waits for its output, and
that the loop ends when all is sent and not before, needs the descriptors not to be shared at the
wrong moment.
-/

namespace Klish.Grabber

variable {L : EventLoop Unit}

/-- The ends of the pipes to read are new descriptors. The outputs may be one descriptor. -/
structure Plugged (fds : List (Fd × Fd)) : Prop where
  nonempty : fds ≠ []
  inputs : (fds.map Prod.fst).Nodup
  apart : ∀ p ∈ fds, ∀ q ∈ fds, p.1 ≠ q.2

/-- The input is closed, and all is sent or cannot be sent. -/
def Closed (gone : List Fd) (stream : GrabberStream) : Prop :=
  stream.source ∈ gone ∧ (stream.buf = [] ∨ stream.sink ∈ gone)

/-- The streams with unsent bytes wait for their outputs. -/
def Armed (g : Grabber L) : Prop :=
  ∀ stream ∈ g.streams, stream.buf ≠ [] → ∀ fd, stream.fdOut = some fd →
    L.polls g.eloop fd .pollout = true

/-- The bytes are forwarded in order, to the right descriptor. A stream with unsent bytes waits for
its output. The loop has ended when all streams are closed, and not before. -/
structure Forwards (g : Grabber L) : Prop where
  inOrder : ∀ stream ∈ g.streams, stream.received = stream.sent ++ stream.buf ∧
    ∀ fd, stream.fdOut = some fd → fd = stream.sink
  armed : Armed g
  ends : g.stopped = true ↔ ∀ stream ∈ g.streams, Closed g.gone stream

/-- The system takes all that the stream has and reads. -/
def Drains (event : GrabberEvent) (stream : GrabberStream) : Prop :=
  stream.buf.length + (if event.pollin then event.data.length else 0) ≤ event.taken

/-- If the stream gets rid of all its bytes or of its output, then no other stream has bytes for
the same descriptor; and a stream has none for one that has ended. -/
def Shares (gone : List Fd) (event : GrabberEvent) (found : FoundStream) : Prop :=
  ∀ fd, found.stream.fdOut = some fd →
    ((Drains event found.stream ∨ (event.failed = true ∧ found.direction = .output)) →
      ∀ other ∈ found.before ++ found.after, other.fdOut = some fd → other.buf = []) ∧
    (fd ∈ gone → Drains event found.stream)

/-- The event is for a stream, and the outputs are not shared at the wrong moment. -/
def Fair (g : Grabber L) (event : GrabberEvent) : Prop :=
  ∃ found, findStream event.fd g.streams = some found ∧ Shares g.gone event found

theorem findStream_eq_some {fd : Fd} {streams : List GrabberStream} {found : FoundStream}
    (h : findStream fd streams = some found) :
    streams = found.before ++ found.stream :: found.after ∧
      ((found.direction = .input ∧ found.stream.fdIn = some fd) ∨
        (found.direction = .output ∧ found.stream.fdOut = some fd)) := by
  induction streams generalizing found with
  | nil => cases h
  | cons stream streams ih =>
    rw [findStream] at h
    split at h
    · rename_i hin
      cases h
      exact ⟨rfl, .inl ⟨rfl, hin⟩⟩
    split at h
    · rename_i hout
      cases h
      exact ⟨rfl, .inr ⟨rfl, hout⟩⟩
    · obtain ⟨rest, hrest, rfl⟩ := Option.map_eq_some_iff.mp h
      obtain ⟨heq, hside⟩ := ih hrest
      exact ⟨congrArg (stream :: ·) heq, hside⟩

theorem findStream_eq_none {fd : Fd} {streams : List GrabberStream}
    (h : findStream fd streams = none) :
    ∀ stream ∈ streams, stream.fdIn ≠ some fd ∧ stream.fdOut ≠ some fd := by
  induction streams with
  | nil => simp
  | cons stream streams ih =>
    rw [findStream] at h
    split at h
    · cases h
    rename_i hin
    split at h
    · cases h
    rename_i hout
    exact List.forall_mem_cons.mpr ⟨⟨hin, hout⟩, ih (Option.map_eq_none_iff.mp h)⟩

section Passed

variable {event : GrabberEvent} {stream : GrabberStream}

/-- The stream after reading and writing. -/
def passed (event : GrabberEvent) (stream : GrabberStream) : GrabberStream :=
  writeData event (readData event stream)

@[simp] theorem passed_fdIn : (passed event stream).fdIn = stream.fdIn := by
  unfold passed writeData readData
  split <;> split <;> rfl

@[simp] theorem passed_fdOut : (passed event stream).fdOut = stream.fdOut := by
  unfold passed writeData readData
  split <;> split <;> rfl

@[simp] theorem passed_source : (passed event stream).source = stream.source := by
  unfold passed writeData readData
  split <;> split <;> rfl

@[simp] theorem passed_sink : (passed event stream).sink = stream.sink := by
  unfold passed writeData readData
  split <;> split <;> rfl

theorem passed_inOrder (h : stream.received = stream.sent ++ stream.buf) :
    (passed event stream).received = (passed event stream).sent ++ (passed event stream).buf := by
  have hread : (readData event stream).received =
      (readData event stream).sent ++ (readData event stream).buf := by
    unfold readData
    split
    · simp only [h, List.append_assoc]
    · exact h
  unfold passed writeData
  split
  · simp only [hread, List.append_assoc, List.take_append_drop]
  · exact hread

theorem passed_buf_eq_nil (hfdOut : stream.fdOut.isSome = true)
    (hfdIn : event.pollin = true → stream.fdIn.isSome = true) :
    (passed event stream).buf = [] ↔ Drains event stream := by
  have hsome : (readData event stream).fdOut.isSome = true := by
    unfold readData
    split <;> exact hfdOut
  have hbuf : (readData event stream).buf.length =
      stream.buf.length + if event.pollin then event.data.length else 0 := by
    unfold readData
    cases hpollin : event.pollin with
    | true => simp [hfdIn hpollin]
    | false => simp
  rw [passed, writeData, if_pos hsome, List.drop_eq_nil_iff, hbuf, Drains]

/-- Without input no bytes come in. -/
theorem passed_nil (hfdIn : stream.fdIn = none) (hbuf : stream.buf = []) :
    (passed event stream).buf = [] := by
  have hread : readData event stream = stream := by
    rw [readData, hfdIn]
    simp
  rw [passed, hread, writeData]
  split
  · simp [hbuf]
  · exact hbuf

end Passed

section Serve

variable {eloop : L.State} {event : GrabberEvent} {found : FoundStream}

/-- The event loop without the descriptor of an event that reports its end. -/
def ended (eloop : L.State) (event : GrabberEvent) : L.State :=
  if event.failed then L.delFd eloop event.fd else eloop

/-- The stream gets rid of its output because of an error. -/
def Loses (event : GrabberEvent) (found : FoundStream) : Prop :=
  event.failed = true ∧ found.direction = .output

instance (event : GrabberEvent) (found : FoundStream) : Decidable (Loses event found) :=
  inferInstanceAs (Decidable (_ ∧ _))

/-- What a served stream has passed on, and whether its input goes on. -/
structure ServedStream (event : GrabberEvent) (found : FoundStream) (stream : GrabberStream) :
    Prop where
  buf : stream.buf = (passed event found.stream).buf
  received : stream.received = (passed event found.stream).received
  sent : stream.sent = (passed event found.stream).sent
  source : stream.source = found.stream.source
  sink : stream.sink = found.stream.sink
  fdIn : stream.fdIn =
    if event.failed = true ∧ found.direction = .input then none else found.stream.fdIn

/-- What becomes of the output of a served stream. -/
inductive ServedOut (eloop : L.State) (event : GrabberEvent) (found : FoundStream)
    (stream : GrabberStream) : L.State → Prop
  | without (h : found.stream.fdOut = none ∨ Loses event found) (hout : stream.fdOut = none) :
      ServedOut eloop event found stream (ended eloop event)
  | drained {fd : Fd} (hfd : found.stream.fdOut = some fd) (hkept : ¬Loses event found)
      (hbuf : (passed event found.stream).buf = [])
      (hout : stream.fdOut = if stream.fdIn = none then none else some fd) :
      ServedOut eloop event found stream (L.excludeFdEvent (ended eloop event) fd .pollout)
  | waits {fd : Fd} (hfd : found.stream.fdOut = some fd) (hkept : ¬Loses event found)
      (hbuf : (passed event found.stream).buf ≠ []) (hout : stream.fdOut = some fd) :
      ServedOut eloop event found stream (L.includeFdEvent (ended eloop event) fd .pollout)

theorem noteEnd_eq (event : GrabberEvent) (found : FoundStream) (stream : GrabberStream) :
    noteEnd event found.direction stream =
      { stream with
        fdIn := if event.failed = true ∧ found.direction = .input then none else stream.fdIn
        fdOut := if Loses event found then none else stream.fdOut } := by
  obtain ⟨direction, before, found, after⟩ := found
  by_cases hfailed : event.failed = true
  · cases direction <;> simp [noteEnd, Loses, hfailed]
  · simp [noteEnd, Loses, hfailed]

theorem planOut_stream (eloop : L.State) (stream : GrabberStream) :
    ∃ fdOut, (planOut eloop stream).1 = { stream with fdOut := fdOut } := by
  unfold planOut
  split
  · exact ⟨stream.fdOut, rfl⟩
  · split
    · split
      · exact ⟨none, rfl⟩
      · exact ⟨stream.fdOut, rfl⟩
    · exact ⟨stream.fdOut, rfl⟩

theorem serve_eq (eloop : L.State) (event : GrabberEvent) (found : FoundStream) :
    serve eloop event found = planOut (ended eloop event)
      { passed event found.stream with
        fdIn :=
          if event.failed = true ∧ found.direction = .input then none else found.stream.fdIn
        fdOut := if Loses event found then none else found.stream.fdOut } := by
  have hnote := noteEnd_eq event found (passed event found.stream)
  rw [passed_fdIn, passed_fdOut] at hnote
  exact congrArg (planOut (ended eloop event)) hnote

theorem serve_stream (eloop : L.State) (event : GrabberEvent) (found : FoundStream) :
    ServedStream event found (serve eloop event found).1 := by
  rw [serve_eq]
  obtain ⟨fdOut, hplan⟩ := planOut_stream (ended eloop event)
    { passed event found.stream with
      fdIn := if event.failed = true ∧ found.direction = .input then none else found.stream.fdIn
      fdOut := if Loses event found then none else found.stream.fdOut }
  rw [hplan]
  exact ⟨rfl, rfl, rfl, passed_source, passed_sink, rfl⟩

theorem serve_out (eloop : L.State) (event : GrabberEvent) (found : FoundStream) :
    ServedOut eloop event found (serve eloop event found).1 (serve eloop event found).2 := by
  rw [serve_eq]
  by_cases hloses : Loses event found
  · rw [if_pos hloses]
    exact .without (.inr hloses) rfl
  · rw [if_neg hloses]
    cases hfd : found.stream.fdOut with
    | none => exact .without (.inl hfd) rfl
    | some fd =>
      unfold planOut
      dsimp only
      by_cases hbuf : (passed event found.stream).buf = []
      · rw [if_pos (List.isEmpty_iff.mpr hbuf)]
        refine .drained hfd hloses hbuf ?_
        dsimp only
        generalize (if event.failed = true ∧ found.direction = .input then none
          else found.stream.fdIn) = fdIn
        cases fdIn <;> rfl
      · rw [if_neg fun hempty => hbuf (List.isEmpty_iff.mp hempty)]
        exact .waits hfd hloses hbuf rfl

end Serve

section Invariant

/-- How a stream stands to the descriptors that have ended. -/
structure StreamInv (gone : List Fd) (stream : GrabberStream) : Prop where
  inOrder : stream.received = stream.sent ++ stream.buf
  input : (stream.fdIn = some stream.source ∧ stream.source ∉ gone) ∨
    (stream.fdIn = none ∧ stream.source ∈ gone)
  output : stream.fdOut = some stream.sink ∨ (stream.fdOut = none ∧
    (stream.sink ∈ gone ∨ (stream.fdIn = none ∧ stream.buf = [])))
  released : stream.fdIn = none → stream.buf = [] → stream.fdOut = none

/-- The loop watches the descriptors that have not ended, and polls inputs only for reading. -/
structure Inv (fds : List (Fd × Fd)) (g : Grabber L) : Prop where
  streams : g.streams.map (fun stream => (stream.source, stream.sink)) = fds
  each : ∀ stream ∈ g.streams, StreamInv g.gone stream
  watched : ∀ fd, L.watched g.eloop fd = true ↔ (∃ p ∈ fds, fd = p.1 ∨ fd = p.2) ∧ fd ∉ g.gone
  pollin : ∀ fd, L.polls g.eloop fd .pollin = true → ∃ p ∈ fds, fd = p.1

variable {fds : List (Fd × Fd)} {g : Grabber L} {event : GrabberEvent} {found : FoundStream}

theorem Inv.mem_fds (hinv : Inv fds g) {stream : GrabberStream} (h : stream ∈ g.streams) :
    (stream.source, stream.sink) ∈ fds := hinv.streams ▸ List.mem_map_of_mem h

theorem StreamInv.fdIn_eq {gone : List Fd} {stream : GrabberStream} {fd : Fd}
    (h : StreamInv gone stream) (hfd : stream.fdIn = some fd) :
    fd = stream.source ∧ fd ∉ gone := by
  rcases h.input with ⟨hsome, hgone⟩ | ⟨hnone, -⟩
  · obtain rfl := Option.some.inj (hfd.symm.trans hsome)
    exact ⟨rfl, hgone⟩
  · cases hfd.symm.trans hnone

theorem StreamInv.fdOut_eq {gone : List Fd} {stream : GrabberStream} {fd : Fd}
    (h : StreamInv gone stream) (hfd : stream.fdOut = some fd) : fd = stream.sink := by
  rcases h.output with hsome | ⟨hnone, -⟩
  · exact Option.some.inj (hfd.symm.trans hsome)
  · cases hfd.symm.trans hnone

/-- The descriptors that have ended after the event. -/
def goneAfter (gone : List Fd) (event : GrabberEvent) : List Fd :=
  if event.failed then event.fd :: gone else gone

theorem mem_goneAfter {gone : List Fd} {fd : Fd} :
    fd ∈ goneAfter gone event ↔ (event.failed = true ∧ fd = event.fd) ∨ fd ∈ gone := by
  unfold goneAfter
  split
  · rename_i hfailed
    simp [hfailed]
  · rename_i hfailed
    simp [hfailed]

theorem watched_ended {eloop : L.State} {fd : Fd} : L.watched (ended eloop event) fd = true ↔
    ¬(event.failed = true ∧ fd = event.fd) ∧ L.watched eloop fd = true := by
  unfold ended
  split
  · rename_i hfailed
    simp [hfailed]
  · rename_i hfailed
    simp [hfailed]

theorem polls_of_ended {eloop : L.State} {fd : Fd} {ev : PollEvent} :
    L.polls (ended eloop event) fd ev = true ↔
      ¬(event.failed = true ∧ fd = event.fd) ∧ L.polls eloop fd ev = true := by
  unfold ended
  split
  · rename_i hfailed
    simp [hfailed]
  · rename_i hfailed
    simp [hfailed]

theorem grabberFdEv_of_found (h : findStream event.fd g.streams = some found) :
    g.grabberFdEv event =
      { streams := found.before ++ (serve g.eloop event found).1 :: found.after
        eloop := (serve g.eloop event found).2
        stopped := (found.before ++ (serve g.eloop event found).1 :: found.after).all
          fun stream => stream.fdIn.isNone && stream.fdOut.isNone
        gone := goneAfter g.gone event } := by
  unfold grabberFdEv
  simp only [h]
  rfl

/-- Other streams have other inputs. -/
theorem source_ne (hplugged : Plugged fds) (hinv : Inv fds g)
    (hstreams : g.streams = found.before ++ found.stream :: found.after) :
    ∀ other ∈ found.before ++ found.after, other.source ≠ found.stream.source := by
  have hnodup := hplugged.inputs
  rw [← hinv.streams, hstreams, List.map_map, List.map_append, List.map_cons, List.nodup_middle,
    List.nodup_cons, ← List.map_append] at hnodup
  intro other hother heq
  exact hnodup.1 (List.mem_map.mpr ⟨other, hother, heq⟩)

theorem mem_others {stream : GrabberStream}
    (h : stream ∈ found.before ++ found.after) (middle : GrabberStream) :
    stream ∈ found.before ++ middle :: found.after := by
  rcases List.mem_append.mp h with h | h
  · exact List.mem_append_left _ h
  · exact List.mem_append_right _ (List.mem_cons_of_mem _ h)

theorem forall_middle {middle : GrabberStream} {p : GrabberStream → Prop} (hmiddle : p middle)
    (hothers : ∀ other ∈ found.before ++ found.after, p other) :
    ∀ stream ∈ found.before ++ middle :: found.after, p stream := by
  intro stream h
  rcases List.mem_append.mp h with h | h
  · exact hothers stream (List.mem_append_left _ h)
  · rcases List.mem_cons.mp h with rfl | h
    · exact hmiddle
    · exact hothers stream (List.mem_append_right _ h)

/-- The event is for the found stream's own descriptor. -/
theorem found_fd (hinv : Inv fds g)
    (h : findStream event.fd g.streams = some found) :
    found.stream ∈ g.streams ∧
      ((found.direction = .input ∧ event.fd = found.stream.source) ∨
        (found.direction = .output ∧ event.fd = found.stream.sink)) := by
  obtain ⟨hstreams, hside⟩ := findStream_eq_some h
  have hmem : found.stream ∈ g.streams := by
    rw [hstreams]
    exact List.mem_append_right _ List.mem_cons_self
  refine ⟨hmem, ?_⟩
  rcases hside with ⟨hdirection, hfd⟩ | ⟨hdirection, hfd⟩
  · exact .inl ⟨hdirection, ((hinv.each _ hmem).fdIn_eq hfd).1⟩
  · exact .inr ⟨hdirection, (hinv.each _ hmem).fdOut_eq hfd⟩

theorem StreamInv.other {gone : List Fd} {other : GrabberStream} (h : StreamInv gone other)
    (hne : event.failed = true → other.source ≠ event.fd) :
    StreamInv (goneAfter gone event) other where
  inOrder := h.inOrder
  input := by
    rcases h.input with ⟨hsome, hgone⟩ | ⟨hnone, hgone⟩
    · refine .inl ⟨hsome, fun hafter => ?_⟩
      rcases mem_goneAfter.mp hafter with ⟨hfailed, heq⟩ | hgone'
      · exact hne hfailed heq
      · exact hgone hgone'
    · exact .inr ⟨hnone, mem_goneAfter.mpr (.inr hgone)⟩
  output := by
    rcases h.output with hsome | ⟨hnone, hgone | hclosed⟩
    · exact .inl hsome
    · exact .inr ⟨hnone, .inl (mem_goneAfter.mpr (.inr hgone))⟩
    · exact .inr ⟨hnone, .inr hclosed⟩
  released := h.released

/-- The stream that an event is for, after it. -/
theorem StreamInv.serve {gone : List Fd} {stream : GrabberStream} {eloop eloop' : L.State}
    (h : StreamInv gone found.stream)
    (hside : (found.direction = .input ∧ event.fd = found.stream.source) ∨
      (found.direction = .output ∧ event.fd = found.stream.sink))
    (hne : found.stream.source ≠ found.stream.sink) (hserved : ServedStream event found stream)
    (hout : ServedOut eloop event found stream eloop') :
    StreamInv (goneAfter gone event) stream where
  inOrder := by
    rw [hserved.received, hserved.sent, hserved.buf]
    exact passed_inOrder h.inOrder
  input := by
    rw [hserved.source, hserved.fdIn]
    by_cases hends : event.failed = true ∧ found.direction = .input
    · rw [if_pos hends]
      rcases hside with ⟨-, hfd⟩ | ⟨hdirection, -⟩
      · exact .inr ⟨rfl, mem_goneAfter.mpr (.inl ⟨hends.1, hfd.symm⟩)⟩
      · cases hdirection.symm.trans hends.2
    · rw [if_neg hends]
      rcases h.input with ⟨hsome, hgone⟩ | ⟨hnone, hgone⟩
      · refine .inl ⟨hsome, fun hafter => ?_⟩
        rcases mem_goneAfter.mp hafter with ⟨hfailed, heq⟩ | hgone'
        · rcases hside with ⟨hdirection, -⟩ | ⟨-, hfd⟩
          · exact hends ⟨hfailed, hdirection⟩
          · exact hne (heq.trans hfd)
        · exact hgone hgone'
      · exact .inr ⟨hnone, mem_goneAfter.mpr (.inr hgone)⟩
  output := by
    rw [hserved.sink]
    cases hout with
    | without hwithout hnone =>
      refine .inr ⟨hnone, ?_⟩
      rcases hwithout with hbefore | ⟨hfailed, hdirection⟩
      · rcases h.output with hsome | ⟨-, hgone | ⟨hfdIn, hbuf⟩⟩
        · cases hbefore.symm.trans hsome
        · exact .inl (mem_goneAfter.mpr (.inr hgone))
        · refine .inr ⟨?_, hserved.buf.trans (passed_nil hfdIn hbuf)⟩
          rw [hserved.fdIn, hfdIn, ite_self]
      · rcases hside with ⟨hinput, -⟩ | ⟨-, hfd⟩
        · cases hinput.symm.trans hdirection
        · exact .inl (mem_goneAfter.mpr (.inl ⟨hfailed, hfd.symm⟩))
    | drained hfd hkept hbuf hsome =>
      by_cases hnone : stream.fdIn = none
      · rw [if_pos hnone] at hsome
        exact .inr ⟨hsome, .inr ⟨hnone, hserved.buf.trans hbuf⟩⟩
      · rw [if_neg hnone, h.fdOut_eq hfd] at hsome
        exact .inl hsome
    | waits hfd hkept hbuf hsome => exact .inl (h.fdOut_eq hfd ▸ hsome)
  released := by
    intro hfdIn hbuf
    cases hout with
    | without hwithout hnone => exact hnone
    | drained hfd hkept hempty hsome => rw [hsome, if_pos hfdIn]
    | waits hfd hkept hfull hsome => exact absurd (hserved.buf.symm.trans hbuf) hfull

theorem watched_served {stream : GrabberStream} {eloop eloop' : L.State} {fd : Fd}
    (h : ServedOut eloop event found stream eloop') :
    L.watched eloop' fd = L.watched (ended eloop event) fd := by
  cases h with
  | without => rfl
  | drained => exact EventLoop.watched_excludeFdEvent
  | waits => exact EventLoop.watched_includeFdEvent

theorem pollin_served {stream : GrabberStream} {eloop eloop' : L.State} {fd : Fd}
    (h : ServedOut eloop event found stream eloop') :
    L.polls eloop' fd .pollin = L.polls (ended eloop event) fd .pollin := by
  cases h with
  | without => rfl
  | drained => simp [EventLoop.polls_excludeFdEvent]
  | waits => simp [EventLoop.polls_includeFdEvent]

/-- An event for a stream keeps the invariant. -/
theorem Inv.served (hplugged : Plugged fds) (hinv : Inv fds g)
    (h : findStream event.fd g.streams = some found) : Inv fds (g.grabberFdEv event) := by
  have hstreams := (findStream_eq_some h).1
  obtain ⟨hmem, hside⟩ := found_fd hinv h
  have hserved := serve_stream g.eloop event found
  have hout := serve_out g.eloop event found
  have hpair := hinv.mem_fds hmem
  rw [grabberFdEv_of_found h]
  constructor
  · rw [List.map_append, List.map_cons, hserved.source, hserved.sink, ← hinv.streams, hstreams,
      List.map_append, List.map_cons]
  · apply forall_middle
    · exact (hinv.each _ hmem).serve hside (hplugged.apart _ hpair _ hpair) hserved hout
    · intro other hother
      have hmem' : other ∈ g.streams := hstreams ▸ mem_others hother found.stream
      refine (hinv.each _ hmem').other fun _ => ?_
      rcases hside with ⟨-, hfd⟩ | ⟨-, hfd⟩
      · rw [hfd]
        exact source_ne hplugged hinv hstreams other hother
      · rw [hfd]
        exact hplugged.apart _ (hinv.mem_fds hmem') _ hpair
  · intro fd
    rw [watched_served hout, watched_ended, hinv.watched, mem_goneAfter, not_or]
    exact and_left_comm
  · intro fd hpolls
    rw [pollin_served hout, polls_of_ended] at hpolls
    exact hinv.pollin fd hpolls.2

/-- Only inputs are read. -/
theorem fdIn_of_pollin (hplugged : Plugged fds) (hinv : Inv fds g)
    (hpollin : event.pollin = true → L.polls g.eloop event.fd .pollin = true)
    (h : findStream event.fd g.streams = some found) :
    event.pollin = true → found.stream.fdIn.isSome = true := by
  intro hread
  obtain ⟨p, hp, heq⟩ := hinv.pollin _ (hpollin hread)
  obtain ⟨hmem, -⟩ := found_fd hinv h
  rcases (findStream_eq_some h).2 with ⟨-, hfd⟩ | ⟨-, hfd⟩
  · rw [hfd]
    rfl
  · have hsink := (hinv.each _ hmem).fdOut_eq hfd
    exact absurd (heq.symm.trans hsink) (hplugged.apart p hp _ (hinv.mem_fds hmem))

/-- An event on an input does not end an output. -/
theorem not_ended (hplugged : Plugged fds) (hinv : Inv fds g)
    (h : findStream event.fd g.streams = some found) (hkept : ¬Loses event found)
    {stream : GrabberStream} (hstream : stream ∈ g.streams) {fd : Fd}
    (hfd : stream.fdOut = some fd) : ¬(event.failed = true ∧ fd = event.fd) := by
  rintro ⟨hfailed, heq⟩
  obtain ⟨hmem, hside⟩ := found_fd hinv h
  rcases hside with ⟨-, hsource⟩ | ⟨hdirection, -⟩
  · have hsink := (hinv.each _ hstream).fdOut_eq hfd
    exact hplugged.apart _ (hinv.mem_fds hmem) _ (hinv.mem_fds hstream)
      (hsource.symm.trans (heq.symm.trans hsink))
  · exact hkept ⟨hfailed, hdirection⟩

theorem armed_of_shares (hplugged : Plugged fds) (hinv : Inv fds g) (harmed : Armed g)
    (hpollin : event.pollin = true → L.polls g.eloop event.fd .pollin = true)
    (h : findStream event.fd g.streams = some found) (hshares : Shares g.gone event found) :
    Armed (g.grabberFdEv event) := by
  have hstreams := (findStream_eq_some h).1
  obtain ⟨hmem, hside⟩ := found_fd hinv h
  have hserved := serve_stream g.eloop event found
  have hout := serve_out g.eloop event found
  have hread := fdIn_of_pollin hplugged hinv hpollin h
  have hdrains : ∀ fd, found.stream.fdOut = some fd →
      ((passed event found.stream).buf = [] ↔ Drains event found.stream) := fun fd hfd =>
    passed_buf_eq_nil (by rw [hfd]; rfl) hread
  rw [grabberFdEv_of_found h]
  apply forall_middle
  · intro hfull fd hfd
    rw [hserved.buf] at hfull
    dsimp only
    generalize (serve g.eloop event found).2 = eloop' at hout ⊢
    cases hout with
    | without hwithout hnone => cases hfd.symm.trans hnone
    | drained hsome hkept hbuf => exact absurd hbuf hfull
    | waits hsome hkept hbuf hsome' =>
      obtain rfl := Option.some.inj (hfd.symm.trans hsome')
      have hgone : fd ∉ g.gone := fun hgone =>
        hfull ((hdrains fd hsome).mpr ((hshares fd hsome).2 hgone))
      have hwatched : L.watched (ended g.eloop event) fd = true := by
        refine watched_ended.mpr ⟨not_ended hplugged hinv h hkept hmem hsome, ?_⟩
        refine (hinv.watched fd).mpr ⟨⟨_, hinv.mem_fds hmem, .inr ?_⟩, hgone⟩
        exact (hinv.each _ hmem).fdOut_eq hsome
      simp [EventLoop.polls_includeFdEvent, hwatched]
  · intro other hother hfull fd hfd
    have hmem' : other ∈ g.streams := hstreams ▸ mem_others hother found.stream
    have hpolls := harmed other hmem' hfull fd hfd
    dsimp only
    generalize (serve g.eloop event found).2 = eloop' at hout ⊢
    cases hout with
    | without hwithout hnone =>
      refine polls_of_ended.mpr ⟨?_, hpolls⟩
      by_cases hloses : Loses event found
      · rintro ⟨hfailed, rfl⟩
        rcases (findStream_eq_some h).2 with ⟨hinput, -⟩ | ⟨-, hown⟩
        · cases hinput.symm.trans hloses.2
        · exact hfull ((hshares _ hown).1 (.inr hloses) other hother hfd)
      · exact not_ended hplugged hinv h hloses hmem' hfd
    | @drained own hsome hkept hbuf hsome' =>
      have hne : fd ≠ own := by
        rintro rfl
        exact hfull ((hshares fd hsome).1 (.inl ((hdrains fd hsome).mp hbuf)) other hother hfd)
      have hgone := polls_of_ended.mpr ⟨not_ended hplugged hinv h hkept hmem' hfd, hpolls⟩
      simp [EventLoop.polls_excludeFdEvent, hgone, hne]
    | waits hsome hkept hbuf =>
      have hgone := polls_of_ended.mpr ⟨not_ended hplugged hinv h hkept hmem' hfd, hpolls⟩
      simp [EventLoop.polls_includeFdEvent, hgone]

theorem shares_of_armed (hplugged : Plugged fds) (hinv : Inv fds g)
    (hwatched : L.watched g.eloop event.fd = true)
    (hpollin : event.pollin = true → L.polls g.eloop event.fd .pollin = true)
    (h : findStream event.fd g.streams = some found) (harmed : Armed (g.grabberFdEv event)) :
    Shares g.gone event found := by
  have hinv' := hinv.served hplugged h
  have hserved := serve_stream g.eloop event found
  have hout := serve_out g.eloop event found
  have hread := fdIn_of_pollin hplugged hinv hpollin h
  obtain ⟨hmem, hside⟩ := found_fd hinv h
  rw [grabberFdEv_of_found h] at harmed hinv'
  intro fd hfd
  have hdrains : (passed event found.stream).buf = [] ↔ Drains event found.stream :=
    passed_buf_eq_nil (by rw [hfd]; rfl) hread
  -- The stream loses its output only when that is the descriptor of the event.
  have hloses : Loses event found → fd = event.fd := by
    intro hloses
    rcases (findStream_eq_some h).2 with ⟨hinput, -⟩ | ⟨-, hown⟩
    · cases hinput.symm.trans hloses.2
    · exact Option.some.inj (hfd.symm.trans hown)
  generalize hserve : serve g.eloop event found = r at hserved hout harmed hinv'
  obtain ⟨stream, eloop'⟩ := r
  constructor
  · intro hgone other hother hother'
    by_contra hfull
    have hpolls := harmed other (mem_others hother stream) hfull fd hother'
    dsimp only at hpolls hout
    cases hout with
    | without hwithout hnone =>
      rcases hwithout with hbefore | hlost
      · cases hfd.symm.trans hbefore
      · exact (polls_of_ended.mp hpolls).1 ⟨hlost.1, hloses hlost⟩
    | drained hsome hkept hbuf =>
      obtain rfl := Option.some.inj (hfd.symm.trans hsome)
      simp [EventLoop.polls_excludeFdEvent] at hpolls
    | waits hsome hkept hbuf =>
      rcases hgone with hgone | hgone
      · exact hbuf (hdrains.mpr hgone)
      · exact hkept hgone
  · intro hgone
    by_contra hnot
    have hfull : (passed event found.stream).buf ≠ [] := fun hbuf => hnot (hdrains.mp hbuf)
    dsimp only at hout
    cases hout with
    | without hwithout hnone =>
      rcases hwithout with hbefore | hlost
      · cases hfd.symm.trans hbefore
      · exact ((hinv.watched _).mp hwatched).2 (hloses hlost ▸ hgone)
    | drained hsome hkept hbuf => exact hfull hbuf
    | waits hsome hkept hbuf hsome' =>
      obtain rfl := Option.some.inj (hfd.symm.trans hsome)
      have hpolls := harmed stream (List.mem_append_right _ List.mem_cons_self)
        (hserved.buf ▸ hfull) fd hsome'
      have hgone' := ((hinv'.watched fd).mp (EventLoop.watched_of_polls hpolls)).2
      exact hgone' (mem_goneAfter.mpr (.inr hgone))

/-- The loop has ended exactly if all streams are closed. -/
theorem ends_iff (hinv : Inv fds g) (harmed : Armed g) :
    (∀ stream ∈ g.streams, (stream.fdIn.isNone && stream.fdOut.isNone) = true) ↔
      ∀ stream ∈ g.streams, Closed g.gone stream := by
  refine forall₂_congr fun stream hstream => ?_
  have hstreamInv := hinv.each stream hstream
  rw [Bool.and_eq_true, Option.isNone_iff_eq_none, Option.isNone_iff_eq_none]
  constructor
  · rintro ⟨hfdIn, hfdOut⟩
    have hsource : stream.source ∈ g.gone := by
      rcases hstreamInv.input with ⟨hsome, -⟩ | ⟨-, hgone⟩
      · cases hfdIn.symm.trans hsome
      · exact hgone
    refine ⟨hsource, ?_⟩
    rcases hstreamInv.output with hsome | ⟨-, hgone | hclosed⟩
    · cases hfdOut.symm.trans hsome
    · exact .inr hgone
    · exact .inl hclosed.2
  · rintro ⟨hsource, hsent⟩
    have hfdIn : stream.fdIn = none := by
      rcases hstreamInv.input with ⟨-, hgone⟩ | ⟨hnone, -⟩
      · exact absurd hsource hgone
      · exact hnone
    refine ⟨hfdIn, ?_⟩
    by_cases hbuf : stream.buf = []
    · exact hstreamInv.released hfdIn hbuf
    · rcases hstreamInv.output with hsome | ⟨hnone, -⟩
      · -- A stream with unsent bytes waits for its output, so that is not ended.
        have hpolls := harmed stream hstream hbuf _ hsome
        have hgone := ((hinv.watched _).mp (EventLoop.watched_of_polls hpolls)).2
        exact absurd (hsent.resolve_left hbuf) hgone
      · exact hnone

/-- An event on a descriptor that no stream has any more ends the loop too early. -/
theorem not_stray (hinv : Inv fds g) (hforwards : Forwards g) (hgoes : g.stopped = false)
    (hwatched : L.watched g.eloop event.fd = true) (h : findStream event.fd g.streams = none) :
    ¬Forwards (g.grabberFdEv event) := by
  intro hforwards'
  have hafter : ∀ stream ∈ g.streams, Closed (goneAfter g.gone event) stream := by
    have hends := hforwards'.ends
    unfold grabberFdEv at hends
    simp only [h, true_iff] at hends
    exact hends
  have hclosed : ∀ stream ∈ g.streams, Closed g.gone stream := by
    intro stream hstream
    obtain ⟨hsource, hsent⟩ := hafter stream hstream
    obtain ⟨hnotIn, hnotOut⟩ := findStream_eq_none h stream hstream
    have hstreamInv := hinv.each stream hstream
    have hgone := ((hinv.watched _).mp hwatched).2
    constructor
    · rcases hstreamInv.input with ⟨hsome, -⟩ | ⟨-, hin⟩
      · rcases mem_goneAfter.mp hsource with ⟨-, heq⟩ | hin
        · exact absurd (heq ▸ hsome) hnotIn
        · exact hin
      · exact hin
    · rcases hstreamInv.output with hsome | ⟨-, hout | hnone⟩
      · rcases hsent with hbuf | hsink
        · exact .inl hbuf
        · rcases mem_goneAfter.mp hsink with ⟨-, heq⟩ | hin
          · exact absurd (heq ▸ hsome) hnotOut
          · exact .inr hin
      · exact .inr hout
      · exact .inl hnone.2
  exact Bool.false_ne_true (hgoes.symm.trans (hforwards.ends.mpr hclosed))

theorem Inv.inOrder (hinv : Inv fds g) : ∀ stream ∈ g.streams,
    stream.received = stream.sent ++ stream.buf ∧
      ∀ fd, stream.fdOut = some fd → fd = stream.sink := fun stream hstream =>
  ⟨(hinv.each stream hstream).inOrder, fun _ hfd => (hinv.each stream hstream).fdOut_eq hfd⟩

variable {g' : Grabber L}

theorem step_eq_some (h : g.step event = some g') :
    g.stopped = false ∧ L.watched g.eloop event.fd = true ∧
      (event.pollin = true → L.polls g.eloop event.fd .pollin = true) ∧
      g' = g.grabberFdEv event := by
  unfold step at h
  split at h
  · cases h
  rename_i hgoes
  split at h
  · rename_i hreported
    cases h
    exact ⟨(Bool.not_eq_true _).mp hgoes, hreported.1, hreported.2, rfl⟩
  · cases h

theorem step_forwards (hplugged : Plugged fds) (hinv : Inv fds g) (hforwards : Forwards g)
    (hfair : Fair g event) (h : g.step event = some g') : Inv fds g' ∧ Forwards g' := by
  obtain ⟨-, hwatched, hpollin, rfl⟩ := step_eq_some h
  obtain ⟨found, hfound, hshares⟩ := hfair
  have hinv' := hinv.served hplugged hfound
  have harmed := armed_of_shares hplugged hinv hforwards.armed hpollin hfound hshares
  refine ⟨hinv', hinv'.inOrder, harmed, ?_⟩
  rw [← ends_iff hinv' harmed, grabberFdEv_of_found hfound, List.all_eq_true]

theorem step_fair (hplugged : Plugged fds) (hinv : Inv fds g) (hforwards : Forwards g)
    (h : g.step event = some g') (hforwards' : Forwards g') : Fair g event := by
  obtain ⟨hgoes, hwatched, hpollin, rfl⟩ := step_eq_some h
  cases hfound : findStream event.fd g.streams with
  | none => exact absurd hforwards' (not_stray hinv hforwards hgoes hwatched hfound)
  | some found =>
    exact ⟨found, hfound,
      shares_of_armed hplugged hinv hwatched hpollin hfound hforwards'.armed⟩

end Invariant

section Start

variable {fds : List (Fd × Fd)} {eloop : L.State}

theorem watched_streams {fd : Fd} : L.watched (fds.foldl addStream eloop) fd = true ↔
    L.watched eloop fd = true ∨ ∃ p ∈ fds, fd = p.1 ∨ fd = p.2 := by
  induction fds generalizing eloop with
  | nil => simp
  | cons p fds ih =>
    rw [List.foldl_cons, ih]
    simp only [addStream, EventLoop.watched_addFd, EventLoop.watched_includeFdEvent,
      Bool.or_eq_true, decide_eq_true_eq, List.exists_mem_cons_iff]
    grind

theorem pollin_streams {fd : Fd} (h : L.polls (fds.foldl addStream eloop) fd .pollin = true) :
    L.polls eloop fd .pollin = true ∨ ∃ p ∈ fds, fd = p.1 := by
  induction fds generalizing eloop with
  | nil => exact .inl h
  | cons p fds ih =>
    rcases ih h with hpolls | ⟨q, hq, heq⟩
    · simp only [addStream, EventLoop.polls_addFd, EventLoop.polls_includeFdEvent,
        Bool.or_eq_true, Bool.and_eq_true, decide_eq_true_eq] at hpolls
      rcases hpolls with hpolls | ⟨⟨heq, -⟩, -⟩
      · exact .inl hpolls
      · exact .inr ⟨p, List.mem_cons_self, heq⟩
    · exact .inr ⟨q, List.mem_cons_of_mem _ hq, heq⟩

theorem new_forwards (hplugged : Plugged fds) (hnew : ∀ fd, L.watched eloop fd = false) :
    Inv fds (new fds eloop : Grabber L) ∧ Forwards (new fds eloop : Grabber L) := by
  have hinv : Inv fds (new fds eloop : Grabber L) := by
    constructor
    · rw [new, List.map_map]
      exact List.map_id fds
    · intro stream hstream
      obtain ⟨p, -, rfl⟩ := List.mem_map.mp hstream
      exact ⟨rfl, .inl ⟨rfl, List.not_mem_nil⟩, .inl rfl, fun h => by cases h⟩
    · intro fd
      have hwatched := @watched_streams L fds eloop fd
      rw [hnew fd] at hwatched
      rw [new, hwatched]
      simp
    · intro fd hpolls
      rcases pollin_streams hpolls with hpolls | hfd
      · exact absurd ((hnew fd).symm.trans (EventLoop.watched_of_polls hpolls)) Bool.false_ne_true
      · exact hfd
  refine ⟨hinv, hinv.inOrder, fun stream hstream hbuf => ?_, ?_⟩
  · obtain ⟨p, -, rfl⟩ := List.mem_map.mp hstream
    exact absurd rfl hbuf
  · refine ⟨fun h => Bool.noConfusion h, fun hclosed => ?_⟩
    obtain ⟨p, hp⟩ := List.exists_mem_of_ne_nil fds hplugged.nonempty
    exact absurd (hclosed _ (List.mem_map_of_mem hp)).1 List.not_mem_nil

/-- The grabber forwards all bytes and ends in time, exactly if each event is for a stream that is
still there and outputs are not shared at the wrong moment. -/
theorem forwards_iff (hplugged : Plugged fds) (hnew : ∀ fd, L.watched eloop fd = false)
    {events : List GrabberEvent} {g : Grabber L}
    (hrun : Runs.run step (new fds eloop) events = some g) :
    (∀ n t, Runs.run step (new fds eloop) (events.take n) = some t → Forwards t) ↔
      Runs.Along step Fair (new fds eloop : Grabber L) events :=
  Runs.forall_states_iff_along (I := fun g : Grabber L => Inv fds g ∧ Forwards g)
    (fun _ h => h.2)
    (fun _ _ _ h hfair hstep => step_forwards hplugged h.1 h.2 hfair hstep)
    (fun _ _ _ h hstep hforwards => step_fair hplugged h.1 h.2 hstep hforwards)
    (new_forwards hplugged hnew) hrun

/-- Both outputs are the terminal 9. -/
def sharedOutputs : List (Fd × Fd) := [(3, 9), (4, 9)]

theorem sharedOutputs_plugged : Plugged sharedOutputs := ⟨by decide, by decide, by decide⟩

/-- One byte is read, and the terminal takes so many bytes. -/
def oneByte (fd : Fd) (taken : ℕ) : GrabberEvent := ⟨fd, true, false, [1], taken⟩

theorem forwards_iff_shared : ∃ g : Grabber (.table Unit),
    Runs.run step (new sharedOutputs fun _ => none) [oneByte 4 1] = some g ∧
    ((∀ n t, Runs.run step (new sharedOutputs fun _ => none) ([oneByte 4 1].take n) =
        some (t : Grabber (.table Unit)) → Forwards t) ↔
      Runs.Along step Fair (new sharedOutputs fun _ => none : Grabber (.table Unit))
        [oneByte 4 1]) := by
  obtain ⟨g, hg⟩ : ∃ g : Grabber (.table Unit),
      Runs.run step (new sharedOutputs fun _ => none) [oneByte 4 1] = some g := ⟨_, rfl⟩
  exact ⟨g, hg, @forwards_iff (.table Unit) _ _ sharedOutputs_plugged (fun _ => rfl) _ _ hg⟩

/-- A byte of stderr cannot be written, and one of stdout can a moment later. The terminal is not
polled for writing then, and the byte of stderr stays where it is. -/
theorem byte_left_behind : ∃ g : Grabber (.table Unit),
    Runs.run step (new sharedOutputs fun _ => none) [oneByte 4 0, oneByte 3 1] = some g ∧
      ¬Forwards g := by
  have hrun : (Runs.run step (new sharedOutputs fun _ => none : Grabber (.table Unit))
      [oneByte 4 0, oneByte 3 1]).map (fun g =>
        (g.streams.map fun stream => (stream.fdOut, stream.buf),
          EventLoop.polls (.table Unit) g.eloop 9 .pollout)) =
      some ([(some 9, []), (some 9, [1])], false) := by decide
  obtain ⟨g, hg, heq⟩ := Option.map_eq_some_iff.mp hrun
  obtain ⟨hstreams, hpolls⟩ := Prod.mk.inj heq
  refine ⟨g, hg, fun hforwards => ?_⟩
  have hmem : (some 9, [1]) ∈ g.streams.map fun stream => (stream.fdOut, stream.buf) := by
    rw [hstreams]
    simp
  obtain ⟨stream, hstream, hpair⟩ := List.mem_map.mp hmem
  obtain ⟨hfdOut, hbuf⟩ := Prod.mk.inj hpair
  have harmed := hforwards.armed stream hstream (by rw [hbuf]; simp) 9 hfdOut
  exact Bool.false_ne_true (hpolls.symm.trans harmed)

end Start

end Klish.Grabber
