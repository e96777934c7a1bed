import Klish.Kexec
import Klish.Ktp
import Klish.Lib.EventLoop

/-!
# The grabber of a sync symbol

A process that reads the output of a symbol and forwards it to the streams of the context. One
callback serves all descriptors; it finds the stream by the number of the descriptor.
-/

namespace Klish

/-- `grabber_stream_t`, with the descriptors it was made for and the bytes that have passed. -/
structure GrabberStream where
  fdIn : Option Fd
  fdOut : Option Fd
  buf : Bytes
  source : Fd
  sink : Fd
  received : Bytes
  sent : Bytes

namespace GrabberStream

/-- `grabber_stream_new` -/
def new (fds : Fd × Fd) : GrabberStream where
  fdIn := some fds.1
  fdOut := some fds.2
  buf := []
  source := fds.1
  sink := fds.2
  received := []
  sent := []

end GrabberStream

/-- What the event loop reports of a descriptor, and what the system does during the callback.
That a descriptor can be written is not looked at. -/
structure GrabberEvent where
  fd : Fd
  pollin : Bool
  /-- `POLLHUP`, `POLLERR` or `POLLNVAL` -/
  failed : Bool
  /-- What the calls of `read` give until there is no more. -/
  data : Bytes
  /-- The number of bytes that the calls of `write` take. -/
  taken : ℕ

/-- The side of a stream that a descriptor is on. -/
inductive Direction where
  | input | output
  deriving DecidableEq, Repr

/-- A stream of the list, with those before and after it. -/
structure FoundStream where
  direction : Direction
  before : List GrabberStream
  stream : GrabberStream
  after : List GrabberStream

/-- The process. A descriptor has ended when its end or an error has been reported. -/
structure Grabber (L : EventLoop Unit) where
  streams : List GrabberStream
  eloop : L.State
  /-- The callback has returned `BOOL_FALSE`. -/
  stopped : Bool
  gone : List Fd

namespace Grabber

variable {L : EventLoop Unit}

/-- The descriptors of one stream in the event loop. -/
def addStream (eloop : L.State) (fds : Fd × Fd) : L.State :=
  L.addFd (L.includeFdEvent (L.addFd eloop fds.1 ()) fds.1 .pollin) fds.2 ()

/-- `grabber`, up to its loop. -/
def new (fds : List (Fd × Fd)) (eloop : L.State) : Grabber L where
  streams := fds.map .new
  eloop := fds.foldl addStream eloop
  stopped := false
  gone := []

/-- The loop that finds the stream of a descriptor. -/
def findStream (fd : Fd) : List GrabberStream → Option FoundStream
  | [] => none
  | stream :: streams =>
    if stream.fdIn = some fd then some ⟨.input, [], stream, streams⟩
    else if stream.fdOut = some fd then some ⟨.output, [], stream, streams⟩
    else (findStream fd streams).map fun found => { found with before := stream :: found.before }

/-- Reading. A descriptor of -1 gives nothing. -/
def readData (event : GrabberEvent) (stream : GrabberStream) : GrabberStream :=
  if event.pollin && stream.fdIn.isSome then
    { stream with
      buf := stream.buf ++ event.data
      received := stream.received ++ event.data }
  else stream

/-- Writing. A descriptor of -1 takes nothing. -/
def writeData (event : GrabberEvent) (stream : GrabberStream) : GrabberStream :=
  if stream.fdOut.isSome then
    { stream with
      buf := stream.buf.drop event.taken
      sent := stream.sent ++ stream.buf.take event.taken }
  else stream

/-- The end of a descriptor. -/
def noteEnd (event : GrabberEvent) (direction : Direction) (stream : GrabberStream) :
    GrabberStream :=
  if event.failed then
    match direction with
    | .input => { stream with fdIn := none }
    | .output => { stream with fdOut := none }
  else stream

/-- The check for additional data to send. -/
def planOut (eloop : L.State) (stream : GrabberStream) : GrabberStream × L.State :=
  match stream.fdOut with
  | none => (stream, eloop)
  | some fdOut =>
    if stream.buf.isEmpty then
      (if stream.fdIn.isNone then { stream with fdOut := none } else stream,
        L.excludeFdEvent eloop fdOut .pollout)
    else (stream, L.includeFdEvent eloop fdOut .pollout)

/-- The stream that an event is for, after it. -/
def serve (eloop : L.State) (event : GrabberEvent) (found : FoundStream) :
    GrabberStream × L.State :=
  planOut (if event.failed then L.delFd eloop event.fd else eloop)
    (noteEnd event found.direction (writeData event (readData event found.stream)))

/-- `grabber_fd_ev` -/
def grabberFdEv (g : Grabber L) (event : GrabberEvent) : Grabber L :=
  let gone := if event.failed then event.fd :: g.gone else g.gone
  match findStream event.fd g.streams with
  | none => { g with stopped := true, gone }
  | some found =>
    let r := serve g.eloop event found
    let streams := found.before ++ r.1 :: found.after
    { streams
      eloop := r.2
      stopped := streams.all fun stream => stream.fdIn.isNone && stream.fdOut.isNone
      gone }

/-- One callback of the loop. A round of polling may report a descriptor that an earlier callback
of the round has disarmed for writing. -/
def step (g : Grabber L) (event : GrabberEvent) : Option (Grabber L) :=
  if g.stopped then none
  else if L.watched g.eloop event.fd = true ∧
      (event.pollin = true → L.polls g.eloop event.fd .pollin = true) then
    some (g.grabberFdEv event)
  else none

end Grabber

end Klish
