import Courier.Config
import Courier.Frame
import Courier.Net.Ip

/-!
One connection to a peer over a byte stream, opened by either side. Frames to be
written wait in an outbox, and received messages in an inbox. The machine is
driven by events: how an attempt to connect went, pieces that were read, the end
of the stream, a close, a tick of the keepalive timer.
-/

namespace Courier.Stream

/-- What the owner of a connection sees. A disconnected one is never opened
again. -/
inductive State where
  | connecting
  | connected
  | disconnected
  deriving DecidableEq

namespace State

def name : State → String
  | connecting => "Connecting"
  | connected => "Connected"
  | disconnected => "Disconnected"

end State

/-- How far the work on the stream itself is. -/
inductive Phase where
  /-- there is no stream yet; so many attempts to get one failed -/
  | dialing (failed : Nat)
  /-- there is a stream, which nothing was read from or written to -/
  | established
  | opened (decoder : Frame.State)
  /-- the stream is gone -/
  | ended
  deriving DecidableEq

structure Connection where
  peer : SocketAddr
  maxFrameSize : Nat
  /-- attempts to connect after the first one -/
  retries : Nat
  state : State
  phase : Phase
  /-- the owner closed the connection, and the work on the stream is to end -/
  cancelled : Bool := false
  /-- encoded frames, the latest first -/
  outbox : List Bytes := []
  /-- messages, the oldest first -/
  inbox : List Bytes := []
  /-- keepalive ticks since the last frame or ping -/
  idleTicks : Nat := 0
  awaitingAck : Bool := false

namespace Connection

/-- A connection that this side opens. -/
def dial (c : Config) (peer : SocketAddr) : Connection where
  peer := peer
  maxFrameSize := c.maxFrameSize
  retries := c.connectRetries
  state := .connecting
  phase := .dialing 0

/-- A connection that the peer opened. -/
def accept (c : Config) (peer : SocketAddr) : Connection where
  peer := peer
  maxFrameSize := c.maxFrameSize
  retries := c.connectRetries
  state := .connected
  phase := .established

def isDisconnected (c : Connection) : Bool := c.state = .disconnected

def isLive (c : Connection) : Bool := !c.isDisconnected

def isDrained (c : Connection) : Bool := c.inbox.isEmpty

/-- A message that `send` takes: not empty, not a keepalive payload, and within
the size limit. -/
def accepts (c : Connection) (data : Bytes) : Bool :=
  !data.isEmpty && !Frame.isKeepalive data && data.length ≤ c.maxFrameSize

/-! ## The owner's side -/

/-- Queues a frame, unless nobody is left to write it. -/
def enqueue (c : Connection) (payload : Bytes) : Bool × Connection :=
  if c.phase = .ended then (false, c)
  else (true, { c with outbox := Frame.encode payload :: c.outbox })

/-- Queues a message; tells whether it was taken. -/
def send (c : Connection) (data : Bytes) : Bool × Connection :=
  if c.isDisconnected || !c.accepts data then (false, c) else c.enqueue data

def close (c : Connection) : Connection :=
  { c with state := .disconnected, cancelled := true }

/-- The oldest received message. -/
def takeMessage (c : Connection) : Option (Bytes × Connection) :=
  match c.inbox with
  | [] => none
  | data :: rest => some (data, { c with inbox := rest })

/-- A tick of the keepalive timer. A connection that was idle for `threshold`
ticks sends a ping, and it is closed if the ping is not answered before the next
tick. -/
def tick (c : Connection) (threshold : Nat) : Connection :=
  if c.state ≠ .connected then c
  else if c.awaitingAck then c.close
  else if c.idleTicks + 1 < threshold then { c with idleTicks := c.idleTicks + 1 }
  else ({ c with idleTicks := 0, awaitingAck := true }.enqueue Frame.ping).2

/-! ## The stream's side -/

/-- Ends the work on the stream. -/
def hangUp (c : Connection) : Connection :=
  { c with state := .disconnected, phase := .ended }

/-- An attempt to connect failed. The last allowed one ends the connection. -/
def attemptFailed (c : Connection) : Connection :=
  match c.phase with
  | .dialing failed =>
    if failed < c.retries then { c with phase := .dialing (failed + 1) } else c.hangUp
  | _ => c

/-- There is a stream now. If the connection was closed in the meantime, the
stream is dropped untouched. -/
def establish (c : Connection) : Connection :=
  if c.isDisconnected then { c with phase := .ended }
  else { c with state := .connected, phase := .opened .seek }

/-- A frame from the peer: a ping is answered, the answer to a ping noted, and
all else is a message. -/
def takeFrame (c : Connection) (payload : Bytes) : Connection :=
  let c := { c with idleTicks := 0 }
  if payload = Frame.ping then (c.enqueue Frame.pong).2
  else if payload = Frame.pong then { c with awaitingAck := false }
  else { c with inbox := c.inbox ++ [payload] }

/-- Takes in a piece of the stream. A frame beyond the size limit ends the
connection after the frames before it. One larger than any object stops the work
on the stream at once: the frames before it in the piece are lost, and the owner
is not told. -/
def receive (c : Connection) (piece : Bytes) : Connection :=
  match c.phase with
  | .opened decoder =>
    let decoded := Frame.decode c.maxFrameSize decoder piece
    if decoded.error = some .outOfRange then { c with phase := .ended }
    else
      let c := decoded.frames.foldl takeFrame { c with phase := .opened decoded.state }
      if decoded.error.isSome then c.hangUp else c
  | _ => c

/-- The frames that are written to the stream now, oldest first. -/
def flush (c : Connection) : List Bytes × Connection :=
  match c.phase with
  | .opened _ => (c.outbox.reverse, { c with outbox := [] })
  | _ => ([], c)

/-- Notices that the owner closed the connection. -/
def noticeCancel (c : Connection) : Connection :=
  if c.cancelled ∧ c.phase ≠ .ended then c.hangUp else c

/-- Whether something is to be done that does not wait for the peer. -/
def isDue (c : Connection) : Bool :=
  match c.phase with
  | .dialing _ => c.cancelled
  | .established => true
  | .opened _ => c.cancelled || !c.outbox.isEmpty
  | .ended => false

end Connection

end Courier.Stream
