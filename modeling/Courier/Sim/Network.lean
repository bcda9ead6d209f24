import Courier.Sim.World

/-!
The network of a simulated world. What is sent to an address reaches the socket
that is bound to it, or else one that is bound to the unspecified address of the
family with that port. Datagrams and streams arrive at once, and streams hold any
number of bytes.
-/

namespace Courier.Sim.World

/-! ## Addresses -/

/-- The place in an array of the open socket that an address reaches. -/
def reached? {α : Type} (sockets : Array α) (isOpen : α → Bool) (address : α → SocketAddr)
    (dest : SocketAddr) : Option Nat :=
  (sockets.findIdx? fun s => isOpen s && address s == dest).or
    (sockets.findIdx? fun s => isOpen s && address s == dest.withIp (.unspecified dest.family))

/-- The address to bind a socket to, with a port of its own in place of port 0.
An address that is bound already is refused, and a port that was given out for it
is gone. -/
def bindAddress (w : World) (isBound : SocketAddr → Bool) (a : SocketAddr) :
    Except NetError SocketAddr × World :=
  let (a, w) := w.givePort a
  (if isBound a then .error .addressInUse else .ok a, w)

/-- The address that a socket sends or connects from. -/
def sourceAddress (a : SocketAddr) : SocketAddr :=
  if a.ip.isUnspecified then a.withIp (.loopback a.family) else a

/-! ## Datagrams -/

def socketAt? (w : World) (dest : SocketAddr) : Option Nat :=
  reached? w.sockets (·.bound) (·.address) dest

def bindSocket (w : World) (a : SocketAddr) : Except NetError SocketAddr × World :=
  w.bindAddress (fun a => w.sockets.any fun s => s.bound && s.address == a) a

/-- Datagrams are read up to this size. -/
def maxArrival : Nat := 65536

/-- Puts a datagram into a socket. -/
def arrive (w : World) (socket : Nat) (source : SocketAddr) (packet : Bytes) : World :=
  let packet := packet.take maxArrival
  (w.updateSocket socket fun s => { s with arrivals := s.arrivals.push (source, packet) }).wake
    (.datagramReader socket)

/-- Sends a datagram from a socket. It fails if the address is of the other
family, and succeeds even if nobody gets the datagram. -/
def sendDatagram (w : World) (socket : Nat) (dest : SocketAddr) (packet : Bytes) : Bool × World :=
  match (w.sockets[socket]?).map (sourceAddress ·.address) with
  | none => (false, w)
  | some source =>
    if source.family ≠ dest.family then (false, w)
    else
      let w := { w with log := w.log.push ⟨source, dest, packet⟩ }
      match w.socketAt? dest with
      | none => (true, w)
      | some target =>
        if w.toDrop = 0 then (true, w.arrive target source packet)
        else (true, { w with toDrop := w.toDrop - 1 })

/-- Sends a datagram and counts its bytes. -/
def sendCounted (w : World) (socket context : Nat) (dest : SocketAddr) (packet : Bytes) : World :=
  match w.sendDatagram socket dest packet with
  | (true, w) => w.count context (·.sent packet.length)
  | (false, w) => w

/-! ## Streams -/

def listenerAt? (w : World) (dest : SocketAddr) : Option Nat :=
  reached? w.listeners (·.bound) (·.address) dest

def bindListener (w : World) (a : SocketAddr) : Except NetError SocketAddr × World :=
  w.bindAddress (fun a => w.listeners.any fun l => l.bound && l.address == a) a

/-- The other end of a stream. -/
def farEnd (n : Nat) : Nat := if n % 2 = 0 then n + 1 else n - 1

/-- A new stream; its ends are the one given and the next. -/
def openStream (w : World) : Nat × World :=
  (w.ends.size, { w with ends := (w.ends.push {}).push {} })

/-- Wakes the connection that reads from an end. -/
def wakeReader (w : World) (e : Nat) : World :=
  match (w.ends[e]?).bind (·.reader) with
  | none => w
  | some n => w.wake (.connection n)

def isEndClosed (w : World) (e : Nat) : Bool := (w.ends[e]?).all (·.closed)

/-- Writes to a stream; that fails if the other end is closed. -/
def write (w : World) (e : Nat) (data : Bytes) : Bool × World :=
  let far := farEnd e
  if w.isEndClosed far then (false, w)
  else
    (true, (w.updateEnd far fun s => { s with unread := s.unread.push data }).wakeReader far)

/-- Takes everything that can be read from an end. -/
def readAll (w : World) (e : Nat) : Bytes × World :=
  match w.ends[e]? with
  | none => ([], w)
  | some s => (s.unread.toList.flatten, w.updateEnd e fun s => { s with unread := #[] })

def closeEnd (w : World) (e : Nat) : World :=
  (w.updateEnd e fun s => { s with closed := true, unread := #[] }).wakeReader (farEnd e)

/-- Makes the reads of the other end fail after what was written. -/
def breakFar (w : World) (e : Nat) : World :=
  let far := farEnd e
  (w.updateEnd far fun s => { s with broken := true }).wakeReader far

/-- Lets something come to a listener. -/
def arriveAt (w : World) (listener : Nat) (i : Incoming) : World :=
  let w := w.updateListener listener fun l => { l with waiting := l.waiting ++ [i] }
  match (w.listeners[listener]?).bind (·.hub) with
  | none => w
  | some hub => w.wake (.acceptor hub)

/-- Connects to a listener from an address. The result is this side's end of the
new stream. -/
def connectFrom (w : World) (listener : Nat) (source : SocketAddr) : Nat × World :=
  let (e, w) := w.openStream
  (e, w.arriveAt listener (.stream (farEnd e) (sourceAddress source)))

/-- Closes a listener, and with it the streams that it did not accept. -/
def closeListener (w : World) (n : Nat) : World :=
  match w.listeners[n]? with
  | none => w
  | some l =>
    let w := w.updateListener n fun l => { l with bound := false, waiting := [] }
    l.waiting.foldl (fun w i =>
      match i with
      | .stream e _ => w.closeEnd e
      | .failure => w) w

end Courier.Sim.World
