import Courier.Config
import Courier.Outbound.Queue
import Courier.Reassembly
import Courier.Received
import Courier.Resolver

/-!
Messages of any size over datagrams: the messages on their way out, those that
arrive in chunks, and the numbers of those that were given up, so that a sender
who waits for one can tell. Time is an argument. What goes to the socket is a
result, and so is what the counters have to learn.
-/

namespace Courier.Datagram

structure Channel where
  outbound : Outbound.Queue
  inbound : Reassembly
  /-- numbers of messages given up, and when -/
  abandoned : List (UInt64 × Instant) := []
  resolver : Resolver

/-- What a datagram led to. -/
structure Receipt where
  /-- the acknowledgement that goes back to the sender -/
  reply : Option Bytes := none
  message : Option Received := none
  /-- the datagram was no acceptable chunk -/
  dropped : Bool := false
  /-- an acknowledgement made room for further chunks -/
  progress : Bool := false

/-- What a tick of the resend timer led to. -/
structure TickReport where
  resent : Nat
  /-- outgoing messages given up and incomplete ones discarded -/
  dropped : Nat

namespace Channel

/-- The channel of a socket that is bound to an address of the given family. -/
def ofConfig (c : Config) (family : Ip.Family) : Channel where
  outbound := { chunkSize := c.chunkSize, maxFlight := c.maxFlight }
  inbound := { chunkSize := c.chunkSize, maxPartialBytes := c.maxPartialBytes }
  resolver := { family := some family }

def isPending (ch : Channel) (sequence : UInt64) : Bool := ch.outbound.contains sequence

def isAbandoned (ch : Channel) (sequence : UInt64) : Bool :=
  (ch.abandoned.lookup sequence).isSome

def send (ch : Channel) (dest : SocketAddr) (data : Bytes) (reliable : Bool) :
    Except Outbound.SendError (UInt64 × Channel) :=
  (ch.outbound.register dest data reliable).map fun (sequence, q) =>
    (sequence, { ch with outbound := q })

/-- Every chunk that may go on the wire now. -/
def flush (ch : Channel) : Array Outbound.Outgoing × Channel :=
  let (chunks, q) := ch.outbound.drain true none
  (chunks, { ch with outbound := q })

/-- Drops the messages to a peer that are still being sent. -/
def dropTo (ch : Channel) (dest : SocketAddr) : Channel :=
  { ch with outbound := (ch.outbound.dropTo dest).2 }

/-- Puts a chunk in its place. A reliable one is acknowledged, whatever comes of
it. -/
def receiveChunk (ch : Channel) (now : Instant) (sender : SocketAddr) (h : Chunk.Header)
    (payload : Bytes) : Receipt × Channel :=
  let (outcome, inbound) := ch.inbound.insert sender h payload now
  let reply := if h.kind = .data then some (Chunk.packet h.toAck []) else none
  let ch := { ch with inbound }
  match outcome with
  | .complete data =>
    ({ reply, message := some ⟨.ofSocketAddr .udp sender, data, h.kind = .data⟩ }, ch)
  | .rejected _ => ({ reply, dropped := true }, ch)
  | _ => ({ reply }, ch)

/-- Takes in one datagram. Nothing in it can fail: what is no acceptable chunk is
counted and dropped. -/
def receive (ch : Channel) (c : Config) (now : Instant) (sender : SocketAddr) (packet : Bytes) :
    Receipt × Channel :=
  if c.packetSize < packet.length then ({ dropped := true }, ch)
  else
    match Chunk.Header.decode packet with
    | .error _ => ({ dropped := true }, ch)
    | .ok (h, payload) =>
      if h.kind = .ack then
        let (progress, q) := ch.outbound.acknowledge h
        ({ progress }, { ch with outbound := q })
      else ch.receiveChunk now sender h payload

/-- Sends lost chunks again, gives messages up, and forgets what is too old. -/
def tick (ch : Channel) (c : Config) (now : Instant) : TickReport × Channel :=
  let (t, q) := ch.outbound.tick c.resendTickThreshold c.resendThreshold
  let remembered := ch.abandoned.filter fun (_, since) => now - since < c.completedRetention.nanos
  let (stale, inbound) := ch.inbound.purge now c.inboundTimeout c.completedRetention
  (⟨t.resent, t.abandoned.length + stale⟩,
    { ch with
      outbound := q
      inbound
      abandoned := t.abandoned.map (·, now) ++ remembered })

/-- One look of a sender who waits for a message until a deadline. A message that
left the queue was sent, unless it was given up. Nothing means that the sender
has to look again later. -/
def awaitSent (ch : Channel) (sequence : UInt64) (now deadline : Instant) : Option Bool :=
  if ch.isPending sequence then
    if deadline ≤ now then some false else none
  else some !ch.isAbandoned sequence

end Channel

end Courier.Datagram
