import Courier.Datagram.Channel
import Courier.Proofs.Outbound.Chunks

/-!
The life of one channel: messages are taken in, their chunks are picked and written one
by one, datagrams of any kind arrive from anywhere, the resend timer ticks, and
connections to peers are closed, in any order and at any times. A log tells how each
message left the queue, newest first.
-/

namespace Courier.Datagram

/-- A chunk concerns only the table of incoming messages. -/
theorem receiveChunk_snd (ch : Channel) (now : Instant) (sender : SocketAddr) (h : Chunk.Header)
    (payload : Bytes) : (ch.receiveChunk now sender h payload).2 =
      { ch with inbound := (ch.inbound.insert sender h payload now).2 } := by
  unfold Channel.receiveChunk
  generalize ch.inbound.insert sender h payload now = result
  obtain ⟨outcome, inbound⟩ := result
  cases outcome <;> rfl

/-- How a message leaves the queue. -/
inductive Exit where
  /-- an acknowledgement arrived that was the last one missing -/
  | acknowledged
  /-- all chunks of a best-effort message were written -/
  | finished
  | abandoned (at_ : Instant)
  /-- the connection to its peer was closed -/
  | cancelled
  deriving DecidableEq

/-- What an onlooker sees. -/
inductive Life.Fact where
  | registered (sequence : UInt64) (dest : SocketAddr) (data : Bytes) (reliable : Bool)
  /-- a chunk was handed to the socket, whatever became of it there -/
  | written (chunk : Outbound.Outgoing)
  /-- a datagram arrived, and these messages left the queue -/
  | received (packet : Bytes) (settled : List UInt64)
  /-- the resend timer ticked: the messages given up, and the others that left the queue -/
  | ticked (now : Instant) (abandoned finished : List UInt64)
  /-- a connection was closed, and these messages left the queue -/
  | closed (cancelled : List UInt64)

structure Life where
  channel : Channel
  /-- chunks that were picked and not yet handed to the socket -/
  hand : List Outbound.Outgoing := []
  log : List Life.Fact := []

namespace Life

inductive Event where
  | send (dest : SocketAddr) (data : Bytes) (reliable : Bool)
  | pick
  /-- the socket gets the chunk that was picked after `place` others in hand. It counts as
  written even if the socket refuses it. -/
  | write (place : Nat)
  | receive (sender : SocketAddr) (packet : Bytes) (now : Instant)
  | tick (now : Instant)
  | close (dest : SocketAddr)

def init (c : Config) (family : Ip.Family) : Life where
  channel := .ofConfig c family

def step (c : Config) (l : Life) : Event → Life
  | .send dest data reliable =>
    match l.channel.send dest data reliable with
    | .error _ => l
    | .ok (n, channel) => { l with channel, log := .registered n dest data reliable :: l.log }
  | .pick =>
    let (chunk, outbound) := l.channel.outbound.next
    { l with channel := { l.channel with outbound }, hand := l.hand ++ chunk.toList }
  | .write place =>
    match l.hand[place]? with
    | none => l
    | some chunk =>
      let outbound := l.channel.outbound.markWritten chunk.header.sequence
      { channel := { l.channel with outbound }
        hand := l.hand.eraseIdx place
        log := .written chunk :: l.log }
  | .receive sender packet now =>
    let (_, channel) := l.channel.receive c now sender packet
    { l with
      channel
      log := .received packet (l.channel.outbound.gone channel.outbound) :: l.log }
  | .tick now =>
    let (_, channel) := l.channel.tick c now
    let abandoned := (l.channel.outbound.tick c.resendTickThreshold c.resendThreshold).1.abandoned
    let others := (l.channel.outbound.gone channel.outbound).filter (· ∉ abandoned)
    { l with channel, log := .ticked now abandoned others :: l.log }
  | .close dest =>
    let channel := l.channel.dropTo dest
    { l with channel, log := .closed (l.channel.outbound.gone channel.outbound) :: l.log }

def run (c : Config) (family : Ip.Family) (events : List Event) : Life :=
  events.foldl (step c) (init c family)

theorem run_append (c : Config) (family : Ip.Family) (events : List Event) (e : Event) :
    run c family (events ++ [e]) = step c (run c family events) e := by
  simp [run]

/-! ## Reading the log -/

/-- The way in which a message leaves the queue with a fact. -/
def Fact.exit? (n : UInt64) : Fact → Option Exit
  | .received _ settled => if n ∈ settled then some .acknowledged else none
  | .ticked now abandoned finished =>
    if n ∈ abandoned then some (.abandoned now)
    else if n ∈ finished then some .finished
    else none
  | .closed cancelled => if n ∈ cancelled then some .cancelled else none
  | _ => none

/-- The ways in which a message left the queue. -/
def exits (n : UInt64) (log : List Fact) : List Exit := log.filterMap (Fact.exit? n)

/-- An acknowledgement of a chunk arrived. -/
def Acked (n : UInt64) (index : Nat) (log : List Fact) : Prop :=
  ∃ packet settled ack payload, .received packet settled ∈ log ∧
    Chunk.Header.decode packet = .ok (ack, payload) ∧ ack.kind = .ack ∧ ack.sequence = n ∧
    ack.index.toNat = index

/-- A chunk was handed to the socket, whether that sent it or not. -/
def Written (n : UInt64) (index : Nat) (log : List Fact) : Prop :=
  ∃ chunk, .written chunk ∈ log ∧ chunk.header.sequence = n ∧ chunk.header.index.toNat = index

/-- A message was sent: a reliable one with all acknowledgements, a best-effort one with
all chunks handed to the socket. -/
def Sent (c : Config) (n : UInt64) (log : List Fact) : Prop :=
  ∃ dest data reliable total, .registered n dest data reliable ∈ log ∧
    Chunk.count? data.length c.chunkSize = some total ∧
    ∀ i < total, if reliable then Acked n i log else Written n i log

/-- A message was given up so long before a later tick that the tick forgot it. -/
def Forgotten (c : Config) (n : UInt64) (log : List Fact) : Prop :=
  ∃ later now abandoned finished earlier at_,
    log = later ++ .ticked now abandoned finished :: earlier ∧
    .abandoned at_ ∈ exits n earlier ∧ c.completedRetention.nanos ≤ now - at_

end Life

end Courier.Datagram
