import Courier.Chunk.Header
import Courier.Chunk.Split
import Courier.Net.Ip
import Std.Data.TreeSet

/-!
A message on its way out: how many of its chunks were sent, which of those were
acknowledged, and which are to be sent again. Chunks are sent in order, so that
those sent are the ones before the first unsent.
-/

namespace Courier.Outbound

/-- A chunk picked for the wire. -/
structure Outgoing where
  dest : SocketAddr
  header : Chunk.Header
  resent : Bool
  payload : Bytes

namespace Outgoing

def packet (o : Outgoing) : Bytes := Chunk.packet o.header o.payload

end Outgoing

structure Message where
  sequence : UInt64
  dest : SocketAddr
  reliable : Bool
  /-- the payloads of its chunks in order -/
  pieces : Array Bytes
  acked : Std.TreeSet Nat := {}
  firstUnsent : Nat := 0
  /-- chunks handed to the socket and not yet written -/
  queued : Nat := 0
  /-- chunks of a reliable message that are sent and not acknowledged -/
  outstanding : Nat := 0
  stalledTicks : Nat := 0
  lost : List Nat := []

namespace Message

def total (m : Message) : Nat := m.pieces.size

def kind (m : Message) : Chunk.Kind := if m.reliable then .data else .lowPriority

def header (m : Message) (index : Nat) : Chunk.Header :=
  ⟨m.kind, m.sequence, UInt16.ofNat m.total, UInt16.ofNat index⟩

def chunk (m : Message) (index : Nat) (resent : Bool) : Outgoing :=
  ⟨m.dest, m.header index, resent, m.pieces.getD index []⟩

def allSent (m : Message) : Bool := m.firstUnsent == m.total

def allAcked (m : Message) : Bool := m.acked.size == m.total

/-- The limit counts chunks in flight for a reliable message, and chunks on
their way to the socket for a best-effort one. -/
def hasRoom (m : Message) (maxFlight : Nat) : Bool :=
  (if m.reliable then m.outstanding else m.queued) < maxFlight

/-- The next chunk that this message may put on the wire. Chunks to be sent
again go first and do not count towards the limit; those acknowledged in the
meantime are skipped. -/
def emit (m : Message) (maxFlight : Nat) : Option Outgoing × Message :=
  match m.lost.dropWhile (m.acked.contains ·) with
  | index :: rest =>
    (some (m.chunk index true), { m with lost := rest, queued := m.queued + 1 })
  | [] =>
    let m := { m with lost := [] }
    if m.allSent || !m.hasRoom maxFlight then (none, m)
    else
      let index := m.firstUnsent
      (some (m.chunk index false),
        { m with
          firstUnsent := index + 1
          queued := m.queued + 1
          outstanding := if m.reliable then m.outstanding + 1 else m.outstanding })

def markWritten (m : Message) : Message := { m with queued := m.queued - 1 }

/-- Takes an acknowledgement, if it is for a chunk that was sent and not yet
acknowledged. -/
def acknowledge? (m : Message) (total : UInt16) (index : Nat) : Option Message :=
  if m.reliable && total.toNat == m.total && index < m.firstUnsent && !m.acked.contains index then
    some { m with
      acked := m.acked.insert index
      outstanding := m.outstanding - 1
      stalledTicks := 0 }
  else none

/-- The chunks that are sent and not acknowledged, lowest first. -/
def unacked (m : Message) : List Nat :=
  (List.range m.firstUnsent).filter fun i => !m.acked.contains i

/-- Queues the chunks that are sent and not acknowledged, at most `maxFlight` of
them. -/
def requeueLost (m : Message) (maxFlight : Nat) : Message :=
  { m with lost := m.unacked.take maxFlight }

/-- How many chunks can still be emitted if nothing else happens. -/
def backlog (m : Message) : Nat := m.lost.length + (m.total - m.firstUnsent)

end Message

end Courier.Outbound
