import Courier.Outbound.Message

/-!
All messages that a datagram channel is sending. They stand in a ring that the
scheduler walks round-robin, one chunk at a time, so that a long message to one
peer does not hold up the others.
-/

namespace Courier.Outbound

/-- Why a message was not taken for sending. -/
inductive SendError where
  | empty
  | tooLarge (size limit : Nat)
  /-- the size limit or the message number is beyond a machine word -/
  | outOfRange
  deriving DecidableEq

namespace SendError

def message : SendError → String
  | empty => "refusing to send an empty message"
  | tooLarge size limit => s!"message of {size} bytes exceeds the maximum of {limit} bytes"
  | outOfRange => "a number is out of range"

end SendError

/-- What a resend tick did: how many chunks it scheduled again, which messages
it gave up, in ring order, and how many finished best-effort messages it
forgot. -/
structure Tick where
  resent : Nat := 0
  abandoned : List UInt64 := []
  purged : Nat := 0
  deriving DecidableEq

structure Queue where
  chunkSize : Nat
  maxFlight : Nat
  nextNumber : UInt64 := 0
  ring : List Message := []
  /-- where the next pass over the ring starts -/
  cursor : Nat := 0

namespace Queue

def length (q : Queue) : Nat := q.ring.length

def find? (q : Queue) (sequence : UInt64) : Option Message :=
  q.ring.find? (·.sequence == sequence)

def contains (q : Queue) (sequence : UInt64) : Bool := (q.find? sequence).isSome

/-- The largest message that fits the number of chunks, if it is a machine
word. -/
def maxMessageSize? (q : Queue) : Option Nat :=
  let n := Chunk.maxCount * q.chunkSize
  if n ≤ wordMax then some n else none

/-- Takes a message for sending and gives it the next number. -/
def register (q : Queue) (dest : SocketAddr) (data : Bytes) (reliable : Bool) :
    Except SendError (UInt64 × Queue) :=
  if data = [] then .error .empty
  else
    match q.maxMessageSize? with
    | none => .error .outOfRange
    | some limit =>
      if limit < data.length then .error (.tooLarge data.length limit)
      else if q.nextNumber.toNat = wordMax then .error .outOfRange
      else
        match Chunk.split? data q.chunkSize with
        | none => .error .outOfRange
        | some pieces =>
          let sequence := q.nextNumber
          let m : Message := { sequence, dest, reliable, pieces }
          .ok (sequence, { q with nextNumber := sequence + 1, ring := q.ring ++ [m] })

/-- The chunk of the first message that has one, the messages after that, and how
many of them were asked. -/
def emitFirst (maxFlight : Nat) : List Message → Option Outgoing × List Message × Nat
  | [] => (none, [], 0)
  | m :: rest =>
    match m.emit maxFlight with
    | (some chunk, m) => (some chunk, m :: rest, 1)
    | (none, m) =>
      let (chunk, rest, asked) := emitFirst maxFlight rest
      (chunk, m :: rest, asked + 1)

/-- The next chunk for the wire; nothing after one full pass without any. The
messages from the cursor on are asked first, then those before it, and the cursor
moves past each one asked. -/
def next (q : Queue) : Option Outgoing × Queue :=
  let place := if q.cursor < q.ring.length then q.cursor else 0
  match emitFirst q.maxFlight (q.ring.drop place) with
  | (some chunk, later, asked) =>
    (some chunk, { q with
      ring := q.ring.take place ++ later
      cursor := (place + asked) % q.ring.length })
  | (none, later, _) =>
    let (chunk, earlier, asked) := emitFirst q.maxFlight (q.ring.take place)
    (chunk, { q with ring := earlier ++ later, cursor := asked })

def update (q : Queue) (sequence : UInt64) (f : Message → Message) : Queue :=
  { q with ring := q.ring.map fun m => if m.sequence == sequence then f m else m }

/-- A chunk of the message went to the socket. -/
def markWritten (q : Queue) (sequence : UInt64) : Queue := q.update sequence Message.markWritten

/-- Takes a message out of the ring; the cursor stays at the message that it
pointed to. -/
def remove (q : Queue) (sequence : UInt64) : Queue :=
  match q.ring.findIdx? (·.sequence == sequence) with
  | none => q
  | some place =>
    let ring := q.ring.eraseIdx place
    let cursor := if place < q.cursor then q.cursor - 1 else q.cursor
    { q with ring, cursor := if cursor < ring.length then cursor else 0 }

/-- Handles an acknowledgement and tells whether it made progress. Those that
match no chunk in flight are ignored. -/
def acknowledge (q : Queue) (ack : Chunk.Header) : Bool × Queue :=
  match (q.find? ack.sequence).bind (·.acknowledge? ack.total ack.index.toNat) with
  | none => (false, q)
  | some m =>
    let q := q.update ack.sequence fun _ => m
    (true, if m.allAcked then q.remove ack.sequence else q)

/-- What a tick makes of one message: whether it is removed, the message as it
stays, and its part of the outcome. -/
def tickMessage (maxFlight tickThreshold threshold : Nat) (m : Message) : Bool × Message × Tick :=
  if !m.reliable then
    if m.allSent && m.queued == 0 then (true, m, { purged := 1 }) else (false, m, {})
  else
    let m := { m with stalledTicks := m.stalledTicks + 1 }
    if threshold ≤ m.stalledTicks then (true, m, { abandoned := [m.sequence] })
    else if tickThreshold ≤ m.stalledTicks then
      let m := m.requeueLost maxFlight
      (false, m, { resent := m.lost.length })
    else (false, m, {})

def tick (q : Queue) (tickThreshold threshold : Nat) : Tick × Queue :=
  let seen := q.ring.map (tickMessage q.maxFlight tickThreshold threshold)
  let outcome := seen.foldl (fun t (_, _, u) =>
    ⟨t.resent + u.resent, t.abandoned ++ u.abandoned, t.purged + u.purged⟩) ({} : Tick)
  let gone := (seen.filter (·.1)).map (·.2.1.sequence)
  (outcome, gone.foldl remove { q with ring := seen.map (·.2.1) })

/-- Drops all messages to a peer and tells how many there were. -/
def dropTo (q : Queue) (dest : SocketAddr) : Nat × Queue :=
  let gone := (q.ring.filter (·.dest == dest)).map (·.sequence)
  (gone.length, gone.foldl remove q)

/-- A bound on the chunks that can be emitted if nothing else happens. -/
def backlog (q : Queue) : Nat := q.ring.foldl (fun n m => n + m.backlog) 0

/-- At most `fuel` chunks in the order of the scheduler. With `written`, each is
written before the next one is picked. -/
def drainOf (written : Bool) : (fuel : Nat) → Queue → Array Outgoing → Array Outgoing × Queue
  | 0, q, chunks => (chunks, q)
  | fuel + 1, q, chunks =>
    match q.next with
    | (none, q) => (chunks, q)
    | (some chunk, q) =>
      let q := if written then q.markWritten chunk.header.sequence else q
      drainOf written fuel q (chunks.push chunk)

/-- Everything that may be sent now, or the first `limit` chunks of it. -/
def drain (q : Queue) (written : Bool) (limit : Option Nat) : Array Outgoing × Queue :=
  drainOf written (limit.getD (q.backlog + 1)) q #[]

end Queue

end Courier.Outbound
