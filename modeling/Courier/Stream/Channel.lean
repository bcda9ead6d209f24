import Courier.Received
import Courier.Stream.Connection
import Courier.Stream.Inbound
import Courier.Stream.Pool

/-!
All stream connections of a transport: a pool of those that this side opens, and
those that peers opened to it. The connections themselves stand in a roster, in
which others may hold them too; a handle is a place in the roster.
-/

namespace Courier.Stream

abbrev Roster := Array Connection

namespace Roster

def live (r : Roster) (n : Nat) : Bool := (r[n]?).any Connection.isLive

/-- Whether a connection has a received message. -/
def waiting (r : Roster) (n : Nat) : Bool := (r[n]?).any fun c => !c.isDrained

def peer (r : Roster) (n : Nat) : SocketAddr :=
  match r[n]? with
  | some c => c.peer
  | none => ⟨.unspecified .v4, 0, 0⟩

def update (r : Roster) (n : Nat) (f : Connection → Connection) : Roster := r.modify n f

def closeAll (r : Roster) (ns : List Nat) : Roster :=
  ns.foldl (fun r n => r.update n Connection.close) r

def send (r : Roster) (n : Nat) (data : Bytes) : Bool × Roster :=
  match r[n]? with
  | none => (false, r)
  | some c =>
    let (taken, c) := c.send data
    (taken, r.setIfInBounds n c)

/-- Takes the oldest message of a connection. -/
def take (r : Roster) (n : Nat) : Option (Received × Roster) := do
  let c ← r[n]?
  let (data, c) ← c.takeMessage
  pure (⟨.ofSocketAddr .tcp c.peer, data, true⟩, r.setIfInBounds n c)

end Roster

structure Channel where
  pool : Pool Nat
  inbound : Inbound Nat := {}

/-- A pooled connection that was asked for, and what had to be done to get it. -/
structure Reached where
  connection : Nat
  opened : Bool
  closed : List Nat
  /-- the pool was full and had to be torn down -/
  rebuilt : Bool := false
  roster : Roster
  channel : Channel

/-- What became of a message on its way to a connection. -/
structure Delivery where
  taken : Bool
  /-- the connections that were closed, and then the one that was used -/
  closed : List Nat := []
  connection : Option Nat := none
  opened : Bool := false
  rebuilt : Bool := false
  roster : Roster
  channel : Channel

namespace Channel

/-- The live connection that a peer opened to this side. -/
def inboundConnection (ch : Channel) (r : Roster) (peer : SocketAddr) : Option Nat :=
  (ch.inbound.find? r.peer r.live peer).filter r.live

def isDisconnected (ch : Channel) (r : Roster) (peer : SocketAddr) : Bool :=
  (ch.inboundConnection r peer).isNone

/-- The pooled connection to a peer, opened if there is none. Nothing if the pool
is full. -/
def connect (ch : Channel) (c : Config) (r : Roster) (peer : SocketAddr) : Option Reached :=
  (ch.pool.acquire r.live peer r.size).map fun a =>
    let r := r.closeAll a.closed
    { connection := a.connection
      opened := a.opened
      closed := a.closed
      roster := if a.opened then r.push (.dial c peer) else r
      channel := { ch with pool := a.pool } }

/-- Closes all pooled connections. -/
def teardown (ch : Channel) (r : Roster) : List Nat × Roster × Channel :=
  let (pool, closed) := ch.pool.teardown
  (closed, r.closeAll closed, { ch with pool })

/-- The pooled connection to a peer. A full pool is torn down and rebuilt once. -/
def reach (ch : Channel) (c : Config) (r : Roster) (peer : SocketAddr) : Option Reached :=
  match ch.connect c r peer with
  | some reached => some reached
  | none =>
    let (closed, r, ch) := ch.teardown r
    (ch.connect c r peer).map fun reached =>
      { reached with closed := closed ++ reached.closed, rebuilt := true }

/-- Sends a message on the pooled connection to a peer. -/
def deliverPooled (ch : Channel) (c : Config) (r : Roster) (peer : SocketAddr) (data : Bytes) :
    Delivery :=
  match ch.reach c r peer with
  | none => { taken := false, rebuilt := true, roster := r, channel := ch }
  | some reached =>
    let (taken, r) := reached.roster.send reached.connection data
    { taken
      closed := reached.closed
      connection := some reached.connection
      opened := reached.opened
      rebuilt := reached.rebuilt
      roster := r
      channel := reached.channel }

/-- Sends a message to a peer: on the connection that the peer opened if that
takes it, and otherwise on the pooled one. -/
def deliver (ch : Channel) (c : Config) (r : Roster) (peer : SocketAddr) (data : Bytes) :
    Delivery :=
  match ch.inboundConnection r peer with
  | none => ch.deliverPooled c r peer data
  | some n =>
    match r.send n data with
    | (true, r) => { taken := true, connection := some n, roster := r, channel := ch }
    | (false, r) => ch.deliverPooled c r peer data

/-- The next message of the connections that peers opened. -/
def pollInbound (ch : Channel) (r : Roster) : Option Received × Roster × Channel :=
  let (found, inbound) := ch.inbound.poll r.peer r.waiting
  let ch := { ch with inbound }
  match found.bind r.take with
  | some (message, r) => (some message, r, ch)
  | none => (none, r, ch)

/-- The next message of the pooled connections. -/
def pollOutbound (ch : Channel) (r : Roster) : Option Received × Roster × Channel :=
  let polled := ch.pool.poll r.waiting
  let ch := { ch with pool := polled.pool }
  match polled.yielding.bind r.take with
  | some (message, r) => (some message, r, ch)
  | none => (none, r, ch)

/-- The connections that a keepalive tick looks at, in order. -/
def connections (ch : Channel) : List Nat := ch.inbound.connections ++ ch.pool.connections

/-- A tick of the keepalive timer: every connection gets one, and then those that
are disconnected make room. -/
def tick (ch : Channel) (r : Roster) (threshold : Nat) : Roster × Channel :=
  let r := ch.connections.foldl (fun r n => r.update n (·.tick threshold)) r
  let (pool, closed) := ch.pool.cleanup r.live
  let r := r.closeAll closed
  (r, { ch with pool, inbound := ch.inbound.cleanup r.live r.waiting })

/-- Closes every connection, and forgets those that peers opened. -/
def shutdown (ch : Channel) (r : Roster) : List Nat × Roster × Channel :=
  let (closed, r, ch) := ch.teardown r
  let accepted := ch.inbound.connections
  (closed ++ accepted, r.closeAll accepted,
    { ch with inbound := { ch.inbound with connections := [] } })

end Channel

end Courier.Stream
