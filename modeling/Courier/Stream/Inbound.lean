import Courier.Net.Ip

/-!
The connections that peers opened to this side, in the order in which they were
accepted. They are polled in turn; where recent activity is tracked, the peers
that sent something are looked at first. Connections are known by handles of any
type.
-/

namespace Courier.Stream

structure Inbound (κ : Type) where
  connections : List κ := []
  /-- the place that is polled next -/
  cursor : Nat := 0
  /-- the peers of received messages, the oldest first, if they are tracked -/
  recent : Option (List SocketAddr) := none

namespace Inbound

variable {κ : Type}

def add (r : Inbound κ) (k : κ) : Inbound κ := { r with connections := r.connections ++ [k] }

/-- Notes that a peer sent `n` messages. -/
def noteActivity (r : Inbound κ) (addr : SocketAddr) (n : Nat) : Inbound κ :=
  { r with recent := r.recent.map (· ++ List.replicate n addr) }

/-- The connection of a peer. A closed one that still holds messages can share
its peer with a newer one, so a live one is preferred. -/
def find? (r : Inbound κ) (peer : κ → SocketAddr) (live : κ → Bool) (addr : SocketAddr) :
    Option κ :=
  let matching := r.connections.filter (peer · == addr)
  (matching.find? live).or matching.head?

/-- Looks at the peers that sent something, the oldest first, until one has a
message waiting in its first connection. The other results are the peers still
to be looked at. -/
def pollRecent (r : Inbound κ) (peer : κ → SocketAddr) (waiting : κ → Bool) :
    List SocketAddr → Option κ × List SocketAddr
  | [] => (none, [])
  | addr :: rest =>
    match (r.connections.find? (peer · == addr)).filter waiting with
    | some k => (some k, rest)
    | none => pollRecent r peer waiting rest

/-- Asks up to `tries` connections from the cursor on. -/
def pollTurn (waiting : κ → Bool) : (tries : Nat) → Inbound κ → Option κ × Inbound κ
  | 0, r => (none, r)
  | tries + 1, r =>
    let place := if r.cursor < r.connections.length then r.cursor else 0
    let r' := { r with cursor := place + 1 }
    match (r.connections[place]?).filter waiting with
    | some k => (some k, r')
    | none => pollTurn waiting tries r'

/-- The connection to take the next message from. -/
def poll (r : Inbound κ) (peer : κ → SocketAddr) (waiting : κ → Bool) : Option κ × Inbound κ :=
  match r.recent with
  | none => pollTurn waiting r.connections.length r
  | some recent =>
    match pollRecent r peer waiting recent with
    | (some k, rest) => (some k, { r with recent := some rest })
    | (none, rest) => pollTurn waiting r.connections.length { r with recent := some rest }

/-- Forgets connections that are disconnected and hold no messages. -/
def cleanup (r : Inbound κ) (live waiting : κ → Bool) : Inbound κ :=
  { r with connections := r.connections.filter fun k => live k || waiting k }

end Inbound

end Courier.Stream
