import Courier.Net.Ip

/-!
A fixed number of slots for connections that this side opens, and which slot
belongs to which peer. A slot is handed out again once its connection is
disconnected. A connection that left its slot may still hold received messages,
and it is kept until it has none. Connections are known by handles of any type;
what is live, and what has a message waiting, is told by the caller.
-/

namespace Courier.Stream

structure Pool (κ : Type) where
  slots : Array (Option κ)
  /-- the slot of each peer -/
  slotByPeer : List (SocketAddr × Nat) := []
  /-- the slot that is polled next -/
  cursor : Nat := 0
  /-- connections that left their slots, the oldest first -/
  released : List κ := []

namespace Pool

variable {κ : Type}

/-- A pool without connections. -/
def empty (size : Nat) : Pool κ where
  slots := Array.replicate size none

/-- A pool without connections, if its slots fit into memory. -/
def ofSize? (size : Nat) : Option (Pool κ) :=
  if size < 0x1000000000000000 then some (.empty size) else none

def size (p : Pool κ) : Nat := p.slots.size

def slot? (p : Pool κ) (i : Nat) : Option κ := (p.slots[i]?).join

def slotOf? (p : Pool κ) (addr : SocketAddr) : Option Nat := p.slotByPeer.lookup addr

def contains (p : Pool κ) (addr : SocketAddr) : Bool := (p.slotOf? addr).isSome

/-- The connections in the slots, in the order of the slots. -/
def connections (p : Pool κ) : List κ := p.slots.toList.filterMap id

/-- Empties a slot. Its connection, if it had one, is the second result, and has
to be closed. -/
def release (p : Pool κ) (i : Nat) : Pool κ × Option κ :=
  let p' := { p with slotByPeer := p.slotByPeer.filter (·.2 ≠ i) }
  match p.slot? i with
  | none => (p', none)
  | some k =>
    ({ p' with slots := p.slots.setIfInBounds i none, released := p.released ++ [k] }, some k)

/-- Empties several slots in order. -/
def releaseAll (p : Pool κ) (places : List Nat) : Pool κ × List κ :=
  places.foldl (fun (p, closed) i =>
    let (p, k) := p.release i
    (p, closed ++ k.toList)) (p, [])

/-- What the wish for a connection to a peer came to. -/
structure Attempt (κ : Type) where
  /-- the connection, and whether it is a new one; nothing if all slots hold live
  connections -/
  found : Option (κ × Bool)
  /-- the connections that were closed on the way -/
  closed : List κ
  pool : Pool κ

/-- Whether a slot can be handed out. -/
def isFree (live : κ → Bool) : Option κ → Bool
  | none => true
  | some k => !live k

/-- Puts a connection to a peer into a slot. -/
def seat (p : Pool κ) (i : Nat) (addr : SocketAddr) (k : κ) : Pool κ :=
  { p with slots := p.slots.setIfInBounds i (some k), slotByPeer := (addr, i) :: p.slotByPeer }

/-- Hands the first free slot to a peer. There may be none. -/
def assign (p : Pool κ) (live : κ → Bool) (addr : SocketAddr) (fresh : κ) : Attempt κ :=
  match p.slots.findIdx? (isFree live) with
  | none => ⟨none, [], p⟩
  | some i =>
    let (p, k) := p.release i
    ⟨some (fresh, true), k.toList, p.seat i addr fresh⟩

/-- Looks for the live connection to a peer; without one, the slot of the peer is
emptied, and `fresh` goes into a free slot. -/
def attempt (p : Pool κ) (live : κ → Bool) (addr : SocketAddr) (fresh : κ) : Attempt κ :=
  match p.slotOf? addr with
  | none => p.assign live addr fresh
  | some i =>
    match (p.slot? i).filter live with
    | some k => ⟨some (k, false), [], p⟩
    | none =>
      let (p, k) := p.release i
      let t := p.assign live addr fresh
      { t with closed := k.toList ++ t.closed }

/-- A connection for a peer, whether it is a new one, and the connections that
had to be closed for it. -/
structure Acquired (κ : Type) where
  connection : κ
  opened : Bool
  closed : List κ
  pool : Pool κ

/-- The live connection to a peer, or else `fresh` in a free slot. Nothing if all
slots hold live connections. -/
def acquire (p : Pool κ) (live : κ → Bool) (addr : SocketAddr) (fresh : κ) :
    Option (Acquired κ) :=
  let t := p.attempt live addr fresh
  t.found.map fun (connection, opened) => ⟨connection, opened, t.closed, t.pool⟩

/-- Empties the slots of disconnected connections; the second result are these. -/
def cleanup (p : Pool κ) (live : κ → Bool) : Pool κ × List κ :=
  let dead (i : Nat) : Bool := (p.slot? i).any fun k => !live k
  p.releaseAll ((List.range p.size).filter dead)

/-- Empties all slots; the second result are their connections. -/
def teardown (p : Pool κ) : Pool κ × List κ :=
  let (p, closed) := p.releaseAll (List.range p.size)
  ({ p with cursor := 0 }, closed)

/-- What a poll came to: the connection to take a message from, and all that were
asked for one. -/
structure Polled (κ : Type) where
  yielding : Option κ
  asked : List κ
  pool : Pool κ

/-- Asks up to `tries` slots from the cursor on. -/
def pollSlots (waiting : κ → Bool) : (tries : Nat) → Pool κ → (asked : List κ) → Polled κ
  | 0, p, asked => ⟨none, asked, p⟩
  | tries + 1, p, asked =>
    let found := p.slot? p.cursor
    let p := { p with cursor := (p.cursor + 1) % p.size }
    match found with
    | none => pollSlots waiting tries p asked
    | some k =>
      if waiting k then ⟨some k, asked ++ [k], p⟩ else pollSlots waiting tries p (asked ++ [k])

/-- Asks connections that left their slots first, and lets go of those that have
nothing; then the slots, from the one after the last that yielded. -/
def poll (p : Pool κ) (waiting : κ → Bool) : Polled κ :=
  let drained := p.released.takeWhile (!waiting ·)
  match p.released.dropWhile (!waiting ·) with
  | k :: rest => ⟨some k, drained ++ [k], { p with released := k :: rest }⟩
  | [] => pollSlots waiting p.size { p with released := [] } drained

end Pool

end Courier.Stream
