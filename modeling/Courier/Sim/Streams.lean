import Courier.Sim.Datagrams

/-!
Commands to streams that nobody works on, to single connections, and to hubs.
-/

namespace Courier.Sim.World

open Courier.Stream (Connection)

/-! ## Streams -/

def withStream (w : World) (name : String) (f : Nat → Result) : Result :=
  match w.object? name with
  | some (.stream e) => f e
  | _ => w.fail .noObject

def connectStream (w : World) (name : String) (dest : SocketAddr) (source : Option SocketAddr) :
    Result :=
  match w.listenerAt? dest with
  | none => w.fail (.net .connectionRefused)
  | some listener =>
    let (source, w) := w.givePort (source.getD ⟨.loopback dest.family, 0, 0⟩)
    let (e, w) := w.connectFrom listener source
    (w.define name (.stream e)).answer .done

def listen (w : World) (name : String) (a : SocketAddr) : Result :=
  match w.bindListener a with
  | (.error e, w) => w.fail (.net e)
  | (.ok address, w) =>
    let n := w.listeners.size
    ({ w with listeners := w.listeners.push { address } }.define name (.listener n)).answer .done

def acceptStream (w : World) (name listener : String) : Result :=
  match w.object? listener with
  | some (.listener n) =>
    match (w.listeners[n]?).map (·.waiting) with
    | some (i :: rest) =>
      let w := w.updateListener n fun l => { l with waiting := rest }
      match i with
      | .stream e peer => (w.define name (.stream e)).answer (.address peer)
      | .failure => w.answer .nothing
    | _ => w.answer .nothing
  | _ => w.fail .noObject

def writeTo (w : World) (e : Nat) (data : Bytes) : Result :=
  let (written, w) := w.write e data
  w.answer (.flag written)

def readFrom (w : World) (e : Nat) : Result :=
  let (data, w) := w.readAll e
  w.answer (.streamRead data (w.isEndClosed (farEnd e)))

/-! ## Connections -/

def withConnection (w : World) (name : String) (f : Nat → Connection → Result) : Result :=
  match w.object? name with
  | some (.connection n) =>
    match w.roster[n]? with
    | some c => f n c
    | none => w.fail .noObject
  | _ => w.fail .noObject

/-- A connection that a peer opened, on one end of a new stream. -/
def defineAccepted (w : World) (name far : String) (context : Nat) (c : Config)
    (peer : SocketAddr) : Result :=
  let (e, w) := w.openStream
  let n := w.roster.size
  let w := { w with roster := w.roster.push (.accept c peer) }
  let w := w.startConnection { context, stream := some e }
  ((w.define name (.connection n)).define far (.stream (farEnd e))).answer .done

/-- A connection that this side opens. -/
def defineDialed (w : World) (name : String) (context : Nat) (c : Config) (peer : SocketAddr)
    (localPort : UInt16) : Result :=
  let n := w.roster.size
  let connection := Connection.dial c peer
  let w := { w with roster := w.roster.push connection }
  let w := w.startConnection { context, localPort }
  (w.define name (.connection n)).answer (.text connection.state.name)

def connectionState (w : World) (c : Connection) : Result :=
  w.answer (.connection c.state c.peer c.isDrained c.awaitingAck)

def receiveFrame (w : World) (n : Nat) (c : Connection) : Result :=
  match c.takeMessage with
  | none => w.answer .nothing
  | some (data, c) => (w.updateConnection n fun _ => c).answer (.data data)

def tickConnection (w : World) (n threshold : Nat) : Result :=
  ((w.updateConnection n (·.tick threshold)).wakeDue [n]).answer .done

/-! ## Connections and handles alike -/

def send (w : World) (name : String) (data : Bytes) : Result :=
  match w.object? name with
  | some (.connection n) | some (.streamHandle n) =>
    let (taken, roster) := w.roster.send n data
    ({ w with roster }.wakeDue [n]).answer (.flag taken)
  | some (.handle n dest reliable) =>
    match w.sockets[n]? with
    | none => w.fail .noObject
    | some s =>
      match w.enqueue n s dest data reliable with
      | .error .outOfRange => w.fail .halted
      | .error _ => w.answer (.flag false)
      | .ok (_, w) => w.answer (.flag true)
  | _ => w.fail .noObject

def close (w : World) (name : String) : Result :=
  match w.object? name with
  | some (.connection n) | some (.streamHandle n) =>
    ((w.updateConnection n Connection.close).wakeDue [n]).answer .done
  | some (.handle n dest _) =>
    (w.updateSocket n fun s => { s with channel := s.channel.dropTo dest }).answer .done
  | _ => w.fail .noObject

def handleState (w : World) (name : String) : Result :=
  match w.object? name with
  | some (.connection n) | some (.streamHandle n) =>
    match w.roster[n]? with
    | none => w.fail .noObject
    | some c => w.answer (.peer (.ofSocketAddr .tcp c.peer) c.isDisconnected)
  | some (.handle _ dest _) => w.answer (.peer (.ofSocketAddr .udp dest) false)
  | _ => w.fail .noObject

/-! ## Hubs -/

def withHub (w : World) (name : String) (f : Nat → Hub → Result) : Result :=
  match w.object? name with
  | some (.hub n) =>
    match w.hubs[n]? with
    | some h => f n h
    | none => w.fail .noObject
  | _ => w.fail .noObject

/-- A hub that does not listen. -/
def addQuietHub (w : World) (context : Nat) (c : Config) (pool : Stream.Pool Nat) :
    Nat × World :=
  let n := w.hubs.size
  let h : Hub :=
    { context, channel := { pool }, nextTick := w.now + c.keepaliveInterval.nanos }
  (n, { w with hubs := w.hubs.push h }.wake (.keepaliveTimer n))

/-- A hub that listens on an address that was given out by the network. -/
def addListeningHub (w : World) (context : Nat) (c : Config) (pool : Stream.Pool Nat)
    (address : SocketAddr) (track : Bool) : Nat × World :=
  let n := w.hubs.size
  let listener := w.listeners.size
  let h : Hub :=
    { context
      channel := { pool, inbound := { recent := if track then some [] else none } }
      address := some address
      listener := some listener
      accepting := true
      nextTick := w.now + c.keepaliveInterval.nanos }
  let w := { w with
    listeners := w.listeners.push { address, hub := some n }
    hubs := w.hubs.push h }
  (n, (w.wake (.acceptor n)).wake (.keepaliveTimer n))

/-- A hub, if it can be made, and the address that it listens on. -/
def addHub (w : World) (context : Nat) (c : Config) (listen : Option (SocketAddr × Bool)) :
    Except Failure (Nat × Option SocketAddr) × World :=
  match Stream.Pool.ofSize? c.poolSize with
  | none => (.error .halted, w)
  | some pool =>
    match listen with
    | none =>
      let (n, w) := w.addQuietHub context c pool
      (.ok (n, none), w)
    | some (a, track) =>
      match w.bindListener a with
      | (.error e, w) => (.error (.socket e), w)
      | (.ok address, w) =>
        let (n, w) := w.addListeningHub context c pool address track
        (.ok (n, some address), w)

def defineHub (w : World) (name : String) (context : Nat) (c : Config)
    (listen : Option (SocketAddr × Bool)) : Result :=
  match w.addHub context c listen with
  | (.error e, w) => w.fail e
  | (.ok (n, address), w) => (w.define name (.hub n)).answer (.listening address)

def connectPooled (w : World) (name : String) (n : Nat) (h : Hub) (c : Config)
    (peer : SocketAddr) (localPort : UInt16) : Result :=
  match h.channel.connect c w.roster peer with
  | none => w.fail (.poolExhausted c.poolSize)
  | some r =>
    let w := w.applyReach n h.context localPort r.closed r.opened r.rebuilt r.roster r.channel
    let state := ((w.roster[r.connection]?).map (·.state)).getD .disconnected
    (w.define name (.connection r.connection)).answer (.text state.name)

def inboundConnection (w : World) (name : String) (h : Hub) (peer : SocketAddr) : Result :=
  match h.channel.inboundConnection w.roster peer with
  | none => w.answer .nothing
  | some n => (w.define name (.connection n)).answer .done

def peerState (w : World) (h : Hub) (peer : SocketAddr) : Result :=
  w.answer (.pooling (h.channel.pool.contains peer) (h.channel.isDisconnected w.roster peer))

/-- Polls one side of a hub. -/
def pollHub (w : World) (n : Nat)
    (poll : Stream.Channel → Stream.Roster → Option Received × Stream.Roster × Stream.Channel) :
    Option Received × World :=
  match w.hubs[n]? with
  | none => (none, w)
  | some h =>
    let (message, roster, channel) := poll h.channel w.roster
    (message, { w with roster }.updateHub n fun h => { h with channel })

def teardownHub (w : World) (n : Nat) (h : Hub) : World :=
  let (closed, roster, channel) := h.channel.teardown w.roster
  ({ w with roster }.updateHub n fun h => { h with channel }).wakeDue closed

/-- Ends the tasks of a hub, waits until they have ended, and closes all its
connections. -/
def shutdownHub (w : World) (n : Nat) : World :=
  let w := w.endKeepalive n
  let w := ((w.updateHub n fun h => { h with cancelled := true }).wake (.acceptor n)).settle
  let w := passUntil (fun w => (w.hubs[n]?).all fun h => !h.accepting) settleFuel w
  match w.hubs[n]? with
  | none => w
  | some h =>
    let (closed, roster, channel) := h.channel.shutdown w.roster
    ({ w with roster }.updateHub n fun h => { h with channel }).wakeDue closed

end Courier.Sim.World
