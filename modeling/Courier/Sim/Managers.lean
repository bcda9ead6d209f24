import Courier.AddressOptions
import Courier.Sim.Streams

/-!
Commands to managers. A manager owns one datagram channel and one hub, sends each
message by the protocol of its address, and merges what it receives from all
sources.
-/

namespace Courier.Sim.World

def withManager (w : World) (name : String) (f : Nat → Manager → Config → Result) : Result :=
  match w.object? name with
  | some (.manager n) =>
    match w.managers[n]? with
    | none => w.fail .noObject
    | some m =>
      match w.config? m.context with
      | none => w.fail .noObject
      | some c => f n m c
  | _ => w.fail .noObject

/-! ## Start -/

/-- Reads an address of one protocol, and resolves its host. -/
def resolveAddress (w : World) (r : Resolver) (a : Address) :
    Except Failure SocketAddr × Resolver × World :=
  let (result, r, w) := w.resolve r a.host
  match result with
  | .ok ip => (.ok ⟨ip, a.port, 0⟩, r, w)
  | .error e => (.error (.resolve e), r, w)

/-- Binds the socket that a manager is to use for datagrams. -/
def bindDatagrams (w : World) (r : Resolver) (text : String) :
    Except Failure SocketAddr × Resolver × World :=
  match Address.parse text [] with
  | .error e => (.error (.address e), r, w)
  | .ok a =>
    if a.protocol ≠ .udp then (.error (.notDatagram a.endpoint), r, w)
    else
      match w.resolveAddress r a with
      | (.error e, r, w) => (.error e, r, w)
      | (.ok address, r, w) =>
        match w.bindSocket address with
        | (.error e, w) => (.error (.socket e), r, w)
        | (.ok address, w) => (.ok address, r, w)

/-- Where a manager is to listen, and whether it tracks activity. -/
def planListen (w : World) (r : Resolver) (text : Option String) :
    Except Failure (Option (SocketAddr × Bool)) × Resolver × World :=
  match text with
  | none => (.ok none, r, w)
  | some text =>
    match Address.parse text Address.listenDefaults with
    | .error e => (.error (.address e), r, w)
    | .ok a =>
      if a.protocol ≠ .tcp then (.error (.notStream a.endpoint), r, w)
      else if !a.listens then (.ok none, r, w)
      else
        match w.resolveAddress r a with
        | (.error e, r, w) => (.error e, r, w)
        | (.ok address, r, w) => (.ok (some (address, a.tracksIncoming)), r, w)

/-- Puts a manager into the world, on an address that was bound for it. -/
def addManager (w : World) (name : String) (context : Nat) (c : Config) (r : Resolver)
    (address : SocketAddr) (listen : Option (SocketAddr × Bool)) : Result :=
  let (socket, started) := w.addSocket context c address
  match started.addHub context c listen with
  | (.error e, w) => w.fail e
  | (.ok (hub, streams), w) =>
    let n := w.managers.size
    let m : Manager := { context, socket, hub, resolver := r }
    ({ w with managers := w.managers.push m }.define name (.manager n)).answer
      (.managed address streams)

def defineManager (w : World) (name datagrams : String) (streams : Option String) (c : Config) :
    Result :=
  match Context.ofConfig? c with
  | .error .windowOutOfRange => w.fail .halted
  | .error e => w.fail (.config e)
  | .ok context =>
    let (context, w) := w.addContext context
    match w.bindDatagrams {} datagrams with
    | (.error e, _, w) => w.fail e
    | (.ok address, r, w) =>
      match w.planListen r streams with
      | (.error e, _, w) => w.fail e
      | (.ok listen, r, w) => w.addManager name context c r address listen

/-! ## Sending -/

/-- How far a send is after its first step. -/
inductive Begun where
  | finished (taken : Bool)
  | waiting (call : Nat)
  | halted

/-- The instant that ends a wait, if the clock reaches that far. -/
def deadline? (w : World) (wait : Duration) : Option Instant :=
  if wait.beyondClock then none else some (w.now + wait.nanos)

def sendDatagrams (w : World) (n : Nat) (m : Manager) (a : Address) (data : Bytes)
    (robust : Bool) (wait : Option Duration) : Begun × World :=
  match w.sockets[m.socket]? with
  | none => (.finished false, w)
  | some s =>
    match w.resolvePeer m.socket s a.host with
    | (.error _, w) => (.finished false, w)
    | (.ok ip, w) =>
      match w.sockets[m.socket]? with
      | none => (.finished false, w)
      | some s =>
        match w.enqueue m.socket s ⟨ip, a.port, 0⟩ data robust with
        | .error .outOfRange => (.halted, w)
        | .error _ => (.finished false, w)
        | .ok (sequence, w) =>
          match wait with
          | none => (.finished true, w)
          | some wait =>
            match w.deadline? wait with
            | none => (.halted, w)
            | some deadline =>
              let awaited := Awaited.sent m.socket sequence
              let (call, w) := w.addCall { awaited, deadline, manager := some n }
              (.waiting call, w)

/-- Whether a manager puts a message into the queue of its router at all. -/
def isRoutable (c : Config) (data : Bytes) : Bool :=
  !data.isEmpty && data.length ≤ c.maxFrameSize

def sendStream (w : World) (n : Nat) (m : Manager) (c : Config) (a : Address) (data : Bytes)
    (wait : Option Duration) : Begun × World :=
  match a.localPort with
  | .error _ => (.finished false, w)
  | .ok localPort =>
    if !isRoutable c data || !m.routing then (.finished false, w)
    else
      let push (w : World) (caller : Option Nat) : World :=
        let item : Item := { host := a.host, port := a.port, localPort, data, caller }
        (w.updateManager n fun m => { m with queue := m.queue ++ [item] }).wake (.router n)
      match wait with
      | none => (.finished true, push w none)
      | some wait =>
        let deadline := wait.sleepEnd w.now
        let (call, w) := w.addCall { awaited := .delivered, deadline, manager := some n }
        (.waiting call, push w (some call))

/-- Sends a message by the protocol of its address. -/
def beginSend (w : World) (n : Nat) (m : Manager) (c : Config) (dest : String) (data : Bytes)
    (robust : Bool) : Begun × World :=
  match Address.parse dest [] with
  | .error _ => (.finished false, w)
  | .ok a =>
    match a.waitLimit c.defaultBlockTimeout with
    | .error _ => (.finished false, w)
    | .ok wait =>
      match a.protocol with
      | .udp => w.sendDatagrams n m a data robust wait
      | .tcp => w.sendStream n m c a data wait

/-- A call that ended as soon as it started. -/
def startFinished (w : World) (progress : Progress) (job : Option String) : Result :=
  let (call, w) := w.addCall { awaited := .delivered, deadline := 0, progress }
  w.startCall call job

def managerSend (w : World) (n : Nat) (m : Manager) (c : Config) (dest : String) (data : Bytes)
    (robust : Bool) (job : Option String) : Result :=
  match w.beginSend n m c dest data robust, job with
  | (.halted, w), none => w.fail .halted
  | (.halted, w), some _ => w.startFinished .spent job
  | (.finished taken, w), none => w.answer (.flag taken)
  | (.finished taken, w), some _ => w.startFinished (.finished taken) job
  | (.waiting call, w), _ => w.startCall call job

/-! ## Receiving -/

/-- Polls one source of a manager. -/
def pollSource (m : Manager) : Source → World → Option Received × World
  | .datagrams, w => w.takeMessage m.socket
  | .inbound, w => w.pollHub m.hub fun ch r => ch.pollInbound r
  | .outbound, w => w.pollHub m.hub fun ch r => ch.pollOutbound r

def managerReceive (w : World) (n : Nat) (m : Manager) (c : Config) : Option Received × World :=
  let listening := (w.hubs[m.hub]?).any (·.address.isSome)
  let (message, turn, w) :=
    pollRound c.datagramPollRatio listening (pollSource m) m.turn w
  (message, w.updateManager n fun m => { m with turn })

/-! ## Connections -/

/-- Resolves the host of a stream address for a manager. -/
def resolveStream (w : World) (n : Nat) (m : Manager) (a : Address) :
    Option SocketAddr × World :=
  let (result, resolver, w) := w.resolve m.resolver a.host
  let w := w.updateManager n fun m => { m with resolver }
  match result with
  | .ok ip => (some ⟨ip, a.port, 0⟩, w)
  | .error _ => (none, w)

/-- The pooled connection to a peer whose address was resolved. -/
def reachPeer (w : World) (m : Manager) (c : Config) (a : Address) (peer : SocketAddr) :
    Option Nat × World :=
  match a.localPort, w.hubs[m.hub]? with
  | .ok localPort, some h =>
    match h.channel.reach c w.roster peer with
    | none => (none, w)
    | some r =>
      (some r.connection,
        w.applyReach m.hub m.context localPort r.closed r.opened r.rebuilt r.roster r.channel)
  | _, _ => (none, w)

def managerConnect (w : World) (n : Nat) (m : Manager) (c : Config) (dest : String) : Result :=
  match Address.parse dest [] with
  | .error _ => w.answer (.flag false)
  | .ok a =>
    if a.protocol ≠ .tcp then w.answer (.flag false)
    else
      match w.resolveStream n m a with
      | (none, w) => w.answer (.flag false)
      | (some peer, w) =>
        match w.reachPeer m c a peer with
        | (none, w) => w.answer (.flag false)
        | (some k, w) => w.answer (.flag (w.roster.live k))

/-- A handle for a peer of the datagram channel. -/
def datagramHandle (w : World) (name : String) (m : Manager) (a : Address) (robust : Bool) :
    Result :=
  match w.sockets[m.socket]? with
  | none => w.answer .nothing
  | some s =>
    match w.resolvePeer m.socket s a.host with
    | (.error _, w) => w.answer .nothing
    | (.ok ip, w) => (w.define name (.handle m.socket ⟨ip, a.port, 0⟩ robust)).answer .done

/-- The connection that a peer opened, or else the pooled one. -/
def streamHandle (w : World) (name : String) (n : Nat) (m : Manager) (c : Config)
    (a : Address) : Result :=
  match w.resolveStream n m a with
  | (none, w) => w.answer .nothing
  | (some peer, w) =>
    match (w.hubs[m.hub]?).bind fun h => h.channel.inboundConnection w.roster peer with
    | some k => (w.define name (.streamHandle k)).answer .done
    | none =>
      match w.reachPeer m c a peer with
      | (none, w) => w.answer .nothing
      | (some k, w) => (w.define name (.streamHandle k)).answer .done

def managerConnection (w : World) (name : String) (n : Nat) (m : Manager) (c : Config)
    (dest : String) (robust : Bool) : Result :=
  match Address.parse dest [] with
  | .error _ => w.answer .nothing
  | .ok a =>
    match a.protocol with
    | .udp => w.datagramHandle name m a robust
    | .tcp => w.streamHandle name n m c a

/-- Whether a peer has no live connection that it opened itself. -/
def managerDisconnected (w : World) (n : Nat) (m : Manager) (dest : String) : Result :=
  match Address.parse dest [] with
  | .error _ => w.answer (.flag true)
  | .ok a =>
    if a.protocol ≠ .tcp then w.answer (.flag true)
    else
      match w.resolveStream n m a with
      | (none, w) => w.answer (.flag true)
      | (some peer, w) =>
        w.answer (.flag ((w.hubs[m.hub]?).all fun h => h.channel.isDisconnected w.roster peer))

def shutdownManager (w : World) (n : Nat) (m : Manager) : World :=
  let w := w.updateManager n fun m => { m with routing := false }
  (w.shutdownHub m.hub).stopSocket m.socket

end Courier.Sim.World
