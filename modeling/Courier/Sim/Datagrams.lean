import Courier.Sim.Command
import Courier.Sim.Schedule

/-!
Commands to the network itself, to resolvers, and to datagram channels.
-/

namespace Courier.Sim

/-- What a command came to, and the world after it. -/
abbrev Result := Except Failure Answer × World

namespace World

def answer (w : World) (a : Answer) : Result := (.ok a, w)

def fail (w : World) (f : Failure) : Result := (.error f, w)

/-! ## Time and network -/

/-- The traffic of a log, with the sockets in the order of their first datagrams. -/
def trafficOf (log : List Sent) : List Traffic :=
  let sources := (log.map (·.source)).eraseDups
  let isAck (s : Sent) := match Chunk.Header.decode s.packet with
    | .ok (h, _) => h.kind = .ack
    | .error _ => false
  sources.map fun source =>
    let (acks, chunks) := (log.filter (·.source == source)).partition isAck
    ⟨source, chunks, acks⟩

def datagram (w : World) (source dest : SocketAddr) (packet : Bytes) : Result :=
  match w.socketAt? dest with
  | none => w.answer (.flag false)
  | some n => (w.arrive n source packet).answer (.flag true)

/-- Makes an accept of a listener fail, after those for what waits already. -/
def failAccept (w : World) (dest : SocketAddr) : Result :=
  match w.listenerAt? dest with
  | none => w.answer (.flag false)
  | some n => (w.arriveAt n .failure).answer (.flag true)

/-- The outcome of a call in the background, reported once. -/
def join (w : World) (job : String) : Result :=
  match w.object? job with
  | some (.job n) =>
    match w.calls[n]? with
    | none => w.fail .noObject
    | some c =>
      match c.progress with
      | .waiting => w.answer .pending
      | .finished b => (w.updateCall n fun c => { c with progress := .spent }).answer (.flag b)
      | .spent => w.answer .gone
  | _ => w.fail .noObject

def addContext (w : World) (c : Context) : Nat × World :=
  (w.contexts.size, { w with contexts := w.contexts.push c })

def defineContext (w : World) (name : String) (c : Config) : Result :=
  match Context.ofConfig? c with
  | .error .windowOutOfRange => w.fail .halted
  | .error e => w.fail (.config e)
  | .ok context =>
    let (n, w) := w.addContext context
    (w.define name (.context n)).answer .done

/-- Does something with the context of a name. -/
def withContext (w : World) (name : String) (f : Nat → Context → Result) : Result :=
  match w.object? name with
  | some (.context n) =>
    match w.contexts[n]? with
    | some c => f n c
    | none => w.fail .noObject
  | _ => w.fail .noObject

/-! ## Resolvers -/

def withResolver (w : World) (name : String) (f : Nat → Resolver → Result) : Result :=
  match w.object? name with
  | some (.resolver n) =>
    match w.resolvers[n]? with
    | some r => f n r
    | none => w.fail .noObject
  | _ => w.fail .noObject

def defineResolver (w : World) (name : String) (family : Option Ip.Family) : Result :=
  let n := w.resolvers.size
  ({ w with resolvers := w.resolvers.push { family } }.define name (.resolver n)).answer .done

/-- The answer to a host that was resolved. -/
def answerResolved (w : World) (result : Except ResolveError Ip) (port : UInt16) : Result :=
  match result with
  | .ok ip => w.answer (.address ⟨ip, port, 0⟩)
  | .error e => w.fail (.resolve e)

def resolveWith (w : World) (n : Nat) (r : Resolver) (host : String) (port : UInt16) : Result :=
  let (result, r, w) := w.resolve r host
  { w with resolvers := w.resolvers.setIfInBounds n r }.answerResolved result port

/-! ## Datagram channels -/

def withSocket (w : World) (name : String) (f : Nat → Socket → Result) : Result :=
  match w.object? name with
  | some (.socket n) =>
    match w.sockets[n]? with
    | some s => f n s
    | none => w.fail .noObject
  | _ => w.fail .noObject

/-- A channel on a socket that was bound to an address. Its tasks start. -/
def addSocket (w : World) (context : Nat) (c : Config) (address : SocketAddr) : Nat × World :=
  let n := w.sockets.size
  let s : Socket :=
    { context
      address
      channel := .ofConfig c address.family
      tasks := [.datagramReader n, .datagramSender n, .resendTimer n]
      nextTick := w.now + c.resendInterval.nanos }
  (n, s.tasks.foldl wake { w with sockets := w.sockets.push s })

def defineSocket (w : World) (name : String) (context : Nat) (c : Config) (a : SocketAddr) :
    Result :=
  match w.bindSocket a with
  | (.error e, w) => w.fail (.socket e)
  | (.ok address, w) =>
    let (n, w) := w.addSocket context c address
    (w.define name (.socket n)).answer (.address address)

/-- Queues a message on a socket's channel. -/
def enqueue (w : World) (n : Nat) (s : Socket) (dest : SocketAddr) (data : Bytes)
    (reliable : Bool) : Except Outbound.SendError (UInt64 × World) :=
  (s.channel.send dest data reliable).map fun (sequence, channel) =>
    (sequence, (w.updateSocket n fun s => { s with channel }).wake (.datagramSender n))

def sendMessage (w : World) (n : Nat) (s : Socket) (dest : SocketAddr) (data : Bytes)
    (reliable : Bool) : Result :=
  match w.enqueue n s dest data reliable with
  | .error .outOfRange => w.fail .halted
  | .error e => w.fail (.send e)
  | .ok (sequence, w) => w.answer (.sequence sequence)

/-- Takes the oldest message from a socket's channel. -/
def takeMessage (w : World) (n : Nat) : Option Received × World :=
  match (w.sockets[n]?).map (·.inbox) with
  | some (message :: rest) => (some message, w.updateSocket n fun s => { s with inbox := rest })
  | _ => (none, w)

def answerMessage : Option Received × World → Result
  | (some message, w) => w.answer (.message message)
  | (none, w) => w.answer .nothing

def resolvePeer (w : World) (n : Nat) (s : Socket) (host : String) :
    Except ResolveError Ip × World :=
  let (result, resolver, w) := w.resolve s.channel.resolver host
  (result, w.updateSocket n fun s => { s with channel := { s.channel with resolver } })

/-! ## Calls -/

def addCall (w : World) (call : Call) : Nat × World :=
  (w.calls.size, { w with calls := w.calls.push call })

/-- Starts a call: in the background under a name, or else at once, where time
passes until it has its answer. -/
def startCall (w : World) (n : Nat) (job : Option String) : Result :=
  let w := w.runCall n
  match job with
  | some name => (w.define name (.job n)).answer .started
  | none =>
    let (b, w) := w.awaitCall n
    w.answer (.flag b)

def awaitSent (w : World) (n : Nat) (sequence : UInt64) (millis : Nat) (job : Option String) :
    Result :=
  let deadline := w.now + (Duration.ofMillis millis).nanos
  let (call, w) := w.addCall { awaited := .sent n sequence, deadline }
  w.startCall call job

end World

end Courier.Sim
