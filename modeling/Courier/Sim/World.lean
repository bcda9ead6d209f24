import Courier.Datagram.Channel
import Courier.Polling
import Courier.Stream.Channel

/-!
A simulated world with a clock, names of hosts, sockets, and the transports that
use them. What goes on in it on its own is split into tasks. A task runs until it
has to wait, and tasks that were woken run in the order in which they were woken.
Everything in the world is known by its place in an array; nothing moves.
-/

namespace Courier.Sim

inductive Task where
  /-- takes in the datagrams of a socket -/
  | datagramReader (socket : Nat)
  /-- puts the chunks of a socket's channel on the wire -/
  | datagramSender (socket : Nat)
  | resendTimer (socket : Nat)
  /-- opens a stream connection, then reads and writes its stream -/
  | connection (n : Nat)
  /-- accepts the connections of peers for a hub -/
  | acceptor (hub : Nat)
  | keepaliveTimer (hub : Nat)
  /-- hands a manager's messages to stream connections -/
  | router (manager : Nat)
  /-- waits for the outcome of a send -/
  | call (n : Nat)
  deriving DecidableEq

structure Timer where
  due : Instant
  task : Task

/-- A datagram on its way between two sockets. -/
structure Sent where
  source : SocketAddr
  dest : SocketAddr
  packet : Bytes

/-- A bound datagram socket and the channel that works on it. -/
structure Socket where
  context : Nat
  address : SocketAddr
  channel : Datagram.Channel
  /-- datagrams that were not read yet -/
  arrivals : Array (SocketAddr × Bytes) := #[]
  /-- messages for the application, the oldest first -/
  inbox : List Received := []
  bound : Bool := true
  /-- the tasks of the channel that have not ended -/
  tasks : List Task
  nextTick : Instant

/-- One end of a stream. The two ends of a stream are neighbours: an even place
and the odd one after it. -/
structure StreamEnd where
  /-- what the other end wrote and this one did not read, the oldest first -/
  unread : Array Bytes := #[]
  closed : Bool := false
  /-- reads fail after what is unread -/
  broken : Bool := false
  /-- the connection that reads from this end -/
  reader : Option Nat := none

/-- What an accept can come to. -/
inductive Incoming where
  /-- one end of a stream, and the address of the peer at the other -/
  | stream (e : Nat) (peer : SocketAddr)
  | failure

structure Listener where
  address : SocketAddr
  /-- what the next accepts come to, the first one in front -/
  waiting : List Incoming := []
  /-- the hub that accepts from it -/
  hub : Option Nat := none
  bound : Bool := true

/-- What a connection of the roster has to do with the world. -/
structure Link where
  context : Nat
  localPort : UInt16 := 0
  stream : Option Nat := none
  /-- when the next attempt to connect is due -/
  retryAt : Instant := 0
  /-- the hub that tracks the activity of the connection -/
  tracker : Option Nat := none

/-- A stream channel with its listener and its tasks. -/
structure Hub where
  context : Nat
  channel : Stream.Channel
  /-- the address that it listens on, or listened on before it was shut down -/
  address : Option SocketAddr := none
  listener : Option Nat := none
  /-- whether the acceptor runs -/
  accepting : Bool := false
  /-- when the acceptor goes on after a failed accept -/
  pausedUntil : Instant := 0
  /-- the acceptor is to end -/
  cancelled : Bool := false
  /-- whether the keepalive timer runs -/
  ticking : Bool := true
  nextTick : Instant

/-- A message on its way to a stream connection. -/
structure Item where
  host : String
  port : UInt16
  localPort : UInt16
  data : Bytes
  /-- the call that waits for the outcome -/
  caller : Option Nat

structure Manager where
  context : Nat
  socket : Nat
  hub : Nat
  resolver : Resolver := {}
  turn : Turn := .start
  queue : List Item := []
  /-- whether the router runs -/
  routing : Bool := true

/-- What a call waits for. -/
inductive Awaited where
  /-- a message of a socket's channel leaves its queue -/
  | sent (socket : Nat) (sequence : UInt64)
  /-- a message is handed to a stream connection -/
  | delivered
  deriving DecidableEq

/-- How far a call is. -/
inductive Progress where
  | waiting
  | finished (answer : Bool)
  /-- the answer was reported, or there is none -/
  | spent
  deriving DecidableEq

structure Call where
  awaited : Awaited
  deadline : Instant
  /-- the manager that the call belongs to -/
  manager : Option Nat := none
  /-- what the router reported of the message -/
  delivery : Option Bool := none
  progress : Progress := .waiting

/-- The answer, until it is reported. -/
def Call.answer? (c : Call) : Option Bool :=
  match c.progress with
  | .finished b => some b
  | _ => none

/-- What a name stands for. -/
inductive Object where
  | context (n : Nat)
  | resolver (n : Nat)
  | socket (n : Nat)
  | handle (socket : Nat) (dest : SocketAddr) (reliable : Bool)
  | stream (n : Nat)
  | listener (n : Nat)
  | connection (n : Nat)
  /-- a connection of which only what all handles have in common can be seen -/
  | streamHandle (connection : Nat)
  | hub (n : Nat)
  | manager (n : Nat)
  /-- a call in the background -/
  | job (call : Nat)
  deriving DecidableEq

structure World where
  now : Instant := 0
  hosts : List (String × List Ip) := []
  /-- the names that were looked up and not reported -/
  lookups : Array String := #[]
  /-- the port for the next socket that does not ask for one -/
  nextPort : UInt16 := 50000
  /-- how many of the next datagrams get lost -/
  toDrop : Nat := 0
  /-- the datagrams that were sent and not reported -/
  log : Array Sent := #[]
  ready : List Task := []
  /-- woken tasks that end when they run next, whatever they were doing -/
  aborted : List Task := []
  timers : List Timer := []
  /-- the task that runs before all others when it is woken -/
  foreground : Option Task := none
  contexts : Array Context := #[]
  resolvers : Array Resolver := #[]
  sockets : Array Socket := #[]
  ends : Array StreamEnd := #[]
  listeners : Array Listener := #[]
  roster : Stream.Roster := #[]
  links : Array Link := #[]
  hubs : Array Hub := #[]
  managers : Array Manager := #[]
  calls : Array Call := #[]
  names : List (String × Object) := []

namespace World

def object? (w : World) (name : String) : Option Object := w.names.lookup name

def config? (w : World) (context : Nat) : Option Config := (w.contexts[context]?).map (·.config)

/-- Counts in the statistics of a context. -/
def count (w : World) (context : Nat) (f : Stats → Stats) : World :=
  { w with contexts := w.contexts.modify context fun c => { c with stats := f c.stats } }

/-- Wakes a task. One that is woken already keeps its place. -/
def wake (w : World) (t : Task) : World :=
  if t ∈ w.ready then w
  else if w.foreground = some t then { w with ready := t :: w.ready }
  else { w with ready := w.ready ++ [t] }

/-- Wakes a task at an instant. A task waits for one instant at most. -/
def setTimer (w : World) (t : Task) (due : Instant) : World :=
  { w with timers := w.timers.filter (·.task ≠ t) ++ [⟨due, t⟩] }

def clearTimer (w : World) (t : Task) : World :=
  { w with timers := w.timers.filter (·.task ≠ t) }

/-- Ends a task. It lets go of what it holds when its turn comes. -/
def abort (w : World) (t : Task) : World :=
  if t ∈ w.aborted then w
  else ({ w with aborted := t :: w.aborted }.clearTimer t).wake t

/-- An address with a port of its own in place of port 0. -/
def givePort (w : World) (a : SocketAddr) : SocketAddr × World :=
  if a.port = 0 then ({ a with port := w.nextPort }, { w with nextPort := w.nextPort + 1 })
  else (a, w)

def updateSocket (w : World) (n : Nat) (f : Socket → Socket) : World :=
  { w with sockets := w.sockets.modify n f }

def updateHub (w : World) (n : Nat) (f : Hub → Hub) : World :=
  { w with hubs := w.hubs.modify n f }

def updateEnd (w : World) (n : Nat) (f : StreamEnd → StreamEnd) : World :=
  { w with ends := w.ends.modify n f }

def updateListener (w : World) (n : Nat) (f : Listener → Listener) : World :=
  { w with listeners := w.listeners.modify n f }

def updateConnection (w : World) (n : Nat) (f : Stream.Connection → Stream.Connection) : World :=
  { w with roster := w.roster.update n f }

def updateManager (w : World) (n : Nat) (f : Manager → Manager) : World :=
  { w with managers := w.managers.modify n f }

/-- Resolves a host with a resolver; a lookup is recorded. -/
def resolve (w : World) (r : Resolver) (host : String) :
    Except ResolveError Ip × Resolver × World :=
  let lookup (host : String) := match w.hosts.lookup host with
    | some found => Except.ok found
    | none => .error NetError.hostNotFound
  let res := r.resolve host lookup
  (res.result, res.resolver,
    if res.lookedUp then { w with lookups := w.lookups.push host } else w)

end World

end Courier.Sim
