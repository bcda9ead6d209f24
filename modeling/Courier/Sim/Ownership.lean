import Courier.Sim.Network
import Std.Data.TreeSet

/-!
What is still held in a simulated world, and what ends because nobody holds it.
A name holds what it stands for. A manager and a call hold their channels. A hub
and its tasks hold its connections, and a router the hub of its manager. A socket
stays bound as long as a task or a handle refers to it.
-/

namespace Courier.Sim.World

/-- The calls that go on. -/
def pendingCalls (w : World) : List Call := w.calls.toList.filter (·.progress = .waiting)

def heldManagers (w : World) : List Nat :=
  w.names.filterMap (fun (_, o) => match o with | .manager n => some n | _ => none) ++
    w.pendingCalls.filterMap (·.manager)

/-- The sockets whose channels are held. -/
def heldSockets (w : World) : List Nat :=
  w.names.filterMap (fun (_, o) => match o with | .socket n => some n | _ => none) ++
    (w.heldManagers.filterMap (w.managers[·]?)).map (·.socket) ++
    w.pendingCalls.filterMap fun c => match c.awaited with
      | .sent n _ => some n
      | .delivered => none

/-- The sockets that a handle refers to. -/
def handledSockets (w : World) : List Nat :=
  w.names.filterMap fun (_, o) => match o with | .handle n _ _ => some n | _ => none

def heldHubs (w : World) : List Nat :=
  w.names.filterMap (fun (_, o) => match o with | .hub n => some n | _ => none) ++
    (w.heldManagers.filterMap (w.managers[·]?)).map (·.hub) ++
    (w.managers.toList.filter (·.routing)).map (·.hub)

/-- The connections that a hub or its tasks hold: the acceptor knows only those
that peers opened. -/
def connectionsOf (h : Hub) (held : Bool) : List Nat :=
  (if held || h.ticking then h.channel.pool.connections ++ h.channel.pool.released else []) ++
    if held || h.ticking || h.accepting then h.channel.inbound.connections else []

def heldConnections (w : World) : List Nat :=
  let hubs := w.heldHubs
  w.names.filterMap (fun (_, o) => match o with
    | .connection n | .streamHandle n => some n
    | _ => none) ++
    w.hubs.toList.zipIdx.flatMap fun (h, n) => connectionsOf h (n ∈ hubs)

/-- Ends the tasks of a socket's channel, and then unbinds the socket unless a
handle refers to it. -/
def dropSocket (w : World) (n : Nat) (s : Socket) (handled : Bool) : World :=
  if !s.tasks.isEmpty then s.tasks.foldl abort w
  else if handled then w
  else w.updateSocket n fun s => { s with bound := false }

def dropHub (w : World) (n : Nat) (h : Hub) : World :=
  let w := if h.accepting then w.abort (.acceptor n) else w
  if h.ticking then w.abort (.keepaliveTimer n) else w

/-- Does something with every element of an array that has no holder. -/
def forDropped {α : Type} (w : World) (xs : Array α) (held : List Nat)
    (f : World → Nat → α → World) : World :=
  let held := Std.TreeSet.ofList held
  xs.toList.zipIdx.foldl (fun w (x, n) => if held.contains n then w else f w n x) w

/-- Ends everything that nobody holds any more. -/
def sweep (w : World) : World :=
  let sockets := w.heldSockets
  let handled := w.handledSockets
  let hubs := w.heldHubs
  let connections := w.heldConnections
  let w := w.forDropped w.managers w.heldManagers fun w n m =>
    if m.routing then w.abort (.router n) else w
  let w := w.forDropped w.sockets sockets fun w n s =>
    if s.bound then w.dropSocket n s (n ∈ handled) else w
  let w := w.forDropped w.hubs hubs dropHub
  w.forDropped w.roster connections fun w n c =>
    if c.phase = .ended then w else w.abort (.connection n)

/-- Ends what a name stood for alone: a stream or a listener without a channel. -/
def dropObject (w : World) : Object → World
  | .stream e => w.closeEnd e
  | .listener n => w.closeListener n
  | _ => w

/-- Forgets a name and what only it held. -/
def forget (w : World) (name : String) : World :=
  match w.object? name with
  | none => w
  | some o => { w with names := w.names.filter (·.1 ≠ name) }.dropObject o

/-- Gives a name to an object. What the name stood for before is dropped. -/
def define (w : World) (name : String) (o : Object) : World :=
  let w := w.forget name
  { w with names := (name, o) :: w.names }

end Courier.Sim.World
