import Courier.Sim.Network

/-!
What each task of a simulated world does when it runs, up to the point where it
has to wait.
-/

namespace Courier.Sim.World

open Courier.Stream (Connection)

/-! ## Datagrams -/

/-- What a received datagram changes outside its channel. -/
def applyReceipt (w : World) (n context : Nat) (sender : SocketAddr)
    (receipt : Datagram.Receipt) : World :=
  let w := if receipt.dropped then w.count context Stats.chunkDropped else w
  let w := match receipt.reply with
    | some packet => w.sendCounted n context sender packet
    | none => w
  let w := match receipt.message with
    | some message => w.updateSocket n fun s => { s with inbox := s.inbox ++ [message] }
    | none => w
  if receipt.progress then w.wake (.datagramSender n) else w

/-- Takes in one datagram. -/
def readDatagram (w : World) (n : Nat) (sender : SocketAddr) (packet : Bytes) : World :=
  match w.sockets[n]? with
  | none => w
  | some s =>
    match w.config? s.context with
    | none => w
    | some c =>
      let w := w.count s.context (·.received packet.length)
      let (receipt, channel) := s.channel.receive c w.now sender packet
      (w.updateSocket n fun s => { s with channel }).applyReceipt n s.context sender receipt

/-- Takes in everything that arrived. Datagrams that a socket sends to itself
meanwhile come next. -/
def runReader (w : World) (n : Nat) : World :=
  match w.sockets[n]? with
  | none => w
  | some s =>
    if .datagramReader n ∉ s.tasks ∨ s.arrivals.isEmpty then w
    else
      let w := w.updateSocket n fun s => { s with arrivals := #[] }
      let w := s.arrivals.foldl (fun w (sender, packet) => w.readDatagram n sender packet) w
      let again := (w.sockets[n]?).any fun s => !s.arrivals.isEmpty
      if again then { w with ready := .datagramReader n :: w.ready } else w

/-- Sends every chunk that may be sent. -/
def runSender (w : World) (n : Nat) : World :=
  match w.sockets[n]? with
  | none => w
  | some s =>
    if .datagramSender n ∉ s.tasks then w
    else
      let (chunks, channel) := s.channel.flush
      let w := w.updateSocket n fun s => { s with channel }
      chunks.foldl (fun w chunk => w.sendCounted n s.context chunk.dest chunk.packet) w

/-- One tick of a channel's resend timer. -/
def resendTick (w : World) (n : Nat) (c : Config) : World :=
  match w.sockets[n]? with
  | none => w
  | some s =>
    let (report, channel) := s.channel.tick c w.now
    let w := w.updateSocket n fun s => { s with channel }
    let w := w.count s.context fun t => (t.messagesDropped report.dropped).resent report.resent
    if report.resent > 0 then w.wake (.datagramSender n) else w

/-- The instant of the next tick after one at `due`, and how many ticks are due
up to now. Timers fire at whole milliseconds, so that several short periods can
be over at once. -/
def ticksDue (now due : Instant) (period : Duration) : Nat × Instant :=
  if now < Duration.ceilMilli due ∨ period.nanos = 0 then (0, due)
  else
    let n := (now - due) / period.nanos + 1
    (n, due + n * period.nanos)

/-- A timer with such a period never ticks: its task ends at once. -/
def isUnusable (period : Duration) : Bool :=
  period.nanos == 0 || period.beyondClock

/-- Ends one of the tasks of a socket's channel. -/
def endSocketTask (w : World) (n : Nat) (t : Task) : World :=
  w.updateSocket n fun s => { s with tasks := s.tasks.filter (· ≠ t) }

/-- Ends all tasks of a socket's channel. -/
def stopSocket (w : World) (n : Nat) : World :=
  (w.updateSocket n fun s => { s with tasks := [] }).clearTimer (.resendTimer n)

def runResendTimer (w : World) (n : Nat) : World :=
  match w.sockets[n]? with
  | none => w
  | some s =>
    match w.config? s.context with
    | none => w
    | some c =>
      if .resendTimer n ∉ s.tasks then w
      else if isUnusable c.resendInterval then w.endSocketTask n (.resendTimer n)
      else
        let (ticks, next) := ticksDue w.now s.nextTick c.resendInterval
        let w := ticks.fold (fun _ _ w => w.resendTick n c) w
        let w := w.updateSocket n fun s => { s with nextTick := next }
        w.setTimer (.resendTimer n) (Duration.ceilMilli next)

/-! ## Stream connections -/

/-- Wakes those of the connections that have something to do. -/
def wakeDue (w : World) (ns : List Nat) : World :=
  ns.foldl (fun w n =>
    if (w.roster[n]?).any Connection.isDue then w.wake (.connection n) else w) w

/-- Ends the work on a connection's stream. -/
def dropStream (w : World) (n : Nat) : World :=
  let w := w.clearTimer (.connection n)
  match (w.links[n]?).bind (·.stream) with
  | none => w
  | some e =>
    let w := { w with links := w.links.modify n fun l => { l with stream := none } }
    let w := w.updateEnd e fun s => { s with reader := none }
    w.closeEnd e

/-- Drops the stream of a connection whose work is over. -/
def settleConnection (w : World) (n : Nat) : World :=
  if (w.roster[n]?).any (·.phase = .ended) then w.dropStream n else w

/-- Bytes are read in pieces of at most this size. -/
def readSize : Nat := 8192

/-- Takes in one piece of a stream. -/
def readPiece (w : World) (n : Nat) (link : Link) (piece : Bytes) : World :=
  match w.roster[n]? with
  | none => w
  | some c =>
    match c.phase with
    | .opened _ =>
      let w := w.count link.context (·.received piece.length)
      let c' := c.receive piece
      let w := w.updateConnection n fun _ => c'
      match link.tracker with
      | none => w
      | some hub =>
        let arrived := c'.inbox.length - c.inbox.length
        w.updateHub hub fun h =>
          let inbound := h.channel.inbound.noteActivity c.peer arrived
          { h with channel := { h.channel with inbound } }
    | _ => w

/-- Reads what there is, and notices the end of the stream. -/
def readStream (w : World) (n : Nat) (link : Link) (e : Nat) : World :=
  let (bytes, w) := w.readAll e
  let pieces := (Chunk.split? bytes readSize).getD #[]
  let w := pieces.foldl (fun w piece => w.readPiece n link piece) w
  let gone := w.isEndClosed (farEnd e) || (w.ends[e]?).any (·.broken)
  if gone && (w.roster[n]?).any (·.phase ≠ .ended) then w.updateConnection n (·.hangUp) else w

/-- Writes the frames that are queued. -/
def writeStream (w : World) (n : Nat) (link : Link) (e : Nat) : World :=
  match w.roster[n]? with
  | none => w
  | some c =>
    let (frames, c) := c.flush
    let w := w.updateConnection n fun _ => c
    frames.foldl (fun w frame =>
      match w.write e frame with
      | (true, w) => w.count link.context (·.sent frame.length)
      | (false, w) => w) w

/-- Works on an open stream: reads, writes, and then looks whether the connection
was closed. -/
def pumpStream (w : World) (n : Nat) : World :=
  match w.links[n]? with
  | none => w
  | some link =>
    match link.stream with
    | none => w
    | some e =>
      let w := w.readStream n link e
      let w := w.writeStream n link e
      (w.updateConnection n (·.noticeCancel)).settleConnection n

/-- Connects to the peer of a connection, if somebody listens there. -/
def connectPeer (w : World) (n : Nat) (peer : SocketAddr) (localPort : UInt16) : Option World :=
  (w.listenerAt? peer).map fun listener =>
    let (source, w) := w.givePort ⟨.loopback peer.family, localPort, 0⟩
    let (e, w) := w.connectFrom listener source
    let w := w.updateEnd e fun s => { s with reader := some n }
    { w with links := w.links.modify n fun l => { l with stream := some e } }

/-- Attempts to connect until one succeeds, the last one failed, or the next one
is due later. -/
def dial : (attempts : Nat) → World → Nat → World
  | 0, w, _ => w
  | attempts + 1, w, n =>
    match w.roster[n]?, w.links[n]? with
    | some c, some link =>
      match w.connectPeer n c.peer link.localPort with
      | some w => (w.updateConnection n Connection.establish).settleConnection n
      | none =>
        let c := c.attemptFailed
        let w := w.updateConnection n fun _ => c
        let pause := ((w.config? link.context).map (·.connectBackoff)).getD ⟨0⟩
        let due := Duration.ceilMilli (pause.sleepEnd w.now)
        if c.phase = .ended then w
        else if due ≤ w.now then dial attempts w n
        else
          let w := { w with links := w.links.modify n fun l => { l with retryAt := due } }
          w.setTimer (.connection n) due
    | _, _ => w

def driveConnection (w : World) (n : Nat) : World :=
  match w.roster[n]?, w.links[n]? with
  | some c, some link =>
    match c.phase with
    | .dialing failed =>
      if link.retryAt ≤ w.now then (dial (c.retries + 1 - failed) w n).pumpStream n
      else (w.updateConnection n (·.noticeCancel)).settleConnection n
    | .established =>
      ((w.updateConnection n Connection.establish).settleConnection n).pumpStream n
    | .opened _ => w.pumpStream n
    | .ended => w
  | _, _ => w

/-! ## Hubs -/

/-- Gives a new connection of the roster its place in the world, and starts it. -/
def startConnection (w : World) (link : Link) : World :=
  let n := w.links.size
  let w := match link.stream with
    | none => w
    | some e => w.updateEnd e fun s => { s with reader := some n }
  { w with links := w.links.push link }.wake (.connection n)

/-- How long an acceptor waits after a failed accept. -/
def acceptPause : Duration := .ofMillis 100

/-- Takes in a connection that a peer opened. -/
def acceptConnection (w : World) (n : Nat) (h : Hub) (c : Config) (e : Nat) (peer : SocketAddr) :
    World :=
  let tracked := h.channel.inbound.recent.isSome
  let link : Link :=
    { context := h.context, stream := some e, tracker := if tracked then some n else none }
  let place := w.roster.size
  let w := { w with roster := w.roster.push (.accept c peer) }
  (w.startConnection link).updateHub n fun h =>
    { h with channel := { h.channel with inbound := h.channel.inbound.add place } }

def stopAcceptor (w : World) (n : Nat) : World :=
  match w.hubs[n]? with
  | none => w
  | some h =>
    let w := w.updateHub n fun h => { h with accepting := false, listener := none }
    let w := w.clearTimer (.acceptor n)
    match h.listener with
    | none => w
    | some listener => w.closeListener listener

/-- Accepts one connection after the other. After a failure it pauses, and does
not notice meanwhile that it is to end. -/
def runAcceptor (w : World) (n : Nat) : World :=
  match w.hubs[n]? with
  | none => w
  | some h =>
    if !h.accepting || w.now < h.pausedUntil then w
    else
      match h.listener.bind (w.listeners[·]?), w.config? h.context with
      | some l, some c =>
        let listener := h.listener.getD 0
        match l.waiting with
        | [] => if h.cancelled then w.stopAcceptor n else w
        | .failure :: rest =>
          let due := Duration.ceilMilli (w.now + acceptPause.nanos)
          let w := w.updateListener listener fun l => { l with waiting := rest }
          let w := w.updateHub n fun h => { h with pausedUntil := due }
          w.setTimer (.acceptor n) due
        | .stream e peer :: rest =>
          let w := w.updateListener listener fun l => { l with waiting := rest }
          let w := w.acceptConnection n h c e peer
          { w with ready := .acceptor n :: w.ready }
      | _, _ => w

/-- One tick of a hub's keepalive timer. -/
def tickHub (w : World) (n : Nat) : World :=
  match w.hubs[n]? with
  | none => w
  | some h =>
    match w.config? h.context with
    | none => w
    | some c =>
      let touched := h.channel.connections
      let (roster, channel) := h.channel.tick w.roster c.keepaliveIdleTicks
      ({ w with roster }.updateHub n fun h => { h with channel }).wakeDue touched

def endKeepalive (w : World) (n : Nat) : World :=
  (w.updateHub n fun h => { h with ticking := false }).clearTimer (.keepaliveTimer n)

def runKeepaliveTimer (w : World) (n : Nat) : World :=
  match w.hubs[n]? with
  | none => w
  | some h =>
    match w.config? h.context with
    | none => w
    | some c =>
      if !h.ticking then w
      else if isUnusable c.keepaliveInterval then w.endKeepalive n
      else
        let (ticks, next) := ticksDue w.now h.nextTick c.keepaliveInterval
        let w := ticks.fold (fun _ _ w => w.tickHub n) w
        let w := w.updateHub n fun h => { h with nextTick := next }
        w.setTimer (.keepaliveTimer n) (Duration.ceilMilli next)

/-! ## Managers -/

/-- Puts what became of an attempt to reach a peer into the world. -/
def applyReach (w : World) (hub : Nat) (context : Nat) (localPort : UInt16)
    (closed : List Nat) (opened rebuilt : Bool) (roster : Stream.Roster)
    (channel : Stream.Channel) : World :=
  let w := if rebuilt then w.count context Stats.poolRebuilt else w
  let w := ({ w with roster }.updateHub hub fun h => { h with channel }).wakeDue closed
  if opened then w.startConnection { context, localPort } else w

/-- Hands a message to a stream connection, if its host resolves and one takes
it. -/
def deliverItem (w : World) (m : Nat) (item : Item) : Bool × World :=
  match w.managers[m]? with
  | none => (false, w)
  | some manager =>
    match w.resolve manager.resolver item.host with
    | (result, resolver, w) =>
      let w := w.updateManager m fun m => { m with resolver }
      match result, w.hubs[manager.hub]?, w.config? manager.context with
      | .ok ip, some h, some c =>
        let d := h.channel.deliver c w.roster ⟨ip, item.port, 0⟩ item.data
        let w := w.applyReach manager.hub manager.context item.localPort d.closed d.opened
          d.rebuilt d.roster d.channel
        (d.taken, w.wakeDue d.connection.toList)
      | _, _, _ => (false, w)

def updateCall (w : World) (n : Nat) (f : Call → Call) : World :=
  { w with calls := w.calls.modify n f }

def routeItem (w : World) (m : Nat) (item : Item) : World :=
  let (taken, w) := w.deliverItem m item
  match item.caller with
  | none => w
  | some call => (w.updateCall call fun c => { c with delivery := some taken }).wake (.call call)

def runRouter (w : World) (n : Nat) : World :=
  match w.managers[n]? with
  | none => w
  | some m =>
    if !m.routing then w
    else
      let w := w.updateManager n fun m => { m with queue := [] }
      m.queue.foldl (fun w item => w.routeItem n item) w

def endRouter (w : World) (n : Nat) : World :=
  w.updateManager n fun m => { m with routing := false, queue := [] }

/-! ## Calls -/

def answerCall (w : World) (n : Nat) (answer : Bool) : World :=
  (w.updateCall n fun c => { c with progress := .finished answer }).clearTimer (.call n)

/-- One look of a call at what it waits for. -/
def lookCall (w : World) (n : Nat) (call : Call) : World :=
  match call.awaited with
  | .delivered =>
    match call.delivery with
    | some taken => w.answerCall n taken
    | none =>
      if call.deadline ≤ w.now then w.answerCall n false
      else w.setTimer (.call n) (Duration.ceilMilli call.deadline)
  | .sent socket sequence =>
    match w.sockets[socket]? with
    | none => w.answerCall n false
    | some s =>
      match s.channel.awaitSent sequence w.now call.deadline with
      | some sent => w.answerCall n sent
      | none =>
        let pause := ((w.config? s.context).map (·.blockPollInterval)).getD ⟨0⟩
        w.setTimer (.call n) (Duration.ceilMilli (pause.sleepEnd w.now))

def runCall (w : World) (n : Nat) : World :=
  match w.calls[n]? with
  | none => w
  | some call => if call.progress = .waiting then w.lookCall n call else w

/-! ## All tasks -/

def run (w : World) : Task → World
  | .datagramReader n => w.runReader n
  | .datagramSender n => w.runSender n
  | .resendTimer n => w.runResendTimer n
  | .connection n => w.driveConnection n
  | .acceptor n => w.runAcceptor n
  | .keepaliveTimer n => w.runKeepaliveTimer n
  | .router n => w.runRouter n
  | .call n => w.runCall n

/-- Ends a task whatever it is doing, and drops what only it has. -/
def endTask (w : World) : Task → World
  | .datagramReader n => w.endSocketTask n (.datagramReader n)
  | .datagramSender n => w.endSocketTask n (.datagramSender n)
  | .resendTimer n => w.endSocketTask n (.resendTimer n)
  | .connection n => (w.updateConnection n fun c => { c with phase := .ended }).dropStream n
  | .acceptor n => w.stopAcceptor n
  | .keepaliveTimer n => w.endKeepalive n
  | .router n => w.endRouter n
  | .call n => w.updateCall n fun c => { c with progress := .spent }

end Courier.Sim.World
