import Courier.Sim.Managers

/-!
One step of a simulated world: a command, and then everything that can happen at
the same instant.
-/

namespace Courier.Sim.World

/-- Carries out a command. -/
def execute (w : World) : Command → Result
  | .advance millis => (w.advance (w.now + (Duration.ofMillis millis).nanos)).answer .done
  | .datagram source dest packet => w.datagram source dest packet
  | .failReceive dest => w.answer (.flag (w.socketAt? dest).isSome)
  | .failAccept dest => w.failAccept dest
  | .dropNext n => { w with toDrop := n }.answer .done
  | .log => { w with log := #[] }.answer (.traffic (trafficOf w.log.toList))
  | .lookups => { w with lookups := #[] }.answer (.names w.lookups.toList)
  | .discard name => (w.forget name).answer (.flag (w.object? name).isSome)
  | .join job => w.join job
  | .context name c => w.defineContext name c
  | .contextStats name => w.withContext name fun _ c => w.answer (.stats c.stats)
  | .resolver name family => w.defineResolver name family
  | .resolve name host port => w.withResolver name fun n r => w.resolveWith n r host port
  | .cached name host => w.withResolver name fun _ r =>
    w.answer (((r.cached host).map Answer.ip).getD .nothing)
  | .bindSocket name context address => w.withContext context fun n c =>
    w.defineSocket name n c.config address
  | .sendMessage name dest data reliable => w.withSocket name fun n s =>
    w.sendMessage n s dest data reliable
  | .receiveMessage name => w.withSocket name fun n _ => answerMessage (w.takeMessage n)
  | .isPending name sequence => w.withSocket name fun _ s =>
    w.answer (.flag (s.channel.isPending sequence))
  | .countPending name => w.withSocket name fun _ s =>
    w.answer (.count s.channel.outbound.length)
  | .awaitSent name sequence millis job => w.withSocket name fun n _ =>
    w.awaitSent n sequence millis job
  | .resolvePeer name host port => w.withSocket name fun n s =>
    let (result, w) := w.resolvePeer n s host
    w.answerResolved result port
  | .handle name channel dest reliable => w.withSocket channel fun n _ =>
    (w.define name (.handle n dest reliable)).answer .done
  | .shutdownSocket name => w.withSocket name fun n _ => (w.stopSocket n).answer .done
  | .connectStream name dest source => w.connectStream name dest source
  | .listen name address => w.listen name address
  | .acceptStream name listener => w.acceptStream name listener
  | .writeStream name data => w.withStream name fun e => w.writeTo e data
  | .readStream name => w.withStream name fun e => w.readFrom e
  | .resetStream name => w.withStream name fun e => (w.breakFar e).answer .done
  | .accepted name context peer far => w.withContext context fun n c =>
    w.defineAccepted name far n c.config peer
  | .dial name context peer localPort => w.withContext context fun n c =>
    w.defineDialed name n c.config peer localPort
  | .connectionState name => w.withConnection name fun _ c => w.connectionState c
  | .receiveFrame name => w.withConnection name fun n c => w.receiveFrame n c
  | .tickConnection name threshold => w.withConnection name fun n _ =>
    w.tickConnection n threshold
  | .send name data => w.send name data
  | .close name => w.close name
  | .handleState name => w.handleState name
  | .hub name context listen track => w.withContext context fun n c =>
    w.defineHub name n c.config (listen.map (·, track))
  | .connectPooled name channel peer localPort => w.withHub channel fun n h =>
    match w.config? h.context with
    | none => w.fail .noObject
    | some c => w.connectPooled name n h c peer localPort
  | .inboundConnection name channel peer => w.withHub channel fun _ h =>
    w.inboundConnection name h peer
  | .peerState channel peer => w.withHub channel fun _ h => w.peerState h peer
  | .pollInbound channel => w.withHub channel fun n _ =>
    answerMessage (w.pollHub n fun ch r => ch.pollInbound r)
  | .pollOutbound channel => w.withHub channel fun n _ =>
    answerMessage (w.pollHub n fun ch r => ch.pollOutbound r)
  | .tickHub channel => w.withHub channel fun n _ => (w.tickHub n).answer .done
  | .teardown channel => w.withHub channel fun n h => (w.teardownHub n h).answer .done
  | .shutdownHub channel => w.withHub channel fun n _ => (w.shutdownHub n).answer .done
  | .manager name datagrams streams c => w.defineManager name datagrams streams c
  | .managerSend name dest data robust job => w.withManager name fun n m c =>
    w.managerSend n m c dest data robust job
  | .managerReceive name => w.withManager name fun n m c =>
    answerMessage (w.managerReceive n m c)
  | .managerConnect name dest => w.withManager name fun n m c => w.managerConnect n m c dest
  | .managerConnection name manager dest robust => w.withManager manager fun n m c =>
    w.managerConnection name n m c dest robust
  | .managerDisconnected name dest => w.withManager name fun n m _ =>
    w.managerDisconnected n m dest
  | .managerStats name => w.withManager name fun _ m _ =>
    w.answer (.stats (((w.contexts[m.context]?).map (·.stats)).getD {}))
  | .shutdownManager name => w.withManager name fun n m _ =>
    (w.shutdownManager n m).answer .done

/-- Carries out a command, drops what nobody holds any more, and lets the world
settle. -/
def step (w : World) (c : Command) : Result :=
  let (outcome, w) := w.execute c
  (outcome, w.sweep.settle)

end Courier.Sim.World
