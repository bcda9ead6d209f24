import Courier.Address
import Courier.Sim.World

/-!
What can be done to a simulated world from outside, the answers to it, and the
ways in which it can fail. Objects are known by names of one name space.
-/

namespace Courier.Sim

inductive Command where
  -- time and network
  | advance (millis : Nat)
  | datagram (source dest : SocketAddr) (packet : Bytes)
  | failReceive (dest : SocketAddr)
  | failAccept (dest : SocketAddr)
  | dropNext (n : Nat)
  | log
  | lookups
  | discard (name : String)
  | join (job : String)
  | context (name : String) (config : Config)
  | contextStats (name : String)
  -- resolvers
  | resolver (name : String) (family : Option Ip.Family)
  | resolve (name host : String) (port : UInt16)
  | cached (name host : String)
  -- datagram channels
  | bindSocket (name context : String) (address : SocketAddr)
  | sendMessage (name : String) (dest : SocketAddr) (data : Bytes) (reliable : Bool)
  | receiveMessage (name : String)
  | isPending (name : String) (sequence : UInt64)
  | countPending (name : String)
  | awaitSent (name : String) (sequence : UInt64) (millis : Nat) (job : Option String)
  | resolvePeer (name host : String) (port : UInt16)
  | handle (name channel : String) (dest : SocketAddr) (reliable : Bool)
  | shutdownSocket (name : String)
  -- streams
  | connectStream (name : String) (dest : SocketAddr) (source : Option SocketAddr)
  | listen (name : String) (address : SocketAddr)
  | acceptStream (name listener : String)
  | writeStream (name : String) (data : Bytes)
  | readStream (name : String)
  | resetStream (name : String)
  -- connections
  | accepted (name context : String) (peer : SocketAddr) (far : String)
  | dial (name context : String) (peer : SocketAddr) (localPort : UInt16)
  | connectionState (name : String)
  | receiveFrame (name : String)
  | tickConnection (name : String) (threshold : Nat)
  | send (name : String) (data : Bytes)
  | close (name : String)
  | handleState (name : String)
  -- stream channels
  | hub (name context : String) (listen : Option SocketAddr) (track : Bool)
  | connectPooled (name channel : String) (peer : SocketAddr) (localPort : UInt16)
  | inboundConnection (name channel : String) (peer : SocketAddr)
  | peerState (channel : String) (peer : SocketAddr)
  | pollInbound (channel : String)
  | pollOutbound (channel : String)
  | tickHub (channel : String)
  | teardown (channel : String)
  | shutdownHub (channel : String)
  -- managers
  | manager (name datagrams : String) (streams : Option String) (config : Config)
  | managerSend (name dest : String) (data : Bytes) (robust : Bool) (job : Option String)
  | managerReceive (name : String)
  | managerConnect (name dest : String)
  | managerConnection (name manager dest : String) (robust : Bool)
  | managerDisconnected (name dest : String)
  | managerStats (name : String)
  | shutdownManager (name : String)

/-- The datagrams that one socket sent, in order: those that are chunks or
anything else, and acknowledgements. -/
structure Traffic where
  source : SocketAddr
  chunks : List Sent
  acks : List Sent

inductive Answer where
  | done
  | nothing
  | started
  | pending
  | gone
  | flag (b : Bool)
  | count (n : Nat)
  | text (s : String)
  | ip (a : Ip)
  | address (a : SocketAddr)
  | sequence (n : UInt64)
  | data (b : Bytes)
  | message (m : Received)
  | stats (s : Stats)
  | names (hosts : List String)
  | traffic (t : List Traffic)
  | streamRead (data : Bytes) (ended : Bool)
  | connection (state : Stream.State) (peer : SocketAddr) (drained awaitingAck : Bool)
  | peer (endpoint : Endpoint) (disconnected : Bool)
  | listening (address : Option SocketAddr)
  | pooling (pooled disconnected : Bool)
  | managed (datagrams : SocketAddr) (streams : Option SocketAddr)

/-- Why a command failed. -/
inductive Failure where
  | noObject
  /-- the world cannot go on: a number or a size is out of range -/
  | halted
  | address (e : AddressError)
  | send (e : Outbound.SendError)
  | poolExhausted (size : Nat)
  /-- a transport could not bind a socket -/
  | socket (e : NetError)
  | net (e : NetError)
  | resolve (e : ResolveError)
  | config (e : ConfigError)
  | notDatagram (e : Endpoint)
  | notStream (e : Endpoint)

namespace Failure

def message : Failure → String
  | noObject => "no such object"
  | halted => "a number is out of range"
  | address e => e.message
  | send e => e.message
  | poolExhausted size => s!"all {size} outbound TCP slots are in use"
  | socket e => "socket error: " ++ e.message
  | net e => e.message
  | resolve e => e.message
  | config e => e.message
  | notDatagram e => "expected a UDP address to bind to, was " ++ e.text
  | notStream e => "expected a TCP address to listen on, was " ++ e.text

end Failure

end Courier.Sim
