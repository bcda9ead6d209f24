import Courier.Chunk.Header
import Courier.Chunk.Split
import Courier.Duration
import Courier.Stats

/-!
The settings of a transport, the rules that they have to meet, and a context:
accepted settings with the counters that all channels of a transport share.
-/

namespace Courier

structure Config where
  /-- size of a datagram on the wire, header included -/
  packetSize : Nat := 512
  /-- chunks of one message that may be sent and not yet acknowledged -/
  maxFlight : Nat := 4
  resendInterval : Duration := .ofSeconds 1
  /-- ticks without progress before chunks are sent again -/
  resendTickThreshold : Nat := 1
  /-- ticks without progress before a message is abandoned -/
  resendThreshold : Nat := 5
  /-- an incomplete message is discarded if no chunk arrives for this long -/
  inboundTimeout : Duration := .ofSeconds 10
  /-- how long the number of a completed message is remembered -/
  completedRetention : Duration := .ofSeconds 10
  /-- bound on the buffers of all incomplete messages together -/
  maxPartialBytes : Nat := 64 * 1024 * 1024
  poolSize : Nat := 16
  connectRetries : Nat := 3
  connectBackoff : Duration := .ofMillis 500
  keepaliveInterval : Duration := .ofSeconds 2
  /-- keepalive ticks without traffic before a ping is sent -/
  keepaliveIdleTicks : Nat := 15
  maxFrameSize : Nat := 16 * 1024 * 1024
  /-- polls of received datagrams for each round of stream polls -/
  datagramPollRatio : Nat := 8
  blockPollInterval : Duration := .ofMillis 5
  defaultBlockTimeout : Duration := .ofSeconds 30
  deriving DecidableEq

/-- The rule that a configuration breaks. -/
inductive ConfigError where
  | packetBelowHeader (size : Nat)
  | packetAboveLimit (size : Nat)
  | zeroFlight
  | thresholdsSwapped (resend resendTick : Nat)
  | retentionBelowWindow (retention : Duration) (ticks : Nat) (interval : Duration)
  | bufferBelowChunk
  | zeroPool
  | zeroPolls
  /-- the resend window is longer than any duration -/
  | windowOutOfRange
  deriving DecidableEq

namespace ConfigError

def message : ConfigError → String
  | packetBelowHeader size =>
    s!"UDP packet size {size} leaves no room for payload after the {Chunk.Header.size} byte header"
  | packetAboveLimit size => s!"UDP packet size {size} exceeds the maximum UDP payload"
  | zeroFlight => "max_flight must be at least 1"
  | thresholdsSwapped resend resendTick =>
    s!"resend threshold ({resend}) must not be smaller than the resend tick threshold ({resendTick})"
  | retentionBelowWindow retention ticks interval =>
    s!"completed retention {retention.text} does not cover the resend window of {ticks} x {interval.text}"
  | bufferBelowChunk => "max_partial_bytes must hold at least one chunk"
  | zeroPool => "TCP pool size must be at least 1"
  | zeroPolls => "UDP poll ratio must be at least 1"
  | windowOutOfRange => "the resend window is out of range"

end ConfigError

namespace Config

/-- The largest payload of a datagram. -/
def maxPacketSize : Nat := 65507

/-- Payload bytes of a chunk. -/
def chunkSize (c : Config) : Nat := c.packetSize - Chunk.Header.size

/-- The rules in the order in which they are checked. -/
def validate (c : Config) : Except ConfigError Unit := do
  if c.packetSize ≤ Chunk.Header.size then throw (.packetBelowHeader c.packetSize)
  if maxPacketSize < c.packetSize then throw (.packetAboveLimit c.packetSize)
  if c.maxFlight = 0 then throw .zeroFlight
  if c.resendThreshold < c.resendTickThreshold then
    throw (.thresholdsSwapped c.resendThreshold c.resendTickThreshold)
  match c.resendInterval.times? c.resendThreshold with
  | none => throw .windowOutOfRange
  | some window =>
    if c.completedRetention.nanos < window.nanos then
      throw (.retentionBelowWindow c.completedRetention c.resendThreshold c.resendInterval)
  if c.maxPartialBytes < c.chunkSize then throw .bufferBelowChunk
  if c.poolSize = 0 then throw .zeroPool
  if c.datagramPollRatio = 0 then throw .zeroPolls

end Config

/-- What the channels of one transport share. -/
structure Context where
  config : Config
  stats : Stats := {}

namespace Context

def ofConfig? (c : Config) : Except ConfigError Context :=
  c.validate.map fun _ => { config := c }

end Context

end Courier
