import Courier.Chunk.Header
import Courier.Duration
import Courier.Net.Ip
import Std.Data.TreeMap

/-!
Putting messages together from their chunks, which may arrive in any order and
more than once. A message is known by its sender's address and number. Completed
numbers are remembered for a while, so that late copies of chunks do not deliver
a message again. The buffers of all incomplete messages together are bounded.
-/

namespace Courier.Reassembly

abbrev Key := SocketAddr × UInt64

/-- Why a chunk is refused. -/
inductive Reason where
  | ackChunk
  | finalLength
  | fullLength
  | totalDiffers
  | kindDiffers
  | bufferLimit
  deriving DecidableEq

namespace Reason

def message : Reason → String
  | ackChunk => "ack chunk passed to reassembly"
  | finalLength => "final chunk has invalid length"
  | fullLength => "non-final chunk does not have the full chunk size"
  | totalDiffers => "total chunk count differs from previous chunks"
  | kindDiffers => "chunk kind differs from previous chunks"
  | bufferLimit => "reassembly buffer limit exceeded"

end Reason

inductive Outcome where
  /-- stored, but chunks are still missing -/
  | incomplete
  | complete (data : Bytes)
  /-- the chunk or its whole message was here before -/
  | duplicate
  | rejected (reason : Reason)
  /-- the place of the chunk is beyond the machine's range -/
  | outOfRange
  deriving DecidableEq

/-- An incomplete message. -/
structure Partial where
  kind : Chunk.Kind
  total : UInt16
  /-- the chunks that arrived, by index -/
  pieces : Std.TreeMap Nat Bytes := {}
  /-- size of the buffer: up to the end of the highest chunk -/
  extent : Nat := 0
  /-- size of the message, known once its final chunk is here -/
  length? : Option Nat := none
  lastSeen : Instant

namespace Partial

/-- Lays pieces in descending order out before bytes that start at `stop`, with
zeros where nothing arrived. -/
def layout (chunkSize : Nat) : List (Nat × Bytes) → (stop : Nat) → Bytes → Bytes
  | [], stop, after => List.replicate stop 0 ++ after
  | (i, p) :: rest, stop, after =>
    let start := i * chunkSize
    layout chunkSize rest start (p ++ (List.replicate (stop - (start + p.length)) 0 ++ after))

/-- The bytes that arrived, each chunk at its place. -/
def buffer (m : Partial) (chunkSize : Nat) : Bytes :=
  layout chunkSize m.pieces.toList.reverse m.extent []

/-- The buffer, cut off at the end of the message if that is known. -/
def data (m : Partial) (chunkSize : Nat) : Bytes :=
  match m.length? with
  | some n => (m.buffer chunkSize).take n
  | none => m.buffer chunkSize

end Partial

end Reassembly

structure Reassembly where
  chunkSize : Nat
  maxPartialBytes : Nat
  /-- sizes of all buffers together -/
  buffered : Nat := 0
  messages : List (Reassembly.Key × Reassembly.Partial) := []
  completed : List (Reassembly.Key × Instant) := []

namespace Reassembly

/-- What is wrong with a payload of its length at its place. -/
def lengthFault (r : Reassembly) (isLast : Bool) (length : Nat) : Option Reason :=
  if isLast then
    if length = 0 ∨ r.chunkSize < length then some .finalLength else none
  else if length ≠ r.chunkSize then some .fullLength
  else none

def find? (r : Reassembly) (key : Key) : Option Partial := r.messages.lookup key

def isCompleted (r : Reassembly) (key : Key) : Bool := (r.completed.lookup key).isSome

def put (r : Reassembly) (key : Key) (m : Partial) : Reassembly :=
  { r with messages := (key, m) :: r.messages.filter (·.1 ≠ key) }

/-- Stores a chunk that passed all checks of its header in the message `m`. -/
def store (r : Reassembly) (key : Key) (m : Partial) (index : Nat) (isLast : Bool)
    (payload : Bytes) (now : Instant) : Outcome × Reassembly :=
  let stop := index * r.chunkSize + payload.length
  let growth := stop - m.extent
  if wordMax < stop then (.outOfRange, r)
  else if m.extent < stop ∧ wordMax < r.buffered + growth then (.outOfRange, r)
  else if m.extent < stop ∧ r.maxPartialBytes < r.buffered + growth then
    (.rejected .bufferLimit, r)
  else if sizeMax < stop then (.outOfRange, r)
  else
    let m := { m with
      pieces := m.pieces.insert index payload
      extent := m.extent + growth
      length? := if isLast then some stop else m.length?
      lastSeen := now }
    if m.pieces.size < m.total.toNat then
      (.incomplete, { r.put key m with buffered := r.buffered + growth })
    else
      (.complete (m.data r.chunkSize),
        { r with
          buffered := r.buffered + growth - m.extent
          messages := r.messages.filter (·.1 ≠ key)
          completed := (key, now) :: r.completed })

/-- Takes in one chunk. A chunk that is refused or was here before changes
nothing. -/
def insert (r : Reassembly) (sender : SocketAddr) (h : Chunk.Header) (payload : Bytes)
    (now : Instant) : Outcome × Reassembly :=
  let key := (sender, h.sequence)
  if r.isCompleted key then (.duplicate, r)
  else if h.kind = .ack then (.rejected .ackChunk, r)
  else
    match h.isLast? with
    | none => (.outOfRange, r)
    | some isLast =>
      match r.lengthFault isLast payload.length with
      | some reason => (.rejected reason, r)
      | none =>
        let m := (r.find? key).getD { kind := h.kind, total := h.total, lastSeen := now }
        if m.total ≠ h.total then (.rejected .totalDiffers, r)
        else if m.kind ≠ h.kind then (.rejected .kindDiffers, r)
        else if m.pieces.contains h.index.toNat then (.duplicate, r)
        else r.store key m h.index.toNat isLast payload now

/-- Discards incomplete messages without a new chunk for `timeout` (a repeated one does not count), and forgets
completed ones after `retention`. Tells how many were discarded. -/
def purge (r : Reassembly) (now : Instant) (timeout retention : Duration) : Nat × Reassembly :=
  let (kept, stale) := r.messages.partition fun (_, m) => now - m.lastSeen < timeout.nanos
  (stale.length,
    { r with
      buffered := stale.foldl (fun n (_, m) => n - m.extent) r.buffered
      messages := kept
      completed := r.completed.filter fun (_, since) => now - since < retention.nanos })

end Reassembly

end Courier
