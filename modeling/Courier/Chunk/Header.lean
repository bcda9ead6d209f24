import Courier.Bytes
import Courier.Text.Quoted

/-!
The header in front of every chunk: a marker byte for the kind, the number of
the message, how many chunks the message has, and which of them this is.
-/

namespace Courier.Chunk

inductive Kind where
  /-- part of a reliable message, each chunk is acknowledged -/
  | data
  /-- part of a best-effort message, never acknowledged -/
  | lowPriority
  | ack
  deriving DecidableEq

namespace Kind

def marker : Kind → UInt8
  | data => 0x21
  | lowPriority => 0x3d
  | ack => 0x40

def ofMarker? (b : UInt8) : Option Kind :=
  if b = 0x21 then some data
  else if b = 0x3d then some lowPriority
  else if b = 0x40 then some ack
  else none

def name : Kind → String
  | data => "Data"
  | lowPriority => "LowPriorityData"
  | ack => "Ack"

@[simp] theorem ofMarker?_marker (k : Kind) : ofMarker? k.marker = some k := by
  cases k <;> rfl

end Kind

structure Header where
  kind : Kind
  sequence : UInt64
  total : UInt16
  index : UInt16
  deriving DecidableEq

/-- Why bytes are not a chunk. -/
inductive HeaderError where
  | short (wanted available : Nat)
  | unknownMarker (marker : UInt8)
  | noChunks
  | indexOutOfRange (index total : UInt16)
  deriving DecidableEq

namespace HeaderError

def message : HeaderError → String
  | short wanted available => s!"{wanted} bytes wanted, {available} available"
  | unknownMarker b => "invalid chunk kind marker " ++ Text.quoteByte b
  | noChunks => "chunk header with zero total chunks"
  | indexOutOfRange index total =>
    s!"chunk index {index} is out of range for {total} chunks"

end HeaderError

namespace Header

/-- Marker, message number, chunk count and chunk index. -/
def size : Nat := 13

def encode (h : Header) : Bytes :=
  h.kind.marker :: Bytes.ofNat 8 h.sequence.toNat ++ Bytes.ofNat 2 h.total.toNat ++
    Bytes.ofNat 2 h.index.toNat

/-- A number of `width` bytes at the front. -/
def readNumber (width : Nat) (b : Bytes) : Except HeaderError (Nat × Bytes) :=
  if b.length < width then .error (.short width b.length)
  else .ok (Bytes.toNat (b.take width), b.drop width)

/-- The header at the front, and the payload after it. The marker is looked at
before the rest is read. -/
def decode (b : Bytes) : Except HeaderError (Header × Bytes) := do
  let (marker, b) ← readNumber 1 b
  let some kind := Kind.ofMarker? (UInt8.ofNat marker)
    | throw (.unknownMarker (UInt8.ofNat marker))
  let (sequence, b) ← readNumber 8 b
  let (total, b) ← readNumber 2 b
  let (index, b) ← readNumber 2 b
  if total = 0 then throw .noChunks
  if total ≤ index then throw (.indexOutOfRange (UInt16.ofNat index) (UInt16.ofNat total))
  pure (⟨kind, UInt64.ofNat sequence, UInt16.ofNat total, UInt16.ofNat index⟩, b)

/-- The acknowledgement of a chunk. -/
def toAck (h : Header) : Header := { h with kind := .ack }

/-- Whether this is the final chunk of its message. The index after the largest
one is no chunk index, so there the question has no answer. -/
def isLast? (h : Header) : Option Bool :=
  if h.index.toNat + 1 < 65536 then some (h.index.toNat + 1 == h.total.toNat) else none

/-- For instance `Data#7[0/1]`. -/
def text (h : Header) : String :=
  s!"{h.kind.name}#{h.sequence}[{h.index}/{h.total}]"

end Header

/-- A chunk on the wire. -/
def packet (h : Header) (payload : Bytes) : Bytes := h.encode ++ payload

end Courier.Chunk
