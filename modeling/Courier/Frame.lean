import Courier.Bytes

/-!
Frames on a byte stream: a marker, the size in decimal digits, a colon, and as
many bytes. The decoder takes the stream in arbitrary pieces. It skips what
stands before a marker, and a frame without a proper size.
-/

namespace Courier.Frame

def marker : UInt8 := 0x21

def terminator : UInt8 := 0x3a

/-- Reserved payloads, by which two connected peers find out that the other is
still there. -/
def ping : Bytes := [0x25, 0x6b]

def pong : Bytes := [0x25, 0x61]

def isKeepalive (payload : Bytes) : Bool := payload == ping || payload == pong

def sizeText (n : Nat) : Bytes := (Nat.toDigits 10 n).map fun c => UInt8.ofNat c.toNat

def encode (payload : Bytes) : Bytes :=
  marker :: sizeText payload.length ++ terminator :: payload

/-- What the decoder waits for. -/
inductive State where
  | seek
  /-- the digits of a size, and their value so far -/
  | size (value : Nat)
  /-- the last `remaining` bytes of a frame whose first bytes are here in reverse -/
  | payload (collected : Bytes) (remaining : Nat)
  deriving DecidableEq

inductive DecodeError where
  | tooLarge (limit : Nat)
  /-- the announced size is larger than any object -/
  | outOfRange
  deriving DecidableEq

namespace DecodeError

def message : DecodeError → String
  | tooLarge limit => s!"malformed wire data: frame size exceeds the maximum of {limit} bytes"
  | outOfRange => "a number is out of range"

end DecodeError

/-- The effect of one byte. -/
inductive Step where
  | more (state : State)
  | frame (payload : Bytes)
  | fail (error : DecodeError)

/-- One byte of the digits of a size. -/
def stepSize (limit value : Nat) (b : UInt8) : Step :=
  if 48 ≤ b.toNat ∧ b.toNat ≤ 57 then
    let value := value * 10 + (b.toNat - 48)
    if wordMax < value ∨ limit < value then .fail (.tooLarge limit) else .more (.size value)
  else if b = terminator then
    if value = 0 then .more .seek
    else if sizeMax < value then .fail .outOfRange
    else .more (.payload [] value)
  else if b = marker then .more (.size 0)
  else .more .seek

def step (limit : Nat) : State → UInt8 → Step
  | .seek, b => if b = marker then .more (.size 0) else .more .seek
  | .size value, b => stepSize limit value b
  | .payload collected remaining, b =>
    if remaining ≤ 1 then .frame (b :: collected).reverse
    else .more (.payload (b :: collected) (remaining - 1))

/-- What decoding a piece came to: the state for the next piece, the frames that
were completed, and the failure that ended it early. -/
structure Decoded where
  state : State
  frames : List Bytes
  error : Option DecodeError

/-- Decodes a piece after frames in reverse. A failure loses the rest of the
piece. -/
def decodeFrom (limit : Nat) : State → Bytes → List Bytes → Decoded
  | state, [], frames => ⟨state, frames.reverse, none⟩
  | state, b :: rest, frames =>
    match step limit state b with
    | .more state => decodeFrom limit state rest frames
    | .frame payload => decodeFrom limit .seek rest (payload :: frames)
    | .fail e => ⟨.seek, frames.reverse, some e⟩

/-- Decodes one piece of a stream. -/
def decode (limit : Nat) (state : State) (piece : Bytes) : Decoded :=
  decodeFrom limit state piece []

end Courier.Frame
