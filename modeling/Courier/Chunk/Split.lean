import Courier.Bytes

/-!
Cutting a message into chunks of one size, of which only the last may be
shorter.
-/

namespace Courier.Chunk

/-- The number of chunks of a message is 16 bits wide on the wire. -/
def maxCount : Nat := 65535

/-- How many chunks of a given size carry a message; a size of zero carries
none. -/
def count? (length chunkSize : Nat) : Option Nat :=
  if chunkSize = 0 then none
  else some ((length + (chunkSize - 1)) / chunkSize)

/-- The part of a message that one of its chunks carries. A chunk that starts
after the end of the message, or beyond the machine's range, does not exist. -/
def payload? (message : Bytes) (chunkSize index : Nat) : Option Bytes :=
  let start := index * chunkSize
  if start + chunkSize ≤ wordMax ∧ start ≤ message.length then
    some ((message.drop start).take chunkSize)
  else none

/-- The first `n` pieces of the given size, after those that are known. -/
def piecesFrom (chunkSize : Nat) : (n : Nat) → Bytes → Array Bytes → Array Bytes
  | 0, _, known => known
  | n + 1, rest, known =>
    piecesFrom chunkSize n (rest.drop chunkSize) (known.push (rest.take chunkSize))

/-- All pieces of a message in order. -/
def split? (message : Bytes) (chunkSize : Nat) : Option (Array Bytes) :=
  (count? message.length chunkSize).map fun n => piecesFrom chunkSize n message #[]

/-- A count as it is written on the wire, if it fits. -/
def narrow? (n : Nat) : Option UInt16 :=
  if n ≤ maxCount then some (UInt16.ofNat n) else none

end Courier.Chunk
