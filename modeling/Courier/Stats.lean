/-!
Counters of a transport. They wrap around at the end of a machine word.
-/

namespace Courier

structure Stats where
  bytesSent : UInt64 := 0
  bytesReceived : UInt64 := 0
  droppedChunks : UInt64 := 0
  droppedMessages : UInt64 := 0
  resentChunks : UInt64 := 0
  poolRebuilds : UInt64 := 0
  deriving DecidableEq

namespace Stats

def sent (s : Stats) (n : Nat) : Stats :=
  { s with bytesSent := s.bytesSent + UInt64.ofNat n }

def received (s : Stats) (n : Nat) : Stats :=
  { s with bytesReceived := s.bytesReceived + UInt64.ofNat n }

def resent (s : Stats) (n : Nat) : Stats :=
  { s with resentChunks := s.resentChunks + UInt64.ofNat n }

def chunkDropped (s : Stats) : Stats :=
  { s with droppedChunks := s.droppedChunks + 1 }

def messagesDropped (s : Stats) (n : Nat) : Stats :=
  { s with droppedMessages := s.droppedMessages + UInt64.ofNat n }

def poolRebuilt (s : Stats) : Stats :=
  { s with poolRebuilds := s.poolRebuilds + 1 }

end Stats

end Courier
