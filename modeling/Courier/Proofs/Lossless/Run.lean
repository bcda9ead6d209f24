import Courier.Proofs.Link.Room

/-!
A sender, a receiver, and a network that may hold back and reorder what is sent, but neither
loses nor doubles it. Each chunk and each acknowledgement on the network arrives once, when it
pleases. There are no resend ticks and no purges.
-/

namespace Courier

/-- The settings of both ends. The sender may send something, and the receiver's bound on its
buffers is a number that the machine has. -/
structure Lossless.Setup extends Link.Setup where
  flight : 0 < near.maxFlight
  word : far.maxPartialBytes ≤ wordMax

structure Lossless where
  link : Link
  /-- the messages of the chunks that the socket has not reported as written -/
  unwritten : List UInt64 := []
  /-- the chunks on the network -/
  flying : List Outbound.Outgoing := []
  /-- the acknowledgements on the network -/
  replies : List Bytes := []

namespace Lossless

inductive Event where
  /-- a message for the receiver, which fits the machine -/
  | register (data : Bytes) (fits : data.length ≤ sizeMax) (reliable : Bool)
  /-- the next chunk goes to the socket and on the network, if there is one -/
  | pick
  | written (place : Nat)
  /-- a chunk on the network arrives -/
  | arrive (place : Nat) (now : Instant)
  /-- an acknowledgement on the network arrives -/
  | acknowledge (place : Nat) (now : Instant)

def init (s : Setup) : Lossless where
  link := .init s.toSetup

def queue (t : Lossless) : Outbound.Queue := t.link.near.outbound

/-- Events that name nothing on the network change nothing. -/
def step (s : Setup) (t : Lossless) : Event → Lossless
  | .register data _ reliable =>
    { t with link := t.link.step s.toSetup (.register s.there data reliable) }
  | .pick =>
    { t with
      link := t.link.step s.toSetup .pick
      unwritten := t.unwritten ++ t.queue.next.1.toList.map (·.header.sequence)
      flying := t.flying ++ t.queue.next.1.toList }
  | .written place =>
    match t.unwritten[place]? with
    | some n =>
      { t with
        link := t.link.step s.toSetup (.written n)
        unwritten := t.unwritten.eraseIdx place }
    | none => t
  | .arrive place now =>
    match t.flying[place]? with
    | some chunk =>
      let link := t.link.arrive s.toSetup chunk now
      { t with
        link
        flying := t.flying.eraseIdx place
        replies := t.replies ++ link.acks.drop t.link.acks.length }
    | none => t
  | .acknowledge place now =>
    match t.replies[place]? with
    | some packet =>
      { t with
        link := t.link.acknowledge s.toSetup packet now
        replies := t.replies.eraseIdx place }
    | none => t

def run (s : Setup) (events : List Event) : Lossless := events.foldl (step s) (init s)

theorem run_append (s : Setup) (events : List Event) (e : Event) :
    run s (events ++ [e]) = step s (run s events) e := by
  simp [run]

/-- Nothing is under way, and the sender has nothing that it may send. -/
structure Quiet (t : Lossless) : Prop where
  written : t.unwritten = []
  landed : t.flying = []
  heard : t.replies = []
  idle : t.queue.next.1 = none

end Lossless

end Courier
