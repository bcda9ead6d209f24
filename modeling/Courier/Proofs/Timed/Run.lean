import Courier.Proofs.Link.Steps

/-!
A link with a clock. Both ends have the same settings. The near end ticks regularly, and
time goes on only when nothing travels: each chunk and each acknowledgement arrives at the
instant at which it was sent, in any order, or is lost.
-/

namespace Courier

/-- The settings of both ends, and what is known of their timing. -/
structure Timed.Setup where
  config : Config
  here : SocketAddr
  there : SocketAddr
  /-- the first resend tick -/
  first : Instant
  first_le : first ≤ config.resendInterval.nanos
  /-- the first purge, if the far end purges as regularly as the near end ticks; without it
  the far end purges at any time -/
  firstPurge : Option Instant
  firstPurge_le : ∀ t ∈ firstPurge, t ≤ config.resendInterval.nanos
  /-- whether the near end sends all that it may send before time goes on -/
  prompt : Bool

structure Timed where
  link : Link
  now : Instant := 0
  /-- the next resend tick -/
  due : Instant
  /-- the next purge, if they are regular -/
  purgeDue : Option Instant
  /-- the chunks on the network -/
  flying : List Outbound.Outgoing := []
  /-- the acknowledgements on the network -/
  replies : List Bytes := []

namespace Timed

def Setup.link (s : Setup) : Link.Setup := ⟨s.config, s.config, s.here, s.there, rfl⟩

def Setup.interval (s : Setup) : Nat := s.config.resendInterval.nanos

inductive Event where
  | register (dest : SocketAddr) (data : Bytes) (reliable : Bool)
  /-- the next chunk goes on the network, if there is one -/
  | pick
  | written (sequence : UInt64)
  /-- a chunk on the network arrives, if it was sent to the far end -/
  | arrive (place : Nat)
  | lose (place : Nat)
  /-- an acknowledgement on the network arrives -/
  | acknowledge (place : Nat)
  | loseReply (place : Nat)
  | tick
  | purge
  | cancel (dest : SocketAddr)
  /-- time goes on, up to the next tick at most -/
  | wait (nanos : Nat)

def init (s : Setup) : Timed where
  link := .init s.link
  due := s.first
  purgeDue := s.firstPurge

def queue (t : Timed) : Outbound.Queue := t.link.near.outbound

def table (t : Timed) : Reassembly := t.link.far.inbound

/-- Nothing has to happen before time goes on. -/
def Rests (s : Setup) (t : Timed) : Prop :=
  t.flying = [] ∧ t.replies = [] ∧ (s.prompt = true → t.queue.next.1 = none)

instance (s : Setup) (t : Timed) : Decidable (Rests s t) := by
  unfold Rests
  infer_instance

/-- Events that may not happen now change nothing. -/
def step (s : Setup) (t : Timed) : Event → Timed
  | .register dest data reliable =>
    { t with link := t.link.step s.link (.register dest data reliable) }
  | .pick =>
    { t with
      link := t.link.step s.link .pick
      flying := t.flying ++ t.queue.next.1.toList }
  | .written n => { t with link := t.link.step s.link (.written n) }
  | .arrive place =>
    match t.flying[place]? with
    | some chunk =>
      if chunk.dest = s.there then
        let link := t.link.arrive s.link chunk t.now
        { t with
          link
          flying := t.flying.eraseIdx place
          replies := t.replies ++ link.acks.drop t.link.acks.length }
      else t
    | none => t
  | .lose place => { t with flying := t.flying.eraseIdx place }
  | .acknowledge place =>
    match t.replies[place]? with
    | some packet =>
      { t with
        link := t.link.acknowledge s.link packet t.now
        replies := t.replies.eraseIdx place }
    | none => t
  | .loseReply place => { t with replies := t.replies.eraseIdx place }
  | .tick =>
    if t.now = t.due then
      { t with
        link := t.link.step s.link
          (.tick s.config.resendTickThreshold s.config.resendThreshold)
        due := t.due + s.interval }
    else t
  | .purge =>
    if t.purgeDue.all (t.now == ·) then
      { t with
        link := t.link.step s.link
          (.purge t.now s.config.inboundTimeout s.config.completedRetention)
        purgeDue := t.purgeDue.map (· + s.interval) }
    else t
  | .cancel dest => { t with link := t.link.step s.link (.cancel dest) }
  | .wait nanos =>
    if Rests s t ∧ t.now + nanos ≤ t.due ∧ t.purgeDue.all (t.now + nanos ≤ ·) then
      { t with now := t.now + nanos }
    else t

def run (s : Setup) (events : List Event) : Timed := events.foldl (step s) (init s)

theorem run_append (s : Setup) (events : List Event) (e : Event) :
    run s (events ++ [e]) = step s (run s events) e := by
  simp [run]

end Timed

end Courier
