import Courier.Datagram.Channel
import Courier.Proofs.Outbound.Chunks

/-!
Two channels with a network between them: the near one sends, the far one receives and
acknowledges. Every chunk and every acknowledgement that was ever put on the network
stays there and may arrive at any time, any number of times, or never. A log tells what
an onlooker sees, newest first.
-/

namespace Courier

/-- The settings of both ends and their addresses. The ends agree on the size of a
chunk. -/
structure Link.Setup where
  near : Config
  far : Config
  here : SocketAddr
  there : SocketAddr
  sameSize : near.chunkSize = far.chunkSize

/-- What an onlooker sees. -/
inductive Link.Fact where
  | registered (sequence : UInt64) (dest : SocketAddr) (data : Bytes) (reliable : Bool)
  /-- a chunk arrived at the far end, what became of it there, and what the application
  got -/
  | arrived (chunk : Outbound.Outgoing) (outcome : Reassembly.Outcome)
      (delivered : Option Received)
  /-- the far end purged: the incomplete messages that are gone, and the completed ones -/
  | purged (discarded forgotten : List Reassembly.Key)
  /-- an acknowledgement arrived, and these messages left the queue -/
  | settled (sequences : List UInt64)

structure Link where
  near : Datagram.Channel
  far : Datagram.Channel
  /-- all chunks ever sent, oldest first -/
  sent : List Outbound.Outgoing := []
  /-- all acknowledgements ever sent, oldest first -/
  acks : List Bytes := []
  log : List Link.Fact := []

namespace Link

inductive Event where
  | register (dest : SocketAddr) (data : Bytes) (reliable : Bool)
  /-- the next chunk goes on the network, if there is one -/
  | pick
  | written (sequence : UInt64)
  /-- the chunk that was sent after `place` others arrives, if it was sent to the far end -/
  | arrive (place : Nat) (now : Instant)
  /-- the acknowledgement that was sent after `place` others arrives -/
  | acknowledge (place : Nat) (now : Instant)
  | tick (tickThreshold threshold : Nat)
  | cancel (dest : SocketAddr)
  | purge (now : Instant) (timeout retention : Duration)

/-- Keys of incomplete messages in the first table that are not incomplete in the
second. -/
def discarded (r r' : Reassembly) : List Reassembly.Key :=
  (r.messages.map (·.1)).filter fun key => (r'.find? key).isNone

/-- Keys of completed messages in the first table that are not remembered in the
second. -/
def forgotten (r r' : Reassembly) : List Reassembly.Key :=
  (r.completed.map (·.1)).filter fun key => !r'.isCompleted key

def init (s : Setup) : Link where
  near := .ofConfig s.near s.here.family
  far := .ofConfig s.far s.there.family

/-- A chunk reaches the far end. -/
def arrive (s : Setup) (l : Link) (chunk : Outbound.Outgoing) (now : Instant) : Link :=
  let (receipt, far) := l.far.receive s.far now s.here chunk.packet
  let outcome := (l.far.inbound.insert s.here chunk.header chunk.payload now).1
  { l with
    far
    acks := l.acks ++ receipt.reply.toList
    log := .arrived chunk outcome receipt.message :: l.log }

/-- A datagram of the far end reaches the near one. -/
def acknowledge (s : Setup) (l : Link) (packet : Bytes) (now : Instant) : Link :=
  let (_, near) := l.near.receive s.near now s.there packet
  { l with near, log := .settled (l.near.outbound.gone near.outbound) :: l.log }

def step (s : Setup) (l : Link) : Event → Link
  | .register dest data reliable =>
    match l.near.send dest data reliable with
    | .error _ => l
    | .ok (n, near) => { l with near, log := .registered n dest data reliable :: l.log }
  | .pick =>
    let (chunk, outbound) := l.near.outbound.next
    { l with near := { l.near with outbound }, sent := l.sent ++ chunk.toList }
  | .written n => { l with near := { l.near with outbound := l.near.outbound.markWritten n } }
  | .arrive place now =>
    match l.sent[place]? with
    | some chunk => if chunk.dest = s.there then l.arrive s chunk now else l
    | none => l
  | .acknowledge place now =>
    match l.acks[place]? with
    | some packet => l.acknowledge s packet now
    | none => l
  | .tick tickThreshold threshold =>
    let (_, outbound) := l.near.outbound.tick tickThreshold threshold
    { l with near := { l.near with outbound } }
  | .cancel dest => { l with near := l.near.dropTo dest }
  | .purge now timeout retention =>
    let (_, inbound) := l.far.inbound.purge now timeout retention
    { l with
      far := { l.far with inbound }
      log := .purged (discarded l.far.inbound inbound) (forgotten l.far.inbound inbound) :: l.log }

def run (s : Setup) (events : List Event) : Link := events.foldl (step s) (init s)

theorem run_append (s : Setup) (events : List Event) (e : Event) :
    run s (events ++ [e]) = step s (run s events) e := by
  simp [run]

/-! ## Reading the log -/

/-- A chunk of a message has arrived. -/
def Came (n : UInt64) (index : Nat) (log : List Fact) : Prop :=
  ∃ chunk outcome delivered, .arrived chunk outcome delivered ∈ log ∧
    chunk.header.sequence = n ∧ chunk.header.index.toNat = index

/-- A message has been delivered. -/
def Completed (n : UInt64) (log : List Fact) : Prop :=
  ∃ chunk data delivered, .arrived chunk (.complete data) delivered ∈ log ∧
    chunk.header.sequence = n

/-- With this fact a message is delivered. -/
def Fact.Completes (n : UInt64) : Fact → Prop
  | .arrived chunk (.complete _) _ => chunk.header.sequence = n
  | _ => False

instance (n : UInt64) : (f : Fact) → Decidable (f.Completes n)
  | .arrived chunk (.complete _) _ => inferInstanceAs (Decidable (chunk.header.sequence = n))
  | .arrived _ .incomplete _ | .arrived _ .duplicate _ | .arrived _ (.rejected _) _
  | .arrived _ .outOfRange _ | .registered .. | .purged .. | .settled .. =>
    inferInstanceAs (Decidable False)

theorem completed_iff {n : UInt64} {log : List Fact} :
    Completed n log ↔ ∃ f ∈ log, f.Completes n := by
  constructor
  · rintro ⟨chunk, data, delivered, hm, hs⟩
    exact ⟨_, hm, hs⟩
  · rintro ⟨f, hm, hf⟩
    unfold Fact.Completes at hf
    split at hf
    · exact ⟨_, _, _, hm, hf⟩
    · exact hf.elim

instance (n : UInt64) (log : List Fact) : Decidable (Completed n log) :=
  decidable_of_iff _ completed_iff.symm

/-- A chunk of the message found no room, or a purge removed something of it. -/
def Fact.Disturbs (s : Setup) (n : UInt64) : Fact → Prop
  | .arrived chunk outcome _ =>
    chunk.header.sequence = n ∧ (outcome = .rejected .bufferLimit ∨ outcome = .outOfRange)
  | .purged discarded forgotten => (s.here, n) ∈ discarded ∨ (s.here, n) ∈ forgotten
  | _ => False

def Undisturbed (s : Setup) (n : UInt64) (log : List Fact) : Prop := ∀ f ∈ log, ¬ f.Disturbs s n

theorem Came.mono {n : UInt64} {i : Nat} {log log' : List Fact} (h : Came n i log)
    (hl : log ⊆ log') : Came n i log' := by
  obtain ⟨chunk, outcome, delivered, hm, hs, hi⟩ := h
  exact ⟨chunk, outcome, delivered, hl hm, hs, hi⟩

theorem Came.cons {n : UInt64} {i : Nat} {log : List Fact} (h : Came n i log) (f : Fact) :
    Came n i (f :: log) :=
  h.mono (List.subset_cons_self f log)

theorem Completed.mono {n : UInt64} {log log' : List Fact} (h : Completed n log)
    (hl : log ⊆ log') : Completed n log' := by
  obtain ⟨chunk, data, delivered, hm, hs⟩ := h
  exact ⟨chunk, data, delivered, hl hm, hs⟩

theorem Completed.cons {n : UInt64} {log : List Fact} (h : Completed n log) (f : Fact) :
    Completed n (f :: log) :=
  h.mono (List.subset_cons_self f log)

/-- What was delivered has come. -/
theorem Completed.came {n : UInt64} {log : List Fact} (h : Completed n log) :
    ∃ i, Came n i log := by
  obtain ⟨chunk, data, delivered, hm, hs⟩ := h
  exact ⟨_, chunk, _, delivered, hm, hs, rfl⟩

theorem came_arrived_cons {n : UInt64} {i : Nat} {o : Outbound.Outgoing}
    {outcome : Reassembly.Outcome} {d : Option Received} {log : List Fact} :
    Came n i (.arrived o outcome d :: log) ↔
      o.header.sequence = n ∧ o.header.index.toNat = i ∨ Came n i log := by
  constructor
  · rintro ⟨o', outcome', d', hm, hs, hi⟩
    rcases List.mem_cons.mp hm with heq | hm
    · cases heq
      exact Or.inl ⟨hs, hi⟩
    · exact Or.inr ⟨o', outcome', d', hm, hs, hi⟩
  · rintro (⟨hs, hi⟩ | h)
    · exact ⟨o, outcome, d, List.mem_cons_self, hs, hi⟩
    · exact h.cons _

theorem completed_arrived_cons {n : UInt64} {o : Outbound.Outgoing}
    {outcome : Reassembly.Outcome} {d : Option Received} {log : List Fact} :
    Completed n (.arrived o outcome d :: log) ↔
      o.header.sequence = n ∧ (∃ data, outcome = .complete data) ∨ Completed n log := by
  constructor
  · rintro ⟨o', data, d', hm, hs⟩
    rcases List.mem_cons.mp hm with heq | hm
    · cases heq
      exact Or.inl ⟨hs, data, rfl⟩
    · exact Or.inr ⟨o', data, d', hm, hs⟩
  · rintro (⟨hs, data, rfl⟩ | h)
    · exact ⟨o, data, d, List.mem_cons_self, hs⟩
    · exact h.cons _

/-- Facts other than arrivals. -/
theorem came_cons {n : UInt64} {i : Nat} {f : Fact} {log : List Fact}
    (hf : ∀ o outcome d, f ≠ .arrived o outcome d) : Came n i (f :: log) ↔ Came n i log := by
  refine ⟨?_, fun h => h.cons f⟩
  rintro ⟨o, outcome, d, hm, hs, hi⟩
  rcases List.mem_cons.mp hm with heq | hm
  · exact absurd heq.symm (hf o outcome d)
  · exact ⟨o, outcome, d, hm, hs, hi⟩

theorem completed_cons {n : UInt64} {f : Fact} {log : List Fact}
    (hf : ∀ o outcome d, f ≠ .arrived o outcome d) : Completed n (f :: log) ↔ Completed n log := by
  refine ⟨?_, fun h => h.cons f⟩
  rintro ⟨o, data, d, hm, hs⟩
  rcases List.mem_cons.mp hm with heq | hm
  · exact absurd heq.symm (hf o _ d)
  · exact ⟨o, data, d, hm, hs⟩

theorem Undisturbed.tail {s : Setup} {n : UInt64} {f : Fact} {log : List Fact}
    (h : Undisturbed s n (f :: log)) : Undisturbed s n log :=
  fun g hg => h g (List.mem_cons_of_mem f hg)

end Link

end Courier
