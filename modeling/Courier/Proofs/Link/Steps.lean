import Courier.Proofs.Link.Run
import Courier.Proofs.Outbound.Steps
import Courier.Proofs.Reassembly.Table

/-!
What chunks on the network look like, and every step of a link as a case distinction on
the queue of the near end and the table of the far end.
-/

namespace Courier.Link

open Outbound Reassembly

/-- A message in the queue, at some time, that was registered with its address and
bytes. -/
def Origin (cs : Nat) (log : List Fact) (m : Message) : Prop :=
  ∃ data, .registered m.sequence m.dest data m.reliable ∈ log ∧ m.CutFrom cs data

/-- A chunk of a registered message. -/
def Genuine (cs : Nat) (log : List Fact) (o : Outgoing) : Prop :=
  ∃ m i resent, Origin cs log m ∧ i < m.total ∧ o = m.chunk i resent

theorem Origin.mono {cs : Nat} {log log' : List Fact} {m : Message} (h : Origin cs log m)
    (hl : log ⊆ log') : Origin cs log' m := by
  obtain ⟨data, hreg, hcut⟩ := h
  exact ⟨data, hl hreg, hcut⟩

theorem Genuine.mono {cs : Nat} {log log' : List Fact} {o : Outgoing} (h : Genuine cs log o)
    (hl : log ⊆ log') : Genuine cs log' o := by
  obtain ⟨m, i, resent, hm, hi, rfl⟩ := h
  exact ⟨m, i, resent, hm.mono hl, hi, rfl⟩

theorem Origin.kin {cs : Nat} {log : List Fact} {m m' : Message} (h : Origin cs log m)
    (hk : Message.Kin m m') : Origin cs log m' := by
  obtain ⟨data, hreg, hcut⟩ := h
  refine ⟨data, ?_, hcut.kin hk⟩
  rw [hk.sequence, hk.dest, hk.reliable]
  exact hreg

/-- The payload of a chunk has the length that the far end asks for. -/
theorem lengthFault_chunk {cs : Nat} {data : Bytes} {m : Message} (h : m.CutFrom cs data) {i : Nat}
    (hi : i < m.total) {r : Reassembly} (hr : r.chunkSize = cs) :
    r.lengthFault (i + 1 == m.total) (m.pieces.getD i []).length = none := by
  rw [lengthFault_eq_none_iff, hr]
  constructor
  · intro hl
    have : i + 1 ≠ m.total := by simpa using hl
    exact h.cut.length_full (show i + 1 < m.total by omega)
  · intro hl
    exact (h.cut.length_last (show i + 1 = m.total by simpa using hl)).2

/-! ## Steps -/

/-- The table of the far end after a chunk, and what became of the chunk. -/
def insert (s : Setup) (l : Link) (o : Outgoing) (now : Instant) : Outcome × Reassembly :=
  l.far.inbound.insert s.here o.header o.payload now

/-- What the application at the far end gets. -/
def delivery (s : Setup) (o : Outgoing) : Outcome → Option Received
  | .complete data => some ⟨.ofSocketAddr .udp s.here, data, o.header.kind = .data⟩
  | _ => none

/-- The acknowledgement that the far end sends for a chunk. -/
def reply (o : Outgoing) : Option Bytes :=
  if o.header.kind = .data then some (Chunk.packet o.header.toAck []) else none

/-- A link after a chunk arrived. -/
def received (s : Setup) (l : Link) (o : Outgoing) (now : Instant) : Link :=
  { l with
    far := { l.far with inbound := (l.insert s o now).2 }
    acks := l.acks ++ (reply o).toList
    log := .arrived o (l.insert s o now).1 (delivery s o (l.insert s o now).1) :: l.log }

/-- A link with another queue at its near end. -/
def withQueue (l : Link) (outbound : Queue) : Link := { l with near := { l.near with outbound } }

/-- A link after an acknowledgement arrived. -/
def acked (l : Link) (outbound : Queue) : Link :=
  { l.withQueue outbound with log := .settled (l.near.outbound.gone outbound) :: l.log }

/-- A link after a purge. -/
def purged (l : Link) (inbound : Reassembly) : Link :=
  { l with
    far := { l.far with inbound }
    log := .purged (discarded l.far.inbound inbound) (forgotten l.far.inbound inbound) :: l.log }

theorem mem_discarded {r r' : Reassembly} {k : Key} :
    k ∈ discarded r r' ↔ (∃ p, r.find? k = some p) ∧ r'.find? k = none := by
  rw [discarded, List.mem_filter, mem_keys_iff, Option.isNone_iff_eq_none]
  rfl

theorem mem_forgotten {r r' : Reassembly} {k : Key} :
    k ∈ forgotten r r' ↔ (∃ t, r.completed.lookup k = some t) ∧ r'.completed.lookup k = none := by
  rw [forgotten, List.mem_filter, mem_keys_iff]
  simp [isCompleted]

/-- Everything that a step can do to a link whose network holds nothing but chunks of
registered messages and acknowledgements of them. -/
inductive Steps (s : Setup) (l : Link) : Event → Link → Prop
  | idle (e : Event) : Steps s l e l
  | registered (dest : SocketAddr) (data : Bytes) (reliable : Bool) (n : UInt64) (q : Queue)
      (ok : l.near.outbound.register dest data reliable = .ok (n, q)) :
      Steps s l (.register dest data reliable)
        { l.withQueue q with log := .registered n dest data reliable :: l.log }
  | picked : Steps s l .pick
      { l.withQueue l.near.outbound.next.2 with
        sent := l.sent ++ l.near.outbound.next.1.toList }
  | written (n : UInt64) : Steps s l (.written n) (l.withQueue (l.near.outbound.markWritten n))
  | arrived (place : Nat) (o : Outgoing) (now : Instant) (found : l.sent[place]? = some o)
      (dest : o.dest = s.there) (valid : o.header.Valid) :
      Steps s l (.arrive place now) (l.received s o now)
  | acknowledged (place : Nat) (ack : Chunk.Header) (now : Instant)
      (found : l.acks[place]? = some (Chunk.packet ack [])) (valid : ack.Valid) :
      Steps s l (.acknowledge place now) (l.acked (l.near.outbound.acknowledge ack).2)
  | ticked (tickThreshold threshold : Nat) : Steps s l (.tick tickThreshold threshold)
      (l.withQueue (l.near.outbound.tick tickThreshold threshold).2)
  | cancelled (dest : SocketAddr) :
      Steps s l (.cancel dest) (l.withQueue (l.near.outbound.dropTo dest).2)
  | purged (now : Instant) (timeout retention : Duration) : Steps s l (.purge now timeout retention)
      (l.purged (l.far.inbound.purge now timeout retention).2)

/-- What the near end may find on the network: acknowledgements of genuine chunks. -/
def Reply (cs : Nat) (log : List Fact) (b : Bytes) : Prop :=
  ∃ o, Genuine cs log o ∧ b = Chunk.packet o.header.toAck []

theorem arrive_eq {s : Setup} {l : Link} {o : Outgoing}
    (ho : Genuine s.far.chunkSize l.log o) (now : Instant) :
    l.arrive s o now = l.received s o now := by
  obtain ⟨m, i, resent, ⟨data, _, hm⟩, hi, rfl⟩ := ho
  have hpos := hm.cut.pos
  have hlen := Chunk.Header.length_packet (m.header i) (m.pieces.getD i [])
  have hle := hm.length_le i
  have hsize : ¬ s.far.packetSize < (m.chunk i resent).packet.length := by
    unfold Config.chunkSize at hpos hle
    show ¬ s.far.packetSize < (Chunk.packet (m.header i) (m.pieces.getD i [])).length
    rw [hlen]
    omega
  have hdecode : Chunk.Header.decode (m.chunk i resent).packet =
      .ok ((m.chunk i resent).header, (m.chunk i resent).payload) :=
    Chunk.Header.decode_packet (hm.valid hi) _
  have hkind : (m.chunk i resent).header.kind ≠ .ack := m.kind_ne_ack
  have hreceive : l.far.receive s.far now s.here (m.chunk i resent).packet =
      l.far.receiveChunk now s.here (m.chunk i resent).header (m.chunk i resent).payload := by
    unfold Datagram.Channel.receive
    rw [if_neg hsize, hdecode]
    dsimp only
    rw [if_neg hkind]
  unfold arrive received
  rw [hreceive]
  unfold Datagram.Channel.receiveChunk insert delivery reply
  generalize l.far.inbound.insert s.here (m.chunk i resent).header (m.chunk i resent).payload now =
    result
  obtain ⟨outcome, inbound⟩ := result
  cases outcome <;> rfl

theorem acknowledge_eq {s : Setup} {l : Link} {b : Bytes} (hb : Reply s.near.chunkSize l.log b)
    (now : Instant) : ∃ ack : Chunk.Header, ack.Valid ∧ b = Chunk.packet ack [] ∧
      l.acknowledge s b now = l.acked (l.near.outbound.acknowledge ack).2 := by
  obtain ⟨o, ⟨m, i, resent, ⟨data, _, hm⟩, hi, rfl⟩, rfl⟩ := hb
  have hpos := hm.cut.pos
  have hv := hm.valid hi
  refine ⟨(m.header i).toAck, hv, rfl, ?_⟩
  have hsize : ¬ s.near.packetSize < (Chunk.packet (m.header i).toAck []).length := by
    unfold Config.chunkSize at hpos
    rw [Chunk.Header.length_packet]
    show ¬ s.near.packetSize < _ + 0
    omega
  have hreceive : (l.near.receive s.near now s.there (Chunk.packet (m.header i).toAck [])).2 =
      { l.near with outbound := (l.near.outbound.acknowledge (m.header i).toAck).2 } := by
    unfold Datagram.Channel.receive
    rw [if_neg hsize, Chunk.Header.decode_packet (Chunk.Header.valid_toAck hv)]
    rfl
  unfold acknowledge acked withQueue
  rw [Message.header_chunk]
  generalize l.near.receive s.near now s.there (Chunk.packet (m.header i).toAck []) = result
    at hreceive
  obtain ⟨_, near⟩ := result
  dsimp only at hreceive
  subst hreceive
  rfl

theorem steps_step {s : Setup} {l : Link}
    (hsent : ∀ o ∈ l.sent, Genuine s.far.chunkSize l.log o)
    (hacks : ∀ b ∈ l.acks, Reply s.near.chunkSize l.log b) (e : Event) :
    Steps s l e (step s l e) := by
  cases e with
  | register dest data reliable =>
    cases hr : l.near.outbound.register dest data reliable with
    | error =>
      simp only [step, Datagram.Channel.send, hr, Except.map]
      exact .idle _
    | ok r =>
      simp only [step, Datagram.Channel.send, hr, Except.map]
      exact .registered dest data reliable r.1 r.2 hr
  | pick => exact .picked
  | written n => exact .written n
  | arrive place now =>
    cases ho : l.sent[place]? with
    | none =>
      simp only [step, ho]
      exact .idle _
    | some o =>
      simp only [step, ho]
      have hgen := hsent o (List.mem_of_getElem? ho)
      split
      · rw [arrive_eq hgen]
        obtain ⟨m, i, resent, ⟨_, _, hm⟩, hi, rfl⟩ := hgen
        exact .arrived place _ now ho ‹_› (hm.valid hi)
      · exact .idle _
  | acknowledge place now =>
    cases hb : l.acks[place]? with
    | none =>
      simp only [step, hb]
      exact .idle _
    | some b =>
      simp only [step, hb]
      obtain ⟨ack, hv, rfl, heq⟩ := acknowledge_eq (hacks b (List.mem_of_getElem? hb)) now
      rw [heq]
      exact .acknowledged place ack now hb hv
  | tick a b => exact .ticked a b
  | cancel dest => exact .cancelled dest
  | purge now timeout retention => exact .purged now timeout retention

end Courier.Link
