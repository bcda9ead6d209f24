import Courier.Proofs.Config
import Courier.Proofs.Datagram.Life
import Courier.Proofs.Reassembly.Store

/-!
What a channel does with one datagram, whatever its bytes are: what it answers, what it counts
and what it leaves alone. Main statement: with accepted settings nothing that arrives takes
the table of incoming messages beyond the range of the machine.
-/

namespace Courier.Reassembly

variable {r : Reassembly}

/-- If all buffers and one more message fit in a word, so does every chunk. -/
theorem Sound.insert_fst_ne (hr : r.Sound) (hplace : Chunk.maxCount * r.chunkSize ≤ sizeMax)
    (hroom : r.maxPartialBytes + Chunk.maxCount * r.chunkSize ≤ wordMax) (sender : SocketAddr)
    {h : Chunk.Header} (hv : h.Valid) (payload : Bytes) (now : Instant) :
    (r.insert sender h payload now).1 ≠ .outOfRange := by
  intro hout
  obtain ⟨acceptable, outside⟩ := (inserts_insert r sender hv payload now).of_outOfRange hout
  have hlt : h.index.toNat < h.total.toNat := UInt16.lt_iff_toNat_lt.mp hv
  have hcount : h.total.toNat ≤ Chunk.maxCount := Nat.le_of_lt_succ h.total.toNat_lt
  have hstop : h.index.toNat * r.chunkSize + payload.length ≤ Chunk.maxCount * r.chunkSize :=
    calc h.index.toNat * r.chunkSize + payload.length
        ≤ (h.index.toNat + 1) * r.chunkSize := by
          rw [Nat.succ_mul]
          exact Nat.add_le_add_left (length_le_of_sized acceptable.sized) _
      _ ≤ Chunk.maxCount * r.chunkSize := Nat.mul_le_mul_right _ (by omega)
  have hgrowth : r.growth (sender, h.sequence) h payload now ≤
      h.index.toNat * r.chunkSize + payload.length := Nat.sub_le _ _
  have hbuffered := hr.buffered_le
  exact outside ⟨by omega, fun _ => by omega⟩

/-- Then no table halts on chunks from the wire. -/
theorem Store.exists_run? {cs limit : Nat} (hplace : Chunk.maxCount * cs ≤ sizeMax)
    (hroom : limit + Chunk.maxCount * cs ≤ wordMax) {calls : List Call}
    (hv : ∀ call ∈ calls, call.Valid) :
    ∃ s, Store.run? cs limit calls = some s ∧ s.Mirrors (afterAll cs limit calls) := by
  induction calls using List.reverseRecOn with
  | nil => exact ⟨_, rfl, .init _ _⟩
  | append_singleton calls call ih =>
    obtain ⟨hbefore, hlast⟩ := List.forall_mem_append.mp hv
    obtain ⟨s, hs, mirrors⟩ := ih hbefore
    obtain ⟨hsound, hsize, hlimit⟩ := sound_afterAll cs limit hbefore
    have hrange : ∀ sender h payload now, call = .arrive sender h payload now →
        ((afterAll cs limit calls).insert sender h payload now).1 ≠ .outOfRange := by
      rintro sender h payload now rfl
      refine hsound.insert_fst_ne ?_ ?_ sender (hlast _ (List.mem_singleton_self _)) payload now
      · rw [hsize]
        exact hplace
      · rw [hsize, hlimit]
        exact hroom
    obtain ⟨s', hs'⟩ := mirrors.exists_step? hsound.toTallied call hrange
    rw [afterAll_append, run?_concat, hs, Option.bind_some]
    exact ⟨s', hs', mirrors.step? hsound.toTallied hs'⟩

end Courier.Reassembly

namespace Courier.Datagram

open Reassembly (Call Store)

variable {c : Config} {ch : Channel}

/-! ## One datagram -/

/-- What a channel does with a datagram. -/
structure Handles (c : Config) (ch : Channel) (now : Instant) (sender : SocketAddr)
    (packet : Bytes) (receipt : Receipt) (ch' : Channel) : Prop where
  /-- every chunk of a reliable message is acknowledged, and nothing else is -/
  reply : ∀ b, receipt.reply = some b ↔
    packet.length ≤ c.packetSize ∧ ∃ h payload, Chunk.Header.decode packet = .ok (h, payload) ∧
      h.kind = .data ∧ b = Chunk.packet ⟨.ack, h.sequence, h.total, h.index⟩ []
  length_reply : ∀ b, receipt.reply = some b → b.length = 13
  dropped : receipt.dropped = true ↔
    c.packetSize < packet.length ∨ (∃ e, Chunk.Header.decode packet = .error e) ∨
      ∃ h payload reason, Chunk.Header.decode packet = .ok (h, payload) ∧ h.kind ≠ .ack ∧
        (ch.inbound.insert sender h payload now).1 = .rejected reason
  ack : ∀ h payload, Chunk.Header.decode packet = .ok (h, payload) → h.kind = .ack →
    ch'.inbound = ch.inbound ∧ receipt.message = none
  other : (packet.length ≤ c.packetSize →
      ∀ h payload, Chunk.Header.decode packet = .ok (h, payload) → h.kind ≠ .ack) →
    ch'.outbound = ch.outbound ∧ receipt.progress = false
  rest : ch'.abandoned = ch.abandoned ∧ ch'.resolver = ch.resolver

theorem length_ack (h : Chunk.Header) : (Chunk.packet h.toAck []).length = 13 :=
  Chunk.Header.length_packet _ _

/-- A datagram that is no chunk. -/
theorem handles_dropped {now : Instant} {sender : SocketAddr} {packet : Bytes}
    (hbad : c.packetSize < packet.length ∨ ∃ e, Chunk.Header.decode packet = .error e) :
    Handles c ch now sender packet { dropped := true } ch where
  reply b := by
    refine ⟨(nomatch ·), ?_⟩
    rintro ⟨hsize, h, payload, hd, _⟩
    rcases hbad with hlong | ⟨e, he⟩
    · omega
    · cases he.symm.trans hd
  length_reply _ hb := nomatch hb
  dropped := ⟨fun _ => hbad.imp_right Or.inl, fun _ => rfl⟩
  ack _ _ _ _ := ⟨rfl, rfl⟩
  other _ := ⟨rfl, rfl⟩
  rest := ⟨rfl, rfl⟩

theorem handles_ack {now : Instant} {sender : SocketAddr} {packet payload : Bytes}
    {h : Chunk.Header} (hsize : packet.length ≤ c.packetSize)
    (hd : Chunk.Header.decode packet = .ok (h, payload)) (hack : h.kind = .ack) (progress : Bool)
    (q : Outbound.Queue) :
    Handles c ch now sender packet { progress } { ch with outbound := q } where
  reply b := by
    refine ⟨(nomatch ·), ?_⟩
    rintro ⟨_, h', payload', hd', hdata, _⟩
    cases hd.symm.trans hd'
    cases hack.symm.trans hdata
  length_reply _ hb := nomatch hb
  dropped := by
    refine ⟨(nomatch ·), ?_⟩
    rintro (hlong | ⟨e, he⟩ | ⟨h', payload', reason, hd', hkind, _⟩)
    · omega
    · cases he.symm.trans hd
    · cases hd.symm.trans hd'
      exact absurd hack hkind
  ack _ _ _ _ := ⟨rfl, rfl⟩
  other hother := absurd hack (hother hsize h payload hd)
  rest := ⟨rfl, rfl⟩

theorem receiveChunk_fst (ch : Channel) (now : Instant) (sender : SocketAddr) (h : Chunk.Header)
    (payload : Bytes) :
    (ch.receiveChunk now sender h payload).1.reply =
        (if h.kind = .data then some (Chunk.packet h.toAck []) else none) ∧
      ((ch.receiveChunk now sender h payload).1.dropped = true ↔
        ∃ reason, (ch.inbound.insert sender h payload now).1 = .rejected reason) ∧
      (ch.receiveChunk now sender h payload).1.progress = false := by
  unfold Channel.receiveChunk
  generalize ch.inbound.insert sender h payload now = result
  obtain ⟨outcome, inbound⟩ := result
  cases outcome <;> simp

theorem handles_chunk {now : Instant} {sender : SocketAddr} {packet payload : Bytes}
    {h : Chunk.Header} (hsize : packet.length ≤ c.packetSize)
    (hd : Chunk.Header.decode packet = .ok (h, payload)) (hkind : h.kind ≠ .ack) :
    Handles c ch now sender packet (ch.receiveChunk now sender h payload).1
      (ch.receiveChunk now sender h payload).2 := by
  obtain ⟨hreply, hdropped, hprogress⟩ := receiveChunk_fst ch now sender h payload
  rw [receiveChunk_snd]
  refine ⟨fun b => ?_, fun b hb => ?_, ?_, fun h' payload' hd' hack => ?_,
    fun _ => ⟨rfl, hprogress⟩, ⟨rfl, rfl⟩⟩
  · rw [hreply]
    constructor
    · intro hb
      split at hb
      · exact ⟨hsize, h, payload, hd, ‹_›, (Option.some.inj hb).symm⟩
      · cases hb
    · rintro ⟨_, h', payload', hd', hdata, rfl⟩
      cases hd.symm.trans hd'
      exact if_pos hdata
  · rw [hreply] at hb
    split at hb
    · rw [← Option.some.inj hb]
      exact length_ack h
    · cases hb
  · rw [hdropped]
    constructor
    · rintro ⟨reason, hr⟩
      exact Or.inr (Or.inr ⟨h, payload, reason, hd, hkind, hr⟩)
    · rintro (hlong | ⟨e, he⟩ | ⟨h', payload', reason, hd', _, hr⟩)
      · omega
      · cases he.symm.trans hd
      · cases hd.symm.trans hd'
        exact ⟨reason, hr⟩
  · cases hd.symm.trans hd'
    exact absurd hack hkind

theorem handles_receive (c : Config) (ch : Channel) (now : Instant) (sender : SocketAddr)
    (packet : Bytes) : Handles c ch now sender packet (ch.receive c now sender packet).1
      (ch.receive c now sender packet).2 := by
  unfold Channel.receive
  by_cases hlong : c.packetSize < packet.length
  · rw [if_pos hlong]
    exact handles_dropped (Or.inl hlong)
  rw [if_neg hlong]
  have hsize := Nat.not_lt.mp hlong
  cases hd : Chunk.Header.decode packet with
  | error e => exact handles_dropped (Or.inr ⟨e, hd⟩)
  | ok r =>
    obtain ⟨h, payload⟩ := r
    dsimp only
    by_cases hack : h.kind = .ack
    · rw [if_pos hack]
      exact handles_ack hsize hd hack _ _
    · rw [if_neg hack]
      exact handles_chunk hsize hd hack

/-! ## Everything that arrives -/

/-- The chunk of a message in a datagram. -/
def chunkOf? (c : Config) (packet : Bytes) : Option (Chunk.Header × Bytes) :=
  if c.packetSize < packet.length then none
  else
    match Chunk.Header.decode packet with
    | .error _ => none
    | .ok (h, payload) => if h.kind = .ack then none else some (h, payload)

theorem valid_of_chunkOf? {packet payload : Bytes} {h : Chunk.Header}
    (hc : chunkOf? c packet = some (h, payload)) : h.Valid := by
  unfold chunkOf? at hc
  split at hc
  · cases hc
  cases hd : Chunk.Header.decode packet with
  | error e => simp [hd] at hc
  | ok r =>
    rw [hd] at hc
    dsimp only at hc
    split at hc
    · cases hc
    · cases hc
      exact (Chunk.Header.decode_eq_ok_iff.mp hd).1

theorem inbound_receive (c : Config) (ch : Channel) (now : Instant) (sender : SocketAddr)
    (packet : Bytes) : (ch.receive c now sender packet).2.inbound =
      match chunkOf? c packet with
      | none => ch.inbound
      | some (h, payload) => (ch.inbound.insert sender h payload now).2 := by
  unfold Channel.receive chunkOf?
  split
  · rfl
  cases Chunk.Header.decode packet with
  | error => rfl
  | ok r =>
    dsimp only
    split
    · rfl
    · rw [receiveChunk_snd]

namespace Life

/-- What an event is for the table of incoming messages. -/
def Event.call? (c : Config) : Event → Option Call
  | .receive sender packet now =>
    (chunkOf? c packet).map fun (h, payload) => .arrive sender h payload now
  | .tick now => some (.purge now c.inboundTimeout c.completedRetention)
  | _ => none

def calls (c : Config) (events : List Event) : List Call := events.filterMap (Event.call? c)

theorem calls_concat (c : Config) (events : List Event) (e : Event) :
    calls c (events ++ [e]) = calls c events ++ (e.call? c).toList := by
  rw [calls, List.filterMap_append]
  rfl

theorem valid_of_call? {e : Event} {call : Call} (he : e.call? c = some call) : call.Valid := by
  cases e with
  | receive sender packet now =>
    obtain ⟨⟨h, payload⟩, hc, rfl⟩ := Option.map_eq_some_iff.mp he
    exact valid_of_chunkOf? hc
  | tick now =>
    cases he
    trivial
  | _ => cases he

theorem inbound_step (c : Config) (l : Life) (e : Event) :
    (step c l e).channel.inbound = (e.call? c).toList.foldl .after l.channel.inbound := by
  cases e with
  | send dest data reliable =>
    cases hr : l.channel.outbound.register dest data reliable <;>
      simp only [step, Channel.send, hr, Except.map] <;> rfl
  | pick => rfl
  | write place =>
    unfold step
    dsimp only
    split <;> rfl
  | receive sender packet now =>
    refine (inbound_receive c l.channel now sender packet).trans ?_
    rw [Event.call?]
    cases chunkOf? c packet <;> rfl
  | tick now => rfl
  | close dest => rfl

/-- The table of incoming messages is that of the calls. -/
theorem inbound_run (c : Config) (family : Ip.Family) (events : List Event) :
    (run c family events).channel.inbound =
      Reassembly.afterAll c.chunkSize c.maxPartialBytes (calls c events) := by
  induction events using List.reverseRecOn with
  | nil => rfl
  | append_singleton events e ih =>
    rw [run_append, inbound_step, ih, calls_concat, Reassembly.afterAll_append]

theorem valid_of_mem_calls {events : List Event} {call : Call} (h : call ∈ calls c events) :
    call.Valid := by
  obtain ⟨e, _, he⟩ := List.mem_filterMap.mp h
  exact valid_of_call? he

/-- With accepted settings, and room in a word for all buffers and one more message, no table
halts. -/
theorem exists_run? {c : Config} (hc : c.validate = .ok ())
    (hfit : c.maxPartialBytes + Chunk.maxCount * c.chunkSize ≤ wordMax) (family : Ip.Family)
    (events : List Event) :
    ∃ s, Store.run? c.chunkSize c.maxPartialBytes (calls c events) = some s ∧
      s.Mirrors (run c family events).channel.inbound := by
  have hconfig := (Config.validate_eq_ok_iff c).mp hc
  have hplace : Chunk.maxCount * c.chunkSize ≤ sizeMax := by
    have hpacket : c.chunkSize ≤ Config.maxPacketSize :=
      Nat.le_trans (Nat.sub_le _ _) hconfig.packetSize_le
    calc Chunk.maxCount * c.chunkSize ≤ Chunk.maxCount * Config.maxPacketSize :=
          Nat.mul_le_mul_left _ hpacket
      _ ≤ sizeMax := by decide
  rw [inbound_run]
  exact Store.exists_run? hplace hfit fun _ => valid_of_mem_calls

end Life

end Courier.Datagram
