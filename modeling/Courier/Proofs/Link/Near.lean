import Courier.Proofs.Link.Steps

/-!
The invariant of the near end and of the network: what is in the queue was registered,
what was sent is a chunk of something registered, what arrived was sent, and what is
acknowledged arrived.
-/

namespace Courier.Link

open Outbound Reassembly

structure Near (s : Setup) (l : Link) : Prop where
  queue : l.near.outbound.Sound
  size : l.near.outbound.chunkSize = s.far.chunkSize
  flight : l.near.outbound.maxFlight = s.near.maxFlight
  numbered : ∀ n dest data r, .registered n dest data r ∈ l.log →
    n.toNat < l.near.outbound.nextNumber.toNat
  unique : ∀ n dest data r dest' data' r', .registered n dest data r ∈ l.log →
    .registered n dest' data' r' ∈ l.log → dest = dest' ∧ data = data' ∧ r = r'
  origin : ∀ n m, l.near.outbound.find? n = some m → Origin s.far.chunkSize l.log m
  genuine : ∀ o ∈ l.sent, Genuine s.far.chunkSize l.log o
  /-- what was sent is counted as sent as long as its message is in the queue -/
  emitted : ∀ o ∈ l.sent, ∀ m, l.near.outbound.find? o.header.sequence = some m →
    o.header.index.toNat < m.firstUnsent
  travelled : ∀ o outcome d, .arrived o outcome d ∈ l.log → o ∈ l.sent ∧ o.dest = s.there
  replies : ∀ b ∈ l.acks, ∃ o outcome d, .arrived o outcome d ∈ l.log ∧ o.header.kind = .data ∧
    b = Chunk.packet o.header.toAck []
  acked : ∀ n m i, l.near.outbound.find? n = some m → i ∈ m.acked → Came n i l.log

theorem near_init (s : Setup) : Near s (init s) where
  queue := ⟨List.nodup_nil, by simp [init, Datagram.Channel.ofConfig],
    by simp [init, Datagram.Channel.ofConfig]⟩
  size := s.sameSize
  flight := rfl
  numbered := by simp [init]
  unique := by simp [init]
  origin := by simp [init, Datagram.Channel.ofConfig, Queue.find?]
  genuine := by simp [init]
  emitted := by simp [init]
  travelled := by simp [init]
  replies := by simp [init]
  acked := by simp [init, Datagram.Channel.ofConfig, Queue.find?]

namespace Near

variable {s : Setup} {l l' : Link} {e : Event}

theorem reply (h : Near s l) : ∀ b ∈ l.acks, Reply s.near.chunkSize l.log b := by
  intro b hb
  obtain ⟨o, outcome, d, ho, _, rfl⟩ := h.replies b hb
  exact ⟨o, s.sameSize ▸ h.genuine o (h.travelled o outcome d ho).1, rfl⟩

theorem steps (h : Near s l) (e : Event) : Steps s l e (step s l e) :=
  steps_step h.genuine h.reply e

theorem valid (h : Near s l) {o : Outgoing} (ho : o ∈ l.sent) : o.header.Valid := by
  obtain ⟨m, i, _, ⟨_, _, hm⟩, hi, rfl⟩ := h.genuine o ho
  exact hm.valid hi

/-- The chunk that an acknowledgement on the network is for has arrived. -/
theorem came_of_ack (h : Near s l) {ack : Chunk.Header} (hb : Chunk.packet ack [] ∈ l.acks)
    (hv : ack.Valid) : Came ack.sequence ack.index.toNat l.log := by
  obtain ⟨o, outcome, d, ho, _, heq⟩ := h.replies _ hb
  have hgen := h.valid (h.travelled o outcome d ho).1
  obtain ⟨rfl, _⟩ := Chunk.Header.packet_inj hv (Chunk.Header.valid_toAck hgen) heq
  exact ⟨o, outcome, d, ho, rfl, rfl⟩

/-- A chunk that came was sent. -/
theorem lt_of_came (h : Near s l) {n : UInt64} {m : Message} (hm : l.near.outbound.find? n = some m)
    {i : Nat} (hc : Came n i l.log) : i < m.firstUnsent := by
  obtain ⟨o, outcome, d, ho, rfl, rfl⟩ := hc
  exact h.emitted o (h.travelled o outcome d ho).1 m hm

/-- A number under which a chunk came is not given again. -/
theorem lt_next_of_came (h : Near s l) {n : UInt64} {i : Nat} (hc : Came n i l.log) :
    n.toNat < l.near.outbound.nextNumber.toNat := by
  obtain ⟨o, outcome, d, ho, rfl, _⟩ := hc
  obtain ⟨m, j, _, ⟨data, hreg, _⟩, _, rfl⟩ := h.genuine o (h.travelled o outcome d ho).1
  exact h.numbered _ _ _ _ hreg

/-- A chunk that a message sends is not acknowledged. -/
theorem not_acked_of_emits (h : Near s l) {W : Nat} {n : UInt64} {m m' : Message} {o : Outgoing}
    (hm : l.near.outbound.find? n = some m) (he : Message.Emits W m (some o) m') :
    o.header.index.toNat ∉ m.acked := by
  obtain ⟨_, _, hcut⟩ := h.origin n m hm
  obtain ⟨i, hi, heq, hmissing, _⟩ := he.chunk_eq (h.queue.message hm)
  rwa [heq, Message.header_chunk, hcut.toNat_index hi]

end Near

/-- The log only grows. -/
theorem Steps.log_subset {s : Setup} {l l' : Link} {e : Event} (h : Steps s l e l') :
    l.log ⊆ l'.log := by
  cases h <;> first | exact List.Subset.refl _ | exact List.subset_cons_self _ _

/-- Another queue with the same numbers, whose messages changed in ways that a queue
allows, and nothing new on the network. -/
theorem Near.withQueue {s : Setup} {l : Link} {q : Queue} (h : Near s l) (hq : q.Sound)
    (hf : q.chunkSize = l.near.outbound.chunkSize ∧ q.maxFlight = l.near.outbound.maxFlight ∧
      q.nextNumber = l.near.outbound.nextNumber)
    (hm : ∀ n m', q.find? n = some m' → ∃ m, l.near.outbound.find? n = some m ∧
      Message.Kin m m' ∧ m.firstUnsent ≤ m'.firstUnsent ∧
      ∀ i ∈ m'.acked, i ∈ m.acked ∨ Came n i l.log) : Near s (l.withQueue q) where
  queue := hq
  size := hf.1.trans h.size
  flight := hf.2.1.trans h.flight
  numbered := fun n dest data r hr => by
    rw [show (l.withQueue q).near.outbound.nextNumber = _ from hf.2.2]
    exact h.numbered n dest data r hr
  unique := h.unique
  origin := fun n m' hm' => by
    obtain ⟨m, hfind, hkin, _⟩ := hm n m' hm'
    exact (h.origin n m hfind).kin hkin
  genuine := h.genuine
  emitted := fun o ho m' hm' => by
    obtain ⟨m, hfind, _, hle, _⟩ := hm _ m' hm'
    exact Nat.lt_of_lt_of_le (h.emitted o ho m hfind) hle
  travelled := h.travelled
  replies := h.replies
  acked := fun n m' i hm' hi => by
    obtain ⟨m, hfind, _, _, hacked⟩ := hm n m' hm'
    rcases hacked i hi with hold | hcame
    · exact h.acked n m i hfind hold
    · exact hcame

/-- The near end and the network know nothing of the table of the far end. -/
theorem Near.withTable {s : Setup} {l : Link} (h : Near s l) (inbound : Reassembly) :
    Near s { l with far := { l.far with inbound } } :=
  ⟨h.queue, h.size, h.flight, h.numbered, h.unique, h.origin, h.genuine, h.emitted, h.travelled,
    h.replies, h.acked⟩

/-- One more fact that is no registration and no arrival. -/
theorem Near.withLog {s : Setup} {l : Link} (h : Near s l) (f : Fact)
    (hr : ∀ n dest data r, f ≠ .registered n dest data r)
    (ha : ∀ o outcome d, f ≠ .arrived o outcome d) : Near s { l with log := f :: l.log } where
  queue := h.queue
  size := h.size
  flight := h.flight
  numbered := fun n dest data r hm => by
    rcases List.mem_cons.mp hm with heq | hm
    · exact absurd heq.symm (hr n dest data r)
    · exact h.numbered n dest data r hm
  unique := fun n dest data r dest' data' r' hm hm' => by
    rcases List.mem_cons.mp hm with heq | hm
    · exact absurd heq.symm (hr n dest data r)
    rcases List.mem_cons.mp hm' with heq | hm'
    · exact absurd heq.symm (hr n dest' data' r')
    · exact h.unique n dest data r dest' data' r' hm hm'
  origin := fun n m hm => (h.origin n m hm).mono (List.subset_cons_self _ _)
  genuine := fun o ho => (h.genuine o ho).mono (List.subset_cons_self _ _)
  emitted := h.emitted
  travelled := fun o outcome d hm => by
    rcases List.mem_cons.mp hm with heq | hm
    · exact absurd heq.symm (ha o outcome d)
    · exact h.travelled o outcome d hm
  replies := fun b hb => by
    obtain ⟨o, outcome, d, hm, hk, heq⟩ := h.replies b hb
    exact ⟨o, outcome, d, List.mem_cons_of_mem _ hm, hk, heq⟩
  acked := fun n m i hm hi => (h.acked n m i hm hi).cons f

/-! ## Each step keeps it -/

namespace Near

variable {s : Setup} {l l' : Link} {e : Event}

theorem registered (h : Near s l) {dest : SocketAddr} {data : Bytes} {reliable : Bool} {n : UInt64}
    {q : Queue} (ok : l.near.outbound.register dest data reliable = .ok (n, q)) :
    Near s { l.withQueue q with log := .registered n dest data reliable :: l.log } := by
  obtain ⟨hn, hnext, hsize, hflight⟩ := Queue.register_fields ok
  have hlt : ∀ {t dest data r}, .registered t dest data r ∈ l.log → t.toNat < n.toNat := by
    intro t dest data r hm
    rw [hn]
    exact h.numbered t dest data r hm
  have hnew : ∀ dest data r, .registered n dest data r ∉ l.log :=
    fun dest data r hm => Nat.lt_irrefl _ (hlt hm)
  refine ⟨h.queue.register ok, hsize.trans h.size, hflight.trans h.flight, ?_, ?_, ?_, ?_, ?_, ?_,
    ?_, ?_⟩
  · intro t dest' data' r' hm
    refine Nat.lt_of_lt_of_eq (Nat.lt_succ_iff.mpr ?_) hnext.symm
    rcases List.mem_cons.mp hm with heq | hm
    · cases heq
      exact Nat.le_refl _
    · exact Nat.le_of_lt (hlt hm)
  · intro t d x r d' x' r' hm hm'
    rcases List.mem_cons.mp hm with heq | hm <;> rcases List.mem_cons.mp hm' with heq' | hm'
    · cases heq
      cases heq'
      exact ⟨rfl, rfl, rfl⟩
    · cases heq
      exact absurd hm' (hnew d' x' r')
    · cases heq'
      exact absurd hm (hnew d x r)
    · exact h.unique t d x r d' x' r' hm hm'
  · intro t m hm
    rcases Queue.message_of_register h.queue ok hm with ⟨_, pieces, hsplit, rfl⟩ | ⟨_, hm⟩
    · exact ⟨data, List.mem_cons_self, h.size ▸ .of_register ok hsplit⟩
    · exact (h.origin t m hm).mono (List.subset_cons_self _ _)
  · exact fun o ho => (h.genuine o ho).mono (List.subset_cons_self _ _)
  · intro o ho m hm
    rcases Queue.message_of_register h.queue ok hm with ⟨ht, _⟩ | ⟨_, hm⟩
    · -- nothing was sent under a number that is new
      obtain ⟨m', i, resent, ⟨data', hreg, _⟩, _, rfl⟩ := h.genuine o ho
      rw [show m'.sequence = n from ht] at hreg
      exact absurd hreg (hnew _ _ _)
    · exact h.emitted o ho m hm
  · intro o outcome d hm
    exact h.travelled o outcome d ((List.mem_cons.mp hm).resolve_left (by simp))
  · intro b hb
    obtain ⟨o, outcome, d, hm, hk, heq⟩ := h.replies b hb
    exact ⟨o, outcome, d, List.mem_cons_of_mem _ hm, hk, heq⟩
  · intro t m i hm hi
    rcases Queue.message_of_register h.queue ok hm with ⟨_, pieces, _, rfl⟩ | ⟨_, hm⟩
    · simp at hi
    · exact (h.acked t m i hm hi).cons _

theorem picked (h : Near s l) : Near s { l.withQueue l.near.outbound.next.2 with
    sent := l.sent ++ l.near.outbound.next.1.toList } := by
  have hq := h.withQueue h.queue.next (Queue.next_fields _) fun n m' hm' => by
    obtain ⟨m, hm, ha⟩ := Queue.message_of_next h.queue hm'
    refine ⟨m, hm, ha.kin, ?_⟩
    rcases ha with ⟨rfl, _⟩ | he
    · exact ⟨Nat.le_refl _, fun i hi => Or.inl hi⟩
    · exact ⟨he.grows.1, fun i hi => Or.inl (he.grows.2 ▸ hi)⟩
  cases hout : l.near.outbound.next.1 with
  | none =>
    rw [Option.toList_none, List.append_nil]
    exact hq
  | some o =>
    obtain ⟨m, m', hm, hm', he⟩ := Queue.emits_of_next h.queue hout
    have horig := h.origin _ m hm
    have hsound := h.queue.message hm
    -- a chunk that is sent again was sent before, a fresh one is the next unsent one
    obtain ⟨i, resent, hi, hlt, rfl⟩ : ∃ i resent, i < m.total ∧ i < m'.firstUnsent ∧
        o = m.chunk i resent := by
      cases he with
      | again i rest lost =>
        have hi := hsound.lost_lt ((Message.rest_sublist lost).subset List.mem_cons_self)
        exact ⟨i, true, Nat.lt_of_lt_of_le hi hsound.firstUnsent_le, hi, rfl⟩
      | fresh lost unsent room =>
        have := hsound.firstUnsent_le
        exact ⟨m.firstUnsent, false, by omega, Nat.lt_succ_self _, rfl⟩
    refine { hq with
      genuine := fun o ho => ?_
      emitted := fun o ho m'' hm'' => ?_
      travelled := fun o outcome d hf => ?_ }
    · rcases List.mem_append.mp ho with ho | ho
      · exact h.genuine o ho
      · cases List.mem_singleton.mp ho
        exact ⟨m, i, resent, horig, hi, rfl⟩
    · rcases List.mem_append.mp ho with ho | ho
      · exact hq.emitted o ho m'' hm''
      · cases List.mem_singleton.mp ho
        cases hm'.symm.trans hm''
        obtain ⟨_, _, hcut⟩ := horig
        rw [Message.header_chunk, hcut.toNat_index hi]
        exact hlt
    · have := h.travelled o outcome d hf
      exact ⟨List.mem_append_left _ this.1, this.2⟩

theorem arrived (h : Near s l) {o : Outgoing} (ho : o ∈ l.sent) (hd : o.dest = s.there)
    (now : Instant) : Near s (l.received s o now) where
  queue := h.queue
  size := h.size
  flight := h.flight
  numbered := fun n dest data r hm => by
    rcases List.mem_cons.mp hm with heq | hm
    · cases heq
    · exact h.numbered n dest data r hm
  unique := fun n d x r d' x' r' hm hm' => by
    rcases List.mem_cons.mp hm with heq | hm
    · cases heq
    rcases List.mem_cons.mp hm' with heq | hm'
    · cases heq
    · exact h.unique n d x r d' x' r' hm hm'
  origin := fun n m hm => (h.origin n m hm).mono (List.subset_cons_self _ _)
  genuine := fun o ho => (h.genuine o ho).mono (List.subset_cons_self _ _)
  emitted := h.emitted
  travelled := fun o' outcome d hm => by
    rcases List.mem_cons.mp hm with heq | hm
    · cases heq
      exact ⟨ho, hd⟩
    · exact h.travelled o' outcome d hm
  replies := fun b hb => by
    rcases List.mem_append.mp hb with hb | hb
    · obtain ⟨o, outcome, d, hm, hk, heq⟩ := h.replies b hb
      exact ⟨o, outcome, d, List.mem_cons_of_mem _ hm, hk, heq⟩
    · unfold Link.reply at hb
      split at hb
      · rename_i hk
        exact ⟨o, _, _, List.mem_cons_self, hk, by simpa using hb⟩
      · simp at hb
  acked := fun n m i hm hi => (h.acked n m i hm hi).cons _

theorem acknowledged (h : Near s l) {ack : Chunk.Header} (hb : Chunk.packet ack [] ∈ l.acks)
    (hv : ack.Valid) : Near s (l.acked (l.near.outbound.acknowledge ack).2) := by
  have hack := Queue.acknowledges_acknowledge l.near.outbound ack
  obtain ⟨hq, hfields⟩ := h.queue.acknowledges hack
  have hcame := h.came_of_ack hb hv
  refine (h.withQueue hq hfields fun n m' hm' => ?_).withLog _ (by simp) (by simp)
  rcases Queue.message_of_acknowledges h.queue hack hm' with hm | ⟨hn, m, hm, taken, _⟩
  · exact ⟨m', hm, .refl _, Nat.le_refl _, fun i hi => Or.inl hi⟩
  · refine ⟨m, hm, Message.kin_of_acknowledge? taken, ?_⟩
    obtain ⟨_, rfl⟩ := Message.acknowledge?_eq_some_iff.mp taken
    refine ⟨Nat.le_refl _, fun i hi => ?_⟩
    rcases Std.TreeSet.mem_insert.mp hi with heq | hi
    · rw [← Std.compare_eq_iff_eq.mp heq, hn]
      exact Or.inr hcame
    · exact Or.inl hi

theorem step (h : Near s l) (hs : Steps s l e l') : Near s l' := by
  cases hs with
  | idle => exact h
  | registered dest data reliable n q ok => exact h.registered ok
  | picked => exact h.picked
  | written n =>
    refine h.withQueue (h.queue.markWritten n) ⟨rfl, rfl, rfl⟩ fun t m' hm' => ?_
    obtain ⟨m, hm, rfl⟩ := Queue.message_of_markWritten hm'
    refine ⟨m, hm, ?_⟩
    split
    · exact ⟨⟨rfl, rfl, rfl, rfl⟩, Nat.le_refl _, fun i hi => Or.inl hi⟩
    · exact ⟨.refl _, Nat.le_refl _, fun i hi => Or.inl hi⟩
  | arrived place o now found dest valid => exact h.arrived (List.mem_of_getElem? found) dest now
  | acknowledged place ack now found valid =>
    exact h.acknowledged (List.mem_of_getElem? found) valid
  | ticked a b =>
    refine h.withQueue (h.queue.tick a b) (Queue.tick_fields h.queue.distinct a b)
      fun t m' hm' => ?_
    obtain ⟨m, _, hm, ht⟩ := Queue.ticks_of_find? h.queue hm'
    exact ⟨m, hm, ht.kin, Nat.le_of_eq ht.same.1.symm, fun i hi => Or.inl (ht.same.2 ▸ hi)⟩
  | cancelled dest =>
    refine h.withQueue (h.queue.dropTo dest) (Queue.dropTo_fields h.queue.distinct dest)
      fun t m' hm' => ?_
    rw [Queue.find?_dropTo h.queue, Option.filter_eq_some_iff] at hm'
    exact ⟨m', hm'.1, .refl _, Nat.le_refl _, fun i hi => Or.inl hi⟩
  | purged now timeout retention =>
    have htable := h.withTable (l.far.inbound.purge now timeout retention).2
    exact htable.withLog (.purged (discarded _ _) (forgotten _ _)) (by simp) (by simp)

end Near

end Courier.Link
