import Courier.Proofs.Lossless.Steps

/-!
Where the chunks are. Each chunk that a message has sent is on the network or has arrived, a
chunk of a reliable message that has arrived is acknowledged or its acknowledgement is on the
network, and all chunks of a message that left the queue have arrived. None is sent twice.
-/

namespace Courier.Lossless

open Outbound Reassembly

/-- A chunk went on the network. -/
def Sent (t : Lossless) (n : UInt64) (i : Nat) : Prop :=
  ∃ o ∈ t.link.sent, o.header.sequence = n ∧ o.header.index.toNat = i

/-- The acknowledgement of a chunk is on the network. -/
def Answered (t : Lossless) (n : UInt64) (i : Nat) : Prop :=
  ∃ o ∈ t.link.sent, o.header.sequence = n ∧ o.header.index.toNat = i ∧
    Chunk.packet o.header.toAck [] ∈ t.replies

structure Conserved (s : Setup) (t : Lossless) : Prop where
  /-- nothing is to be sent again -/
  lost : ∀ n m, t.queue.find? n = some m → m.lost = []
  once : (t.link.sent.map fun o => (o.header.sequence, o.header.index)).Nodup
  sent : ∀ n m, t.queue.find? n = some m → ∀ i < m.firstUnsent, Sent t n i
  travels : ∀ o ∈ t.link.sent,
    o ∈ t.flying ∨ Link.Came o.header.sequence o.header.index.toNat t.link.log
  answered : ∀ n m, t.queue.find? n = some m → m.reliable = true →
    ∀ i, Link.Came n i t.link.log → i ∈ m.acked ∨ Answered t n i
  /-- a message counts its chunks that the socket has not reported as written -/
  queued : ∀ n m, t.queue.find? n = some m → m.queued = t.unwritten.count n
  gone : ∀ n dest data r, .registered n dest data r ∈ t.link.log → t.queue.find? n = none →
    ∀ i, i * s.far.chunkSize < data.length → Link.Came n i t.link.log

theorem conserved_init (s : Setup) : Conserved s (init s) := by
  have hnone : ∀ n m, (init s).queue.find? n ≠ some m := by
    simp [init, queue, Link.init, Datagram.Channel.ofConfig, Queue.find?]
  exact {
    lost := fun n m hm => (hnone n m hm).elim
    once := List.nodup_nil
    sent := fun n m hm => (hnone n m hm).elim
    travels := by simp [init, Link.init]
    answered := fun n m hm => (hnone n m hm).elim
    queued := fun n m hm => (hnone n m hm).elim
    gone := by simp [init, Link.init] }

section

variable {s : Setup} {t t' : Lossless}

/-! ## The sender -/

theorem Conserved.lost_step (h : Conserved s t) (hs : Sound s t) (hst : Steps s t t') {n : UInt64}
    {m' : Message} (hm' : t'.queue.find? n = some m') : m'.lost = [] := by
  cases hst.fate hs hm' with
  | entered _ _ lost => exact lost
  | emitted m found o emits => exact List.sublist_nil.mp (h.lost n m found ▸ emits.lost_sublist)
  | kept m found _ _ lost => exact List.sublist_nil.mp (h.lost n m found ▸ lost)

/-- The next chunk is the first of its message that was not sent. -/
theorem Conserved.next (h : Conserved s t) (hs : Sound s t) {o : Outgoing}
    (ho : t.queue.next.1 = some o) :
    ∃ m, t.queue.find? o.header.sequence = some m ∧ o.header.index.toNat = m.firstUnsent := by
  obtain ⟨m, m', hm, _, he⟩ := Queue.emits_of_next hs.queue ho
  obtain ⟨hne, rfl⟩ := he.of_lost_nil (h.lost _ m hm)
  obtain ⟨_, _, hcut⟩ := hs.near.origin _ m hm
  have := (hs.queue.message hm).firstUnsent_le
  exact ⟨m, hm, hcut.toNat_index (by omega)⟩

theorem Conserved.once_step (h : Conserved s t) (hs : Sound s t) (hst : Steps s t t') :
    (t'.link.sent.map fun o => (o.header.sequence, o.header.index)).Nodup := by
  cases hst with
  | picked =>
    show ((t.link.sent ++ t.queue.next.1.toList).map _).Nodup
    cases ho : t.queue.next.1 with
    | none =>
      rw [Option.toList_none, List.append_nil]
      exact h.once
    | some o =>
      obtain ⟨m, hm, hi⟩ := h.next hs ho
      rw [List.map_append, List.nodup_append]
      refine ⟨h.once, List.nodup_singleton _, fun a ha b hb hab => ?_⟩
      subst hab
      cases List.mem_singleton.mp hb
      obtain ⟨o', ho', heq⟩ := List.mem_map.mp ha
      obtain ⟨hseq, hindex⟩ := Prod.mk.inj heq
      -- what was sent lies before the first unsent chunk
      have := hs.near.emitted o' ho' m (hseq ▸ hm)
      rw [hindex, hi] at this
      exact Nat.lt_irrefl _ this
  | _ => exact h.once

theorem Sent.mono {n : UInt64} {i : Nat} (h : Sent t n i) (hl : t.link.sent ⊆ t'.link.sent) :
    Sent t' n i := by
  obtain ⟨o, ho, hn⟩ := h
  exact ⟨o, hl ho, hn⟩

theorem Conserved.sent_step (h : Conserved s t) (hs : Sound s t) (hst : Steps s t t') {n : UInt64}
    {m' : Message} (hm' : t'.queue.find? n = some m') {i : Nat} (hi : i < m'.firstUnsent) :
    Sent t' n i := by
  cases hst.fate hs hm' with
  | entered _ unsent =>
    rw [unsent] at hi
    exact absurd hi (Nat.not_lt_zero i)
  | emitted m found o emits hsent =>
    rcases emits.covers hi with hlt | ⟨rfl, hne, hout⟩
    · exact (h.sent n m found i hlt).mono hst.sent_subset
    · cases hout
      obtain ⟨_, _, hcut⟩ := hs.near.origin n m found
      have := (hs.queue.message found).firstUnsent_le
      exact ⟨_, hsent, Queue.Sound.sequence found, hcut.toNat_index (by omega)⟩
  | kept m found _ unsent => exact (h.sent n m found i (unsent ▸ hi)).mono hst.sent_subset

theorem Conserved.queued_step (h : Conserved s t) (hs : Sound s t) (hst : Steps s t t')
    {n : UInt64} {m' : Message} (hm' : t'.queue.find? n = some m') :
    m'.queued = t'.unwritten.count n := by
  cases hst with
  | registered data reliable k q fits ok =>
    rcases Queue.message_of_register hs.queue ok hm' with ⟨rfl, pieces, _, rfl⟩ | ⟨_, hm⟩
    · -- nothing was sent under a number that is new
      refine (List.count_eq_zero.mpr fun hmem => ?_).symm
      obtain ⟨o, ho, hseq⟩ := List.mem_map.mp (hs.unwritten hmem)
      obtain ⟨m, i, _, ⟨_, hreg, _⟩, _, rfl⟩ := hs.near.genuine o ho
      have hlt := hs.near.numbered _ _ _ _ hreg
      rw [show m.sequence = n from hseq, (Queue.register_fields ok).1] at hlt
      exact Nat.lt_irrefl _ hlt
    · exact h.queued n m' hm
  | picked =>
    obtain ⟨m, hm, hasked⟩ := Queue.message_of_next hs.queue hm'
    have hown : (t.queue.next.1.toList.map (·.header.sequence)).count n =
        t.queue.next.1.toList.countP (·.header.sequence == n) := by
      rw [List.count_eq_countP, List.countP_map]
      rfl
    show m'.queued = (t.unwritten ++ t.queue.next.1.toList.map (·.header.sequence)).count n
    rw [hasked.counts, h.queued n m hm, Queue.Sound.sequence hm, List.count_append, hown]
  | written place k found =>
    obtain ⟨m, hm, rfl⟩ := Queue.message_of_markWritten hm'
    have hcount := (perm_eraseIdx found).count_eq n
    have hqueued := h.queued n m hm
    show _ = (t.unwritten.eraseIdx place).count n
    by_cases hn : n = k
    · subst hn
      rw [List.count_cons_self] at hcount
      rw [if_pos rfl]
      show m.queued - 1 = _
      omega
    · rw [List.count_cons_of_ne (Ne.symm hn)] at hcount
      rw [if_neg hn, hqueued, hcount]
  | acknowledged place ack =>
    have hack := Queue.acknowledges_acknowledge t.queue ack
    rcases Queue.message_of_acknowledges hs.queue hack hm' with hm | ⟨_, m, hm, taken, _⟩
    · exact h.queued n m' hm
    · rw [(Message.acknowledge?_eq_some_iff.mp taken).2]
      exact h.queued n m hm
  | _ => exact h.queued n m' hm'

/-! ## The network -/

theorem Conserved.travels_step (h : Conserved s t) (hs : Sound s t) (hst : Steps s t t')
    {o : Outgoing} (ho : o ∈ t'.link.sent) :
    o ∈ t'.flying ∨ Link.Came o.header.sequence o.header.index.toNat t'.link.log := by
  have hlog := hst.log_subset hs
  cases hst with
  | picked =>
    rcases List.mem_append.mp ho with ho | ho
    · exact (h.travels o ho).imp_left (List.mem_append_left _)
    · exact Or.inl (List.mem_append_right _ ho)
  | arrived place o' now found =>
    rcases h.travels o ho with hflying | hcame
    · rcases List.mem_cons.mp ((perm_eraseIdx found).subset hflying) with rfl | hrest
      · exact Or.inr (Link.came_arrived_cons.mpr (Or.inl ⟨rfl, rfl⟩))
      · exact Or.inl hrest
    · exact Or.inr (hcame.mono hlog)
  | _ => exact (h.travels o ho).imp_right (·.mono hlog)

/-- A chunk of a reliable message in the queue is answered when it arrives. -/
theorem Sound.reply_eq (hs : Sound s t) {o : Outgoing} (ho : o ∈ t.link.sent) {m : Message}
    (hm : t.queue.find? o.header.sequence = some m) (hr : m.reliable = true) :
    Link.reply o = some (Chunk.packet o.header.toAck []) := by
  have hkind := (hs.near.header_of_find? ho hm).1
  rw [Message.kind, if_pos hr] at hkind
  rw [Link.reply, if_pos hkind]

/-- The acknowledgement that arrives is for the chunk that it answers. -/
theorem Sound.acked_of_answer (hs : Sound s t) {o : Outgoing} (ho : o ∈ t.link.sent)
    {ack : Chunk.Header} (hv : ack.Valid)
    (heq : Chunk.packet o.header.toAck [] = Chunk.packet ack []) {m m' : Message}
    (hm : t.queue.find? o.header.sequence = some m) (hr : m.reliable = true)
    (hm' : (t.queue.acknowledge ack).2.find? o.header.sequence = some m') :
    o.header.index.toNat ∈ m'.acked := by
  have hvalid := Chunk.Header.valid_toAck (hs.near.valid ho)
  obtain ⟨rfl, _⟩ := Chunk.Header.packet_inj hvalid hv heq
  exact Queue.acked_of_acknowledges hs.queue (Queue.acknowledges_acknowledge t.queue _) hm hr
    (hs.near.header_of_find? ho hm).2 (hs.near.emitted o ho m hm) hm'

theorem Conserved.answered_step (h : Conserved s t) (hs : Sound s t) (hst : Steps s t t')
    {n : UInt64} {m' : Message} (hm' : t'.queue.find? n = some m') (hr : m'.reliable = true)
    {i : Nat} (hc : Link.Came n i t'.link.log) : i ∈ m'.acked ∨ Answered t' n i := by
  -- a chunk that had come was acknowledged, or its acknowledgement was on the network
  have hbefore (hcame : Link.Came n i t.link.log) : i ∈ m'.acked ∨
      ∃ m, t.queue.find? n = some m ∧ m.reliable = true ∧ Answered t n i := by
    cases hst.fate hs hm' with
    | entered new => exact absurd new (hs.not_entered hcame)
    | emitted m found o emits =>
      have hrel := emits.kin.reliable ▸ hr
      exact (h.answered n m found hrel i hcame).imp (emits.grows.2.symm ▸ ·) (⟨m, found, hrel, ·⟩)
    | kept m found reliable _ _ acked =>
      have hrel := reliable ▸ hr
      exact (h.answered n m found hrel i hcame).imp (acked i) (⟨m, found, hrel, ·⟩)
  have hsent := hst.sent_subset
  cases hst with
  | idle => exact (hbefore hc).imp_right fun ⟨_, _, _, ha⟩ => ha
  | registered =>
    exact (hbefore ((Link.came_cons (by simp)).mp hc)).imp_right fun ⟨_, _, _, ha⟩ => ha
  | picked =>
    exact (hbefore hc).imp_right fun ⟨_, _, _, o, ho, hrest⟩ => ⟨o, hsent ho, hrest⟩
  | written => exact (hbefore hc).imp_right fun ⟨_, _, _, ha⟩ => ha
  | arrived place o now found =>
    rcases Link.came_arrived_cons.mp hc with ⟨rfl, rfl⟩ | hcame
    · have ho := hs.flying (List.mem_of_getElem? found)
      refine Or.inr ⟨o, ho, rfl, rfl, List.mem_append_right _ ?_⟩
      rw [hs.reply_eq ho hm' hr]
      exact List.mem_singleton_self _
    · exact (hbefore hcame).imp_right fun ⟨_, _, _, o, ho, hn, hi, hb⟩ =>
        ⟨o, ho, hn, hi, List.mem_append_left _ hb⟩
  | acknowledged place ack found valid =>
    rcases hbefore ((Link.came_cons (by simp)).mp hc) with hacked |
      ⟨m, hm, hrel, o, ho, rfl, rfl, hb⟩
    · exact Or.inl hacked
    · rcases List.mem_cons.mp ((perm_eraseIdx found).subset hb) with heq | hrest
      · exact Or.inl (hs.acked_of_answer ho valid heq hm hrel hm')
      · exact Or.inr ⟨o, ho, rfl, rfl, hrest⟩

/-! ## Messages that left the queue -/

theorem Conserved.gone_step (h : Conserved s t) (hs : Sound s t) (hst : Steps s t t') {n : UInt64}
    {dest : SocketAddr} {data : Bytes} {r : Bool} (hreg : .registered n dest data r ∈ t'.link.log)
    (hnone : t'.queue.find? n = none) {i : Nat} (hi : i * s.far.chunkSize < data.length) :
    Link.Came n i t'.link.log := by
  have hlog := hst.log_subset hs
  cases hst with
  | idle => exact h.gone n dest data r hreg hnone i hi
  | registered data' reliable k q fits ok =>
    obtain ⟨_, pieces, _, hfind⟩ := Queue.find?_register hs.queue ok n
    rw [show q.find? n = none from hnone] at hfind
    by_cases hn : n = k
    · rw [if_pos hn] at hfind
      cases hfind
    · rw [if_neg hn] at hfind
      have hold := (List.mem_cons.mp hreg).resolve_left fun heq => by
        cases heq
        exact hn rfl
      exact (h.gone n dest data r hold hfind.symm i hi).mono hlog
  | picked =>
    rcases Queue.find?_next hs.queue n with ⟨hold, _⟩ | ⟨_, m', _, hm', _⟩
    · exact h.gone n dest data r hreg hold i hi
    · cases hm'.symm.trans hnone
  | written place k =>
    exact h.gone n dest data r hreg (Queue.find?_eq_none_of_markWritten hnone) i hi
  | arrived place o now found =>
    have hold := (List.mem_cons.mp hreg).resolve_left (by simp)
    exact (h.gone n dest data r hold hnone i hi).mono hlog
  | acknowledged place ack found valid =>
    have hold := (List.mem_cons.mp hreg).resolve_left (by simp)
    cases hm : t.queue.find? n with
    | none => exact (h.gone n dest data r hold hm i hi).mono hlog
    | some m =>
      -- it leaves the queue with the acknowledgement of its last chunk
      obtain ⟨rfl, m', hm', _, hall⟩ := Queue.settled_of_gone hs.queue
        ((Queue.mem_gone hs.queue).mpr ⟨⟨m, hm⟩, hnone⟩)
      cases hm'.symm.trans hm
      rcases hall i ((hs.near.lt_total_iff hm hold i).mpr hi) with rfl | hacked
      · have hb := hs.replies (List.mem_of_getElem? found)
        exact (hs.near.came_of_ack hb valid).mono hlog
      · exact (hs.near.acked _ m i hm hacked).mono hlog

theorem Conserved.step (h : Conserved s t) (hs : Sound s t) (hst : Steps s t t') :
    Conserved s t' where
  lost := fun _ _ hm' => h.lost_step hs hst hm'
  once := h.once_step hs hst
  sent := fun _ _ hm' _ hi => h.sent_step hs hst hm' hi
  travels := fun _ ho => h.travels_step hs hst ho
  answered := fun _ _ hm' hr _ hc => h.answered_step hs hst hm' hr hc
  queued := fun _ _ hm' => h.queued_step hs hst hm'
  gone := fun _ _ _ _ hreg hnone _ hi => h.gone_step hs hst hreg hnone hi

theorem conserved_run (s : Setup) (events : List Event) :
    Sound s (run s events) ∧ Conserved s (run s events) :=
  run_of_steps (conserved_init s) (fun _ _ hs hst h => h.step hs hst) events

end

end Courier.Lossless
